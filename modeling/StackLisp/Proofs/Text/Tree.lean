import Mathlib.Data.Finset.Card
import Mathlib.Data.Finset.Range
import StackLisp.Proofs.Actions.Allocation
import StackLisp.Proofs.Safety.Memory

/-!
# The trees that values unfold to

A value without cycles unfolds to a finite tree, with pairs as its nodes and
everything else as its leaves (`Heap.Unfolds`). Values that unfold to the same
tree have the same structure, and `Heap.equal` says so (`Heap.Unfolds.equal_eq`): no
branch of the tree is longer than the heap has pairs.

Allocating leaves the trees of older values alone (`Heap.Gains.unfolds`), and a
list of values unfolds to the trees of its elements (`leads_listWithTail`).
-/

namespace StackLisp

/-- A value without cycles, unfolded. -/
inductive Tree where
  | leaf (v : Value)
  | node (head tail : Tree)
deriving DecidableEq, Repr

namespace Tree

/-- The number of nodes. -/
def pairs : Tree → Nat
  | leaf _ => 0
  | node a d => a.pairs + d.pairs + 1

/-- The most nodes on one branch. -/
def height : Tree → Nat
  | leaf _ => 0
  | node a d => max a.height d.height + 1

/-- How deep lists are nested: a list is one deeper than its elements, and its tail
    belongs to it. -/
def depth : Tree → Nat
  | leaf _ => 0
  | node a d => max (a.depth + 1) d.depth

/-- The number of elements of a list, proper or dotted. -/
def length : Tree → Nat
  | leaf _ => 0
  | node _ d => d.length + 1

/-- The number of elements of the longest list. -/
def longest : Tree → Nat
  | leaf _ => 0
  | node a d => max (max a.longest d.longest) (d.length + 1)

/-- The leaves, from left to right. -/
def leaves : Tree → List Value
  | leaf v => [v]
  | node a d => a.leaves ++ d.leaves

end Tree

namespace Heap

variable {h h' : Heap} {v w : Value} {t : Tree}

/-- Following the components of its pairs, which are all on the heap, the value
    unfolds to the tree. -/
inductive Unfolds (h : Heap) : Value → Tree → Prop where
  | leaf {v : Value} (atom : v.isAtom = true) : Unfolds h v (.leaf v)
  | node {id : PairId} {a d : Tree} (valid : id.index < h.pairCount)
      (head : Unfolds h (h.car id) a) (tail : Unfolds h (h.cdr id) d) :
      Unfolds h (.pair id) (.node a d)

namespace Unfolds

theorem leaf_inv {v w : Value} (hv : h.Unfolds v (.leaf w)) : v = w ∧ w.isAtom = true := by
  cases hv with
  | leaf atom => exact ⟨rfl, atom⟩

theorem node_inv {a d : Tree} (hv : h.Unfolds v (.node a d)) :
    ∃ id, v = .pair id ∧ id.index < h.pairCount ∧ h.Unfolds (h.car id) a ∧
      h.Unfolds (h.cdr id) d := by
  cases hv with
  | node valid head tail => exact ⟨_, rfl, valid, head, tail⟩

/-- A value unfolds to one tree. -/
theorem unique {t' : Tree} (hv : h.Unfolds v t) (hv' : h.Unfolds v t') : t = t' := by
  induction hv generalizing t' with
  | leaf atom =>
    cases hv' with
    | leaf => rfl
    | node => cases atom
  | node valid head tail ihead itail =>
    cases hv' with
    | leaf atom => cases atom
    | node _ head' tail' => rw [ihead head', itail tail']

/-- Different pairs on the heap, from each of which on there are at most `n` nodes. -/
def Branch (h : Heap) (n : Nat) (ids : List PairId) : Prop :=
  ids.Nodup ∧ ∀ id ∈ ids, id.index < h.pairCount ∧ ∃ t, h.Unfolds (.pair id) t ∧ t.pairs ≤ n

/-- A pair with more nodes than those of a branch is not among them. -/
theorem Branch.cons {n : Nat} {ids : List PairId} {id : PairId} (hids : Branch h n ids)
    (valid : id.index < h.pairCount) (hid : h.Unfolds (.pair id) t) (hlt : n < t.pairs) :
    Branch h t.pairs (id :: ids) := by
  refine ⟨List.nodup_cons.2 ⟨fun hmem => ?_, hids.1⟩, fun other hother => ?_⟩
  · obtain ⟨-, t', hunfolds, hle⟩ := hids.2 id hmem
    rw [unique hunfolds hid] at hle
    exact Nat.not_le.2 hlt hle
  · rcases List.mem_cons.1 hother with rfl | hother
    · exact ⟨valid, t, hid, Nat.le_refl _⟩
    · obtain ⟨hvalid, t', hunfolds, hle⟩ := hids.2 other hother
      exact ⟨hvalid, t', hunfolds, hle.trans hlt.le⟩

/-- The pairs along the longest branch of a tree. -/
theorem branch (hv : h.Unfolds v t) :
    ∃ ids : List PairId, ids.length = t.height ∧ Branch h t.pairs ids := by
  induction hv with
  | leaf => exact ⟨[], rfl, List.nodup_nil, fun _ hid => nomatch hid⟩
  | @node id a d valid head tail ihead itail =>
    obtain ⟨ids, hlength, hids⟩ := ihead
    obtain ⟨ids', hlength', hids'⟩ := itail
    have hnode := Unfolds.node valid head tail
    rw [Tree.height]
    rcases Nat.le_total a.height d.height with hle | hle
    · refine ⟨id :: ids', ?_, hids'.cons valid hnode (by simp only [Tree.pairs]; omega)⟩
      rw [Nat.max_eq_right hle, List.length_cons, hlength']
    · refine ⟨id :: ids, ?_, hids.cons valid hnode (by simp only [Tree.pairs]; omega)⟩
      rw [Nat.max_eq_left hle, List.length_cons, hlength]

/-- No branch is longer than the heap has pairs. -/
theorem height_le (hv : h.Unfolds v t) : t.height ≤ h.pairCount := by
  obtain ⟨ids, hlength, hnodup, hids⟩ := hv.branch
  have hindices : (ids.map PairId.index).Nodup :=
    hnodup.map fun _ _ heq => congrArg PairId.mk heq
  have hcard := Finset.card_le_card (s := (ids.map PairId.index).toFinset)
    (t := Finset.range h.pairCount) fun i hi => by
      obtain ⟨id, hid, rfl⟩ := List.mem_map.1 (List.mem_toFinset.1 hi)
      exact Finset.mem_range.2 (hids id hid).1
  rwa [List.toFinset_card_of_nodup hindices, List.length_map, hlength, Finset.card_range] at hcard

/-- Values are compared by the trees that they unfold to. -/
theorem equalFrom_eq {u : Tree} {fuel : Nat} (hv : h.Unfolds v t) (hw : h.Unfolds w u)
    (hfuel : t.height ≤ fuel) : h.equalFrom fuel v w = .ok (decide (t = u)) := by
  -- The induction is on the tree, since pairs may be met many times.
  induction hv generalizing w u fuel with
  | @leaf v atom =>
    have hatom : h.equalFrom fuel v w = .ok (decide (v = w)) := by
      cases v with
      | pair => cases atom
      | _ => simp [Heap.equalFrom]
    rw [hatom]
    cases hw with
    | leaf => simp
    | @node y =>
      have hne : v ≠ .pair y := by
        rintro rfl
        cases atom
      simp [hne]
  | @node x a d valid head tail ihead itail =>
    rw [Tree.height] at hfuel
    obtain ⟨fuel, rfl⟩ : ∃ n, fuel = n + 1 := ⟨fuel - 1, by omega⟩
    cases hw with
    | leaf atom =>
      cases w with
      | pair => cases atom
      | _ => simp [Heap.equalFrom]
    | @node y a' d' valid' head' tail' =>
      rw [Heap.equalFrom]
      split
      · next heq =>
        -- A pair is not looked into when it is compared with itself.
        subst heq
        rw [head.unique head', tail.unique tail', decide_eq_true rfl]
      · rw [ihead head' (by omega), itail tail' (by omega)]
        by_cases heq : a = a' <;> simp [heq]

theorem equal_eq {u : Tree} (hv : h.Unfolds v t) (hw : h.Unfolds w u) :
    h.equal v w = .ok (decide (t = u)) :=
  hv.equalFrom_eq hw (hv.height_le.trans (Nat.le_mul_self _))

/-- Values that unfold to the same tree are equal. -/
theorem equal (hv : h.Unfolds v t) (hw : h.Unfolds w t) : h.equal v w = .ok true := by
  rw [hv.equal_eq hw, decide_eq_true rfl]

end Unfolds

namespace Gains

variable {n : Nat}

/-- Older values unfold as before. -/
theorem unfolds (g : Gains n h h') (hv : h.Unfolds v t) : h'.Unfolds v t := by
  induction hv with
  | leaf atom => exact .leaf atom
  | node valid head tail ihead itail =>
    refine .node (valid.trans_le g.pairCount) ?_ ?_
    · rwa [g.car _ valid]
    · rwa [g.cdr _ valid]

end Gains

theorem leads_cons {a d : Tree} (hv : h.Unfolds v a) (hw : h.Unfolds w d) :
    Leads (cons v w) h (fun x h' => h.Gains 1 h' ∧ h'.Unfolds x (.node a d))
      fun e _ => h.Overflows 1 e := by
  rw [leads_cons_iff]
  split
  · next hroom =>
    have g := Gains.push hroom v w
    refine ⟨g, .node (by simp) ?_ ?_⟩
    · rw [car_push]
      exact g.unfolds hv
    · rw [cdr_push]
      exact g.unfolds hw
  · next hroom => exact overflows_one hroom

/-- Values that unfold to trees, one by one. -/
abbrev AllUnfold (h : Heap) : List Value → List Tree → Prop := List.Forall₂ h.Unfolds

theorem Gains.allUnfold {n : Nat} (g : Gains n h h') {vs : List Value} {ts : List Tree}
    (hvs : h.AllUnfold vs ts) : h'.AllUnfold vs ts := hvs.imp fun _ _ => g.unfolds

/-- A list unfolds to the trees of its elements. -/
theorem leads_listWithTail {vs : List Value} {ts : List Tree} {d : Tree}
    (hvs : h.AllUnfold vs ts) (hw : h.Unfolds w d) :
    Leads (listWithTail vs w) h
      (fun x h' => h.Gains vs.length h' ∧ h'.Unfolds x (ts.foldr .node d))
      fun e _ => h.Overflows vs.length e := by
  induction hvs with
  | nil => exact ⟨.refl h, hw⟩
  | @cons v t vs ts hv hvs ih =>
    change Leads (List.foldrM cons w (v :: vs)) h _ _
    rw [List.foldrM_cons, leads_bind]
    refine ih.mono ?_ fun e _ he => he.mono (Nat.le_succ _)
    rintro x h' ⟨g, hx⟩
    exact (leads_cons (g.unfolds hv) hx).mono (fun y h'' hy => ⟨g.trans hy.1, hy.2⟩)
      fun e _ he => he.after g

end Heap

end StackLisp
