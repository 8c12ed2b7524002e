import StackLisp.Proofs.Text.Tree

/-!
# Equality is equality of structure

On values without cycles, whatever pairs they share with each other or with themselves,
`Heap.equal` decides whether they unfold to the same tree (`Heap.equal_structural`). So it
is an equivalence, values that are the same are equal, and a value and its copy
(`Heap.copy`) are equal to the same values: what is compared are the trees, and a copy
unfolds to the tree of its original (`Heap.Unfolds.leads_copy`).
-/

namespace StackLisp.Heap

variable {h : Heap} {v w : Value} {t u : Tree}

/-- A value without cycles. -/
def Acyclic (h : Heap) (v : Value) : Prop := ∃ t, h.Unfolds v t

/-- Copies a value, pair by pair, along chains of at most `fuel` pairs. A pair that is met
    again is copied again. -/
def copyFrom : Nat → Value → HeapM Value
  | 0, .pair _ => throw .endless
  | fuel + 1, .pair id => do
    let h ← get
    let head ← copyFrom fuel (h.car id)
    let tail ← copyFrom fuel (h.cdr id)
    cons head tail
  | _, v => pure v

/-- Copies a value, pair by pair. -/
def copy (v : Value) : HeapM Value := do
  copyFrom (← get).pairCount v

/-- An atom is its own copy. -/
theorem copyFrom_atom (fuel : Nat) (atom : v.isAtom = true) : copyFrom fuel v = pure v := by
  cases v with
  | pair => cases atom
  | _ => cases fuel <;> rfl

namespace Unfolds

/-- With as much fuel as the tree is high, copying takes a new pair for every node, or the heap
    overflows. -/
theorem leads_copyFrom {fuel : Nat} (hv : h.Unfolds v t) (hfuel : t.height ≤ fuel) :
    Leads (copyFrom fuel v) h (fun v' h' => h.Gains t.pairs h' ∧ h'.Unfolds v' t)
      fun e _ => h.Overflows t.pairs e := by
  -- The heap is not fixed: the tail of a pair is copied after its head.
  induction t generalizing h v fuel with
  | leaf x =>
    obtain ⟨rfl, atom⟩ := hv.leaf_inv
    rw [copyFrom_atom fuel atom, leads_pure]
    exact ⟨.refl h, .leaf atom⟩
  | node a d ihead itail =>
    rw [Tree.height] at hfuel
    obtain ⟨id, rfl, valid, head, tail⟩ := hv.node_inv
    obtain ⟨fuel, rfl⟩ : ∃ n, fuel = n + 1 := ⟨fuel - 1, by omega⟩
    have hpairs : (Tree.node a d).pairs = a.pairs + (d.pairs + 1) := Nat.add_assoc _ _ _
    rw [copyFrom, leads_bind, leads_get, leads_bind, hpairs]
    refine (ihead head (by omega)).mono ?_ fun e _ he => he.mono (Nat.le_add_right _ _)
    intro x h₁ hx
    obtain ⟨gx, hx⟩ := hx
    rw [leads_bind]
    refine (itail (gx.unfolds tail) (by omega)).mono ?_ fun e _ he =>
      (he.mono (Nat.le_succ _)).after gx
    intro y h₂ hy
    obtain ⟨gy, hy⟩ := hy
    refine (leads_cons (gy.unfolds hx) hy).mono ?_ fun e _ he => (he.after gy).after gx
    intro z h₃ hz
    exact ⟨gx.trans (gy.trans hz.1), hz.2⟩

/-- A copy unfolds to the tree of its original, and everything else is as it was. -/
theorem leads_copy (hv : h.Unfolds v t) :
    Leads (copy v) h (fun v' h' => h.Gains t.pairs h' ∧ h'.Unfolds v' t)
      fun e _ => h.Overflows t.pairs e := by
  rw [copy, leads_bind, leads_get]
  exact hv.leads_copyFrom hv.height_le

/-- Values are equal exactly if they unfold to the same tree. -/
theorem equal_iff (hv : h.Unfolds v t) (hw : h.Unfolds w u) :
    h.equal v w = .ok true ↔ t = u := by
  rw [hv.equal_eq hw, Except.ok.injEq, decide_eq_true_iff]

/-- Values are compared on a heap as their copies are on the heap that the copying makes. -/
theorem equal_gains {n : Nat} {h' : Heap} {v' : Value} (hv : h.Unfolds v t) (hw : h.Unfolds w u)
    (g : h.Gains n h') (hv' : h'.Unfolds v' t) :
    h'.equal v' w = h.equal v w ∧ h'.equal w v' = h.equal w v := by
  constructor
  · rw [hv'.equal_eq (g.unfolds hw), hv.equal_eq hw]
  · rw [(g.unfolds hw).equal_eq hv', hw.equal_eq hv]

end Unfolds

/-- On values without cycles, being equal is an equivalence. -/
theorem equal_equivalence (h : Heap) :
    Equivalence fun v w : {v // h.Acyclic v} => h.equal v.1 w.1 = .ok true where
  refl v := by
    obtain ⟨t, ht⟩ := v.2
    exact ht.equal ht
  symm {v w} hvw := by
    obtain ⟨t, ht⟩ := v.2
    obtain ⟨u, hu⟩ := w.2
    have heq := (ht.equal_iff hu).1 hvw
    exact (hu.equal_iff ht).2 heq.symm
  trans {v w x} hvw hwx := by
    obtain ⟨t, ht⟩ := v.2
    obtain ⟨u, hu⟩ := w.2
    obtain ⟨r, hr⟩ := x.2
    have heq := (ht.equal_iff hu).1 hvw
    have heq' := (hu.equal_iff hr).1 hwx
    exact (ht.equal_iff hr).2 (heq.trans heq')

/-- Values without cycles are equal just when they unfold to the same tree. This is an
    equivalence, and it holds between values that are the same. A copy of a value, if there
    is room for one, is equal to what the value was equal to. -/
theorem equal_structural (h : Heap) :
    (∀ v w t u, h.Unfolds v t → h.Unfolds w u → h.equal v w = .ok (decide (t = u))) ∧
      (Equivalence fun v w : {v // h.Acyclic v} => h.equal v.1 w.1 = .ok true) ∧
      (∀ v w, h.Acyclic v → v = w → h.equal v w = .ok true) ∧
      ∀ v w t, h.Unfolds v t → h.Acyclic w →
        Leads (copy v) h
          (fun v' h' => h'.equal v' w = h.equal v w ∧ h'.equal w v' = h.equal w v)
          fun e _ => h.Overflows t.pairs e := by
  refine ⟨fun v w t u hv hw => hv.equal_eq hw, equal_equivalence h, ?_, ?_⟩
  · rintro v _ ⟨t, ht⟩ rfl
    exact ht.equal ht
  · rintro v w t hv ⟨u, hw⟩
    refine hv.leads_copy.mono ?_ fun _ _ he => he
    intro v' h' hv'
    exact hv.equal_gains hw hv'.1 hv'.2

/-- `((1) 1)` twice: with one pair for both of its lists of `1`, and with two. There is room
    for three more pairs. -/
def sharing : Heap where
  cars := #[.int 1, .pair ⟨0⟩, .int 1, .pair ⟨0⟩]
  cdrs := #[.nil, .pair ⟨0⟩, .nil, .pair ⟨2⟩]
  capacity := 7

/-- Both lists unfold to `((1) 1)`. -/
theorem unfolds_sharing : ∀ id ∈ [(⟨1⟩ : PairId), ⟨3⟩], sharing.Unfolds (.pair id)
    (.node (.node (.leaf (.int 1)) (.leaf .nil)) (.node (.leaf (.int 1)) (.leaf .nil))) := by
  have hlist : ∀ id ∈ [(⟨0⟩ : PairId), ⟨2⟩],
      sharing.Unfolds (.pair id) (.node (.leaf (.int 1)) (.leaf .nil)) := by
    rintro id hid
    simp only [List.mem_cons, List.not_mem_nil, or_false] at hid
    rcases hid with rfl | rfl <;> exact .node (by decide) (.leaf rfl) (.leaf rfl)
  intro id hid
  simp only [List.mem_cons, List.not_mem_nil, or_false] at hid
  rcases hid with rfl | rfl
  · exact .node (by decide) (hlist ⟨0⟩ (by simp)) (hlist ⟨0⟩ (by simp))
  · exact .node (by decide) (hlist ⟨0⟩ (by simp)) (hlist ⟨2⟩ (by simp))

/-- Sharing makes no difference, and a copy that there is room for is equal to the value. -/
theorem equal_structural_sharing :
    sharing.equal (.pair ⟨1⟩) (.pair ⟨3⟩) = .ok true ∧
      sharing.equal (.pair ⟨3⟩) (.pair ⟨1⟩) = .ok true ∧
      sharing.equal (.pair ⟨1⟩) (.pair ⟨1⟩) = .ok true ∧
      Leads (copy (.pair ⟨1⟩)) sharing (fun v' h' => h'.equal v' (.pair ⟨3⟩) = .ok true)
        fun _ _ => False := by
  have hone := unfolds_sharing ⟨1⟩ (by simp)
  have hthree := unfolds_sharing ⟨3⟩ (by simp)
  obtain ⟨hequal, hequivalence, heq, hcopy⟩ := equal_structural sharing
  -- Pair 1 shares its parts and pair 3 does not, but they unfold to the same tree.
  have honethree : sharing.equal (.pair ⟨1⟩) (.pair ⟨3⟩) = .ok true := by
    rw [hequal _ _ _ _ hone hthree]
    rfl
  refine ⟨honethree, ?_, heq _ _ ⟨_, hone⟩ rfl, ?_⟩
  · exact hequivalence.symm (x := ⟨.pair ⟨1⟩, _, hone⟩) (y := ⟨.pair ⟨3⟩, _, hthree⟩) honethree
  · refine (hcopy _ _ _ hone ⟨_, hthree⟩).mono ?_ ?_
    · intro v' h' hv'
      rw [hv'.1, honethree]
    · intro e h' he
      exact he.2 (.inr (by decide))

end StackLisp.Heap
