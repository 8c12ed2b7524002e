import Mathlib.Data.Finset.Card
import Mathlib.Data.List.Chain
import Mathlib.Logic.Relation
import StackLisp.Proofs.Actions.Allocation

/-!
# Loops

What goes on from place to place, of which there are finitely many, either comes to its
end or *loops* (`Loops`): it comes to something that it comes back to.

The walks down the tails of a value go from pair to pair. A pair whose tail is a pair is
one of the heap, so on any heap at all such a walk ends unless the tails of the value go
in circles (`Heap.spine_circular_iff`). The walks of the compiler and the search in a
table do not end only if the heap is *twisted* (`Heap.Twisted`): some list of it goes
in circles. A heap stays so when pairs are added to it and heads are replaced.

An action fails in an *ordinary* way (`Failure.OrdinaryIn`) if it does not end on a
twisted heap only.
-/

namespace StackLisp

open Compiler

/-! ## Loops -/

section

variable {α : Type} {R : α → α → Prop} {a b : α}

/-- From `a` on, something is come to that is come back to. -/
def Loops (R : α → α → Prop) (a : α) : Prop :=
  ∃ b, Relation.ReflTransGen R a b ∧ Relation.TransGen R b b

/-- What loops goes on to something that loops. -/
theorem loops_iff : Loops R a ↔ ∃ b, R a b ∧ Loops R b := by
  constructor
  · rintro ⟨c, hac, hcc⟩
    rcases Relation.ReflTransGen.cases_head hac with rfl | ⟨b, hab, hbc⟩
    · obtain ⟨b, hab, hba⟩ := Relation.TransGen.head'_iff.1 hcc
      exact ⟨b, hab, b, .refl, Relation.TransGen.tail' hba hab⟩
    · exact ⟨b, hab, c, hbc, hcc⟩
  · rintro ⟨b, hab, c, hbc, hcc⟩
    exact ⟨c, hbc.head hab, hcc⟩

/-- What leads into a cycle loops. -/
theorem Loops.head (hab : R a b) (hb : Loops R b) : Loops R a := loops_iff.2 ⟨b, hab, hb⟩

/-- Where one relation leads to no more than another one, it loops only if that one does. -/
theorem Loops.mono {R' : α → α → Prop} {P : α → Prop} (hR : ∀ a b, P a → R a b → P b ∧ R' a b)
    (ha : P a) (hloops : Loops R a) : Loops R' a := by
  obtain ⟨b, hab, hbb⟩ := hloops
  have hreach {c : α} (hac : Relation.ReflTransGen R a c) : P c ∧ Relation.ReflTransGen R' a c := by
    induction hac with
    | refl => exact ⟨ha, .refl⟩
    | tail _ hcd ih => exact ⟨(hR _ _ ih.1 hcd).1, ih.2.tail (hR _ _ ih.1 hcd).2⟩
  have hreturn {c : α} (hbc : Relation.TransGen R b c) : P c ∧ Relation.TransGen R' b c := by
    induction hbc with
    | single hbc => exact ⟨(hR _ _ (hreach hab).1 hbc).1, .single (hR _ _ (hreach hab).1 hbc).2⟩
    | tail _ hcd ih => exact ⟨(hR _ _ ih.1 hcd).1, ih.2.tail (hR _ _ ih.1 hcd).2⟩
  exact ⟨b, (hreach hab).2, (hreturn hbb).2⟩

/-- A chain that is longer than the set it stays in meets something twice. -/
theorem loops_of_chain [DecidableEq α] {l : List α} :
    ∀ {a : α} {S : Finset α}, (a :: l).IsChain R → (∀ b ∈ a :: l, b ∈ S) → S.card ≤ l.length →
      Loops R a := by
  induction l with
  | nil =>
    intro a S _ hS hcard
    rw [List.length_nil, Nat.le_zero, Finset.card_eq_zero] at hcard
    exact absurd (hS a List.mem_cons_self) (hcard ▸ Finset.notMem_empty a)
  | cons b l ih =>
    intro a S hchain hS hcard
    -- Either the first place comes again, and the chain has gone round, or the rest of the chain
    -- avoids it and has one place less to be in.
    by_cases hmem : a ∈ b :: l
    · have hlater := (hchain.imp fun _ _ => Relation.TransGen.single).pairwise
      exact ⟨a, .refl, (List.pairwise_cons.1 hlater).1 a hmem⟩
    · obtain ⟨hab, hchain⟩ := List.isChain_cons_cons.1 hchain
      refine .head hab (ih (S := S.erase a) hchain (fun c hc => ?_) ?_)
      · refine Finset.mem_erase.2 ⟨?_, hS c (List.mem_cons_of_mem a hc)⟩
        rintro rfl
        exact hmem hc
      · rw [Finset.card_erase_of_mem (hS a List.mem_cons_self)]
        rw [List.length_cons] at hcard
        omega

/-- From `a` on, there are at most `n` steps one after the other. -/
def Bounded (R : α → α → Prop) (n : Nat) (a : α) : Prop := ∀ l : List α, (a :: l).IsChain R → l.length ≤ n

/-- Without a loop, there are no more steps than there are places to step from. -/
theorem bounded_of_not_loops [DecidableEq α] {S : Finset α} {n : Nat} (hS : ∀ a b, R a b → a ∈ S) (hn : S.card ≤ n)
    (ha : ¬Loops R a) : Bounded R n a := by
  intro l hl
  -- A chain longer than there are places to step from goes through one of them twice.
  by_contra hlong
  have hcut : (a :: l.dropLast).IsChain R := hl.prefix (List.prefix_cons_inj a |>.2 (List.dropLast_prefix l))
  refine ha (loops_of_chain (S := S) hcut (fun b hb => ?_) ?_)
  · -- Every place but the last one is stepped from.
    have hnonempty : l ≠ [] := by
      rintro rfl
      exact hlong (Nat.zero_le _)
    rw [← List.dropLast_cons_of_ne_nil hnonempty] at hb
    obtain ⟨i, hi, rfl⟩ := List.getElem_of_mem hb
    rw [List.length_dropLast] at hi
    have hstep := List.isChain_iff_getElem.1 hl i (by omega)
    rw [List.getElem_dropLast]
    exact hS _ _ hstep
  · rw [List.length_dropLast]
    omega

/-- One step further the bound is one less. -/
theorem Bounded.next {n : Nat} (ha : Bounded R n a) (hab : R a b) : ∃ m, n = m + 1 ∧ Bounded R m b := by
  have hone : 1 ≤ n := ha [b] (.cons_cons hab (.singleton b))
  refine ⟨n - 1, by omega, fun l hl => ?_⟩
  have hlength := ha (b :: l) (.cons_cons hab hl)
  rw [List.length_cons] at hlength
  omega

end

namespace Heap

variable {h h' : Heap} {D : PairId → Prop} {v : Value}

/-! ## Down the tails -/

/-- The tail of a pair is another one. -/
def Next (h : Heap) (id other : PairId) : Prop := h.cdr id = .pair other

/-- The tails of a value go in circles. -/
def Circular (h : Heap) (v : Value) : Prop := ∃ id, v = .pair id ∧ Loops h.Next id

/-- The pairs of the heap. -/
def pairs (h : Heap) : Finset PairId := (Finset.range h.pairCount).image PairId.mk

theorem card_pairs_le (h : Heap) : h.pairs.card ≤ h.pairCount :=
  Finset.card_image_le.trans (Finset.card_range _).le

/-- The pairs of a heap are those that have been allocated. -/
theorem mem_pairs_iff {id : PairId} : id ∈ h.pairs ↔ id.index < h.pairCount := by
  refine ⟨fun hid => ?_, fun hid => Finset.mem_image.2 ⟨id.index, Finset.mem_range.2 hid, rfl⟩⟩
  obtain ⟨i, hi, rfl⟩ := Finset.mem_image.1 hid
  exact Finset.mem_range.1 hi

/-- Only the pairs of the heap have tails that are pairs. -/
theorem Next.valid {id other : PairId} (hnext : h.Next id other) : id.index < h.pairCount := by
  by_contra hid
  rw [pairCount, ← h.size_cdrs] at hid
  have hnil : h.cdr id = .nil := by simp [Heap.cdr, Array.getElem?_eq_none (Nat.not_lt.1 hid)]
  rw [Next, hnil] at hnext
  cases hnext

/-- A chain of pairs that is longer than there are pairs in the heap loops. -/
theorem loops_of_long {R : PairId → PairId → Prop} (hR : ∀ x y, R x y → x.index < h.pairCount)
    {id : PairId} {l : List PairId} (hchain : (id :: l).IsChain R) (hlong : h.pairCount < l.length) :
    Loops R id := by
  by_contra hloops
  exact absurd (bounded_of_not_loops (fun x y hxy => mem_pairs_iff.2 (hR x y hxy)) h.card_pairs_le hloops l hchain)
    (Nat.not_le.2 hlong)

/-- A walk that is out of fuel has gone on from as many pairs. -/
theorem chain_of_circular {seen : List Value} {fuel : Nat}
    (hspine : (h.spineFrom seen fuel v).ending = .circular) :
    ∃ id l, v = .pair id ∧ (id :: l).IsChain h.Next ∧ l.length = fuel := by
  fun_induction spineFrom h seen fuel v with
  | case1 => cases hspine
  | case2 seen id => exact ⟨id, [], rfl, .singleton id, rfl⟩
  | case3 seen fuel id ih =>
    obtain ⟨next, l, hnext, hchain, hlength⟩ := ih hspine
    exact ⟨id, next :: l, rfl, .cons_cons hnext hchain, by rw [List.length_cons, hlength]⟩
  | case4 => cases hspine

/-- From a pair that loops, the spine ends circularly: it never comes to an atom. -/
theorem spineFrom_of_loops {id : PairId} (hid : Loops h.Next id) :
    ∀ (seen : List Value) (fuel : Nat), (h.spineFrom seen fuel (.pair id)).ending = .circular := by
  intro seen fuel
  induction fuel generalizing seen id with
  | zero => rw [spineFrom]
  | succ fuel ih =>
    obtain ⟨next, hnext, hloops⟩ := loops_iff.1 hid
    rw [spineFrom, show h.cdr id = .pair next from hnext]
    exact ih hloops _

/-- The walk down the tails of a value does not end just when they go in circles. -/
theorem spine_circular_iff : (h.spine v).ending = .circular ↔ h.Circular v := by
  constructor
  · intro hspine
    obtain ⟨id, l, rfl, hchain, hlength⟩ := chain_of_circular hspine
    exact ⟨id, rfl, loops_of_long (fun _ _ => Next.valid) hchain (by omega)⟩
  · rintro ⟨id, rfl, hid⟩
    exact spineFrom_of_loops hid [] _

/-- Taking the elements of a list does not end just if it is circular. -/
theorem elements?_endless : h.elements? v = .error .endless ↔ (h.spine v).ending = .circular := by
  unfold elements?
  split <;> simp [*]

theorem isProperList_endless : h.isProperList v = .error .endless ↔ h.elements? v = .error .endless := by
  unfold isProperList
  cases h.elements? v <;> simp [bind, Except.bind, pure, Except.pure]

theorem length?_endless : h.length? v = .error .endless ↔ h.elements? v = .error .endless := by
  unfold length?
  cases h.elements? v <;> simp [bind, Except.bind, pure, Except.pure]

/-! ## Closed parts -/

/-- Whether a value, if it is a pair, is one of `D`. -/
def Within (D : PairId → Prop) (v : Value) : Prop := ∀ id, v = .pair id → D id

/-- Pairs of the heap whose components are among them. -/
structure ClosedUnder (h : Heap) (D : PairId → Prop) : Prop where
  valid : ∀ id, D id → id.index < h.pairCount
  car : ∀ id, D id → Within D (h.car id)
  cdr : ∀ id, D id → Within D (h.cdr id)

/-- New pairs change nothing for those that are closed. -/
theorem ClosedUnder.extended (hD : h.ClosedUnder D) (he : h.Extended h') : h'.ClosedUnder D where
  valid id hid := (hD.valid id hid).trans_le he.pairCount
  car id hid := he.car id (hD.valid id hid) ▸ hD.car id hid
  cdr id hid := he.cdr id (hD.valid id hid) ▸ hD.cdr id hid

/-- Such pairs are pairs of the heap. -/
theorem ClosedUnder.mem_pairs (hD : h.ClosedUnder D) {id : PairId} (hid : D id) : id ∈ h.pairs :=
  mem_pairs_iff.2 (hD.valid id hid)

/-- A walk has gone along a pair for every head that it has met. -/
theorem ClosedUnder.chain_of_spineFrom (hD : h.ClosedUnder D) {seen : List Value} {fuel n : Nat}
    (hv : Within D v) (hlength : (h.spineFrom seen fuel v).items.length = seen.length + (n + 1)) :
    ∃ id l, v = .pair id ∧ (id :: l).IsChain h.Next ∧ (∀ x ∈ id :: l, D x) ∧ l.length = n := by
  fun_induction spineFrom h seen fuel v generalizing n with
  | case3 seen fuel id ih =>
    cases n with
    | zero => exact ⟨id, [], rfl, .singleton id, by simpa using hv id rfl, rfl⟩
    | succ n =>
      rw [List.length_cons] at ih
      obtain ⟨next, l, hnext, hchain, hl, hlength⟩ := ih (n := n) (hD.cdr id (hv id rfl)) (by omega)
      refine ⟨id, next :: l, rfl, .cons_cons hnext hchain, ?_, by rw [List.length_cons, hlength]⟩
      exact List.forall_mem_cons.2 ⟨hv id rfl, hl⟩
  | _ =>
    rw [List.length_reverse] at hlength
    omega

/-- A list that ends is not longer than the heap. -/
theorem ClosedUnder.length_spine (hD : h.ClosedUnder D) (hv : Within D v)
    (hends : (h.spine v).ending ≠ .circular) : (h.spine v).items.length ≤ h.pairCount := by
  by_contra hlong
  obtain ⟨id, l, rfl, hchain, hl, hlength⟩ := hD.chain_of_spineFrom (n := (h.spine v).items.length - 1) hv
    (show (h.spine v).items.length = _ by rw [List.length_nil]; omega)
  refine hends (spine_circular_iff.2 ⟨id, rfl, loops_of_chain hchain (fun x hx => hD.mem_pairs (hl x hx)) ?_⟩)
  exact h.card_pairs_le.trans (by omega)

/-! ## Twisted heaps -/

/-- Some list of the heap goes in circles. -/
def Twisted (h : Heap) : Prop := ∃ id, Relation.TransGen h.Next id id

/-- A circular list makes the heap twisted. -/
theorem Circular.twisted (hv : h.Circular v) : h.Twisted := by
  obtain ⟨-, -, id, -, hid⟩ := hv
  exact ⟨id, hid⟩

/-- A heap stays twisted as long as the pairs of it keep their tails. -/
theorem Twisted.mono (hh : h.Twisted) (hcdr : ∀ id : PairId, id.index < h.pairCount → h'.cdr id = h.cdr id) :
    h'.Twisted := by
  obtain ⟨id, hid⟩ := hh
  exact ⟨id, Relation.TransGen.mono (fun x y hxy => (hcdr x (Next.valid hxy)).trans hxy) id id hid⟩

/-- A heap stays twisted while it is extended. -/
theorem Twisted.extended (hh : h.Twisted) (he : h.Extended h') : h'.Twisted := hh.mono he.cdr

/-- A chain of tails, some of them taken at once, that is longer than there are pairs. -/
theorem twisted_of_long {R : PairId → PairId → Prop} (hR : ∀ x y, R x y → Relation.TransGen h.Next x y)
    {id : PairId} {l : List PairId} (hchain : (id :: l).IsChain R) (hlong : h.pairCount < l.length) :
    h.Twisted := by
  have hvalid (x y : PairId) (hxy : R x y) : x.index < h.pairCount := by
    obtain ⟨_, hnext, -⟩ := Relation.TransGen.head'_iff.1 (hR x y hxy)
    exact hnext.valid
  obtain ⟨other, -, hother⟩ := loops_of_long hvalid hchain hlong
  exact ⟨other, Relation.TransGen.closed hR other other hother⟩

/-- A search that runs out of fuel has followed a chain of as many links. -/
theorem chain_of_lookupFrom {key : Value} {fuel : Nat} (he : h.lookupFrom key fuel v = .error .endless) :
    ∃ id l, v = .pair id ∧ (id :: l).IsChain h.Next ∧ l.length = fuel := by
  fun_induction lookupFrom h key fuel v with
  | case1 id => exact ⟨id, [], rfl, .singleton id, rfl⟩
  | case3 fuel id _ _ _ ih | case4 fuel id _ ih =>
    obtain ⟨next, l, hnext, hchain, hlength⟩ := ih he
    exact ⟨id, next :: l, rfl, .cons_cons hnext hchain, by rw [List.length_cons, hlength]⟩
  | _ => cases he

end Heap

/-- Past the end of a block, code goes on two pairs further. -/
theorem chain_of_tailFrom {h : Heap} {v : Value} {crossed fuel : Nat}
    (he : tailFrom h crossed fuel v = .error .endless) :
    ∃ id l, v = .pair id ∧
      (id :: l).IsChain (fun x y => ∃ operand, h.Next x operand ∧ h.Next operand y) ∧ l.length = fuel := by
  fun_induction tailFrom h crossed fuel v with
  | case1 _ id => exact ⟨id, [], rfl, .singleton id, rfl⟩
  | case2 _ fuel id _ operand hnext ih =>
    obtain ⟨next, l, hnext', hchain, hlength⟩ := ih he
    exact ⟨id, next :: l, rfl, .cons_cons ⟨operand, hnext, hnext'⟩ hchain, by rw [List.length_cons, hlength]⟩
  | _ => cases he

/-! ## Ordinary failures -/

/-- The failures that neither depend on what is around a form nor on how many steps are left. Where
    something does not end, a list of the heap goes in circles. -/
def Failure.OrdinaryIn (h : Heap) : Failure → Prop
  | .error e => e.Ordinary
  | .endless => h.Twisted

section

variable {h h' : Heap} {e : Failure} {v : Value}

theorem Failure.OrdinaryIn.ordinary (he : e.OrdinaryIn h) : e.Ordinary := by
  cases e with
  | error e => exact he
  | endless => trivial

/-- New pairs straighten no list. -/
theorem Failure.OrdinaryIn.extended (he : e.OrdinaryIn h) (hext : h.Extended h') : e.OrdinaryIn h' := by
  cases e with
  | error e => exact he
  | endless => exact Heap.Twisted.extended he hext

/-- Going along a list fails on a twisted heap only. -/
theorem Heap.elements?_ordinary (he : h.elements? v = .error e) : e.OrdinaryIn h := by
  obtain rfl := elements?_error he
  exact (spine_circular_iff.1 (elements?_endless.1 he)).twisted

theorem Heap.isProperList_ordinary (he : h.isProperList v = .error e) : e.OrdinaryIn h := by
  obtain rfl := isProperList_error he
  exact elements?_ordinary (isProperList_endless.1 he)

theorem Heap.lookup_ordinary {key : Value} (he : h.lookup key v = .error e) : e.OrdinaryIn h := by
  obtain rfl := lookup_error he
  obtain ⟨id, l, -, hchain, hlength⟩ := chain_of_lookupFrom he
  exact twisted_of_long (fun _ _ => .single) hchain (by omega)

/-- With more fuel than there are pairs, the search for the end of a continuation fails on a twisted
    heap only. -/
theorem tailFrom_ordinary {crossed : Nat} (he : tailFrom h crossed (h.pairCount + 1) v = .error e) :
    e.OrdinaryIn h := by
  obtain rfl := tailFrom_error he
  obtain ⟨id, l, -, hchain, hlength⟩ := chain_of_tailFrom he
  refine Heap.twisted_of_long ?_ hchain (by omega)
  rintro x y ⟨operand, hx, hy⟩
  exact .head hx (.single hy)

end

end StackLisp
