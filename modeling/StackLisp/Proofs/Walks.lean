import Mathlib.Data.Finset.Prod
import StackLisp.Proofs.Definition
import StackLisp.Proofs.Safety.Memory

/-!
# Walks along the heap

A walk down the tails of a value, and a comparison of two values, go from pair to pair.
There are finitely many pairs, so one of these either comes to its end or *loops*
(`Loops`): it comes to something that it comes back to. For the tails of a value, this
means that they go in circles (`Heap.spine_circular_iff`).

* `Heap.equal_endless_iff`: a comparison does not end just when it comes to comparing
  two pairs for which the same two have to be compared (`Heap.Recurring`);
* `Heap.Circular.knotted`, `Heap.Recurring.knotted`: both need a pair that contains
  itself.

This is true of any part of a heap that is closed under taking components
(`Heap.ClosedUnder`), such as all the pairs of a heap made by consing and by replacing
components (`Heap.Reached.closed`).
-/

namespace StackLisp

namespace Heap

variable {h : Heap} {D : PairId → Prop} {v w : Value}

/-! ## Pairs that contain themselves -/

/-- A pair is a component of another one. -/
def Part (h : Heap) (id other : PairId) : Prop := h.car id = .pair other ∨ h.cdr id = .pair other

/-- Some pair contains itself. -/
def Knotted (h : Heap) : Prop := ∃ id, Relation.TransGen h.Part id id

/-- The tails of a pair are components of it. -/
theorem Circular.knotted (hv : h.Circular v) : h.Knotted := by
  obtain ⟨-, -, id, -, hid⟩ := hv
  exact ⟨id, hid.lift (fun id => id) fun _ _ => .inr⟩

/-- Pairs made later make no older list circular. -/
theorem Circular.of_extended {h' : Heap} (hD : h.ClosedUnder D) (he : h.Extended h') (hv : Within D v)
    (hcircular : h'.Circular v) : h.Circular v := by
  obtain ⟨id, rfl, hid⟩ := hcircular
  refine ⟨id, rfl, hid.mono (P := D) (fun x y hx hxy => ?_) (hv id rfl)⟩
  have hnext : h.Next x y := (he.cdr x (hD.valid x hx)).symm.trans hxy
  exact ⟨hD.cdr x hx y hnext, hnext⟩

/-! ## Comparisons -/

/-- The values have the same structure, pairs that are the same ones taken as they are. -/
inductive Same (h : Heap) : Value → Value → Prop
  | refl (v : Value) : Same h v v
  | pairs {x y : PairId} (heads : Same h (h.car x) (h.car y)) (tails : Same h (h.cdr x) (h.cdr y)) :
      Same h (.pair x) (.pair y)

/-- To compare the first two pairs one has to compare the second two: the heads of different
    pairs, and their tails if the heads are the same. -/
inductive Compares (h : Heap) : PairId × PairId → PairId × PairId → Prop
  | heads {x y x' y' : PairId} (ne : x ≠ y) (left : h.car x = .pair x') (right : h.car y = .pair y') :
      Compares h (x, y) (x', y')
  | tails {x y x' y' : PairId} (ne : x ≠ y) (heads : h.Same (h.car x) (h.car y))
      (left : h.cdr x = .pair x') (right : h.cdr y = .pair y') : Compares h (x, y) (x', y')

/-- Comparing the values comes to two pairs whose comparison needs itself. -/
def Recurring (h : Heap) (v w : Value) : Prop :=
  ∃ x y, v = .pair x ∧ w = .pair y ∧ Loops h.Compares (x, y)

/-- In either case both pairs go on to their components. -/
theorem Compares.part {p q : PairId × PairId} (hpq : h.Compares p q) :
    h.Part p.1 q.1 ∧ h.Part p.2 q.2 := by
  cases hpq with
  | heads _ left right => exact ⟨.inl left, .inl right⟩
  | tails _ _ left right => exact ⟨.inr left, .inr right⟩

/-- Where a comparison comes back to two pairs, each of them contains itself. -/
theorem Recurring.knotted (hvw : h.Recurring v w) : h.Knotted := by
  obtain ⟨-, -, -, -, p, -, hp⟩ := hvw
  exact ⟨p.1, hp.lift Prod.fst fun _ _ hpq => hpq.part.1⟩

/-- What is found to be equal has the same structure. -/
theorem same_of_equalFrom {fuel : Nat} (heq : h.equalFrom fuel v w = .ok true) : h.Same v w := by
  fun_induction equalFrom h fuel v w with
  | case1 x | case3 _ x => exact .refl _
  | case2 => cases heq
  | case4 _ _ _ _ hheads iheads itails => exact .pairs (iheads hheads) (itails heq)
  | case5 _ _ _ _ hheads ih => exact absurd heq hheads
  | case6 => simp at heq; exact heq ▸ .refl _

/-- What has the same structure is never found to differ. -/
theorem Same.equalFrom_ne (hvw : h.Same v w) : ∀ fuel, h.equalFrom fuel v w ≠ .ok false := by
  induction hvw with
  | refl v =>
    intro fuel
    fun_cases equalFrom h fuel v v <;> simp_all
  | @pairs x y heads tails iheads itails =>
    intro fuel
    cases fuel with
    | zero =>
      rw [equalFrom]
      split <;> simp
    | succ fuel =>
      rw [equalFrom]
      split
      · simp
      · split
        · exact itails fuel
        · exact iheads fuel

/-- A comparison that is out of fuel has gone through as many pairs of pairs. -/
theorem ClosedUnder.chain_of_endless (hD : h.ClosedUnder D) {fuel : Nat} (hv : Within D v) (hw : Within D w)
    (heq : h.equalFrom fuel v w = .error .endless) :
    ∃ x y l, v = .pair x ∧ w = .pair y ∧ ((x, y) :: l).IsChain h.Compares ∧
      (∀ p ∈ (x, y) :: l, D p.1 ∧ D p.2) ∧ l.length = fuel := by
  fun_induction equalFrom h fuel v w with
  | case1 => cases heq
  | case2 x y => exact ⟨x, y, [], rfl, rfl, .singleton _, by simpa using ⟨hv x rfl, hw y rfl⟩, rfl⟩
  | case3 => cases heq
  | case4 fuel x y hne hheads _ ih =>
    obtain ⟨x', y', l, hx, hy, hchain, hl, hlength⟩ := ih (hD.cdr x (hv x rfl)) (hD.cdr y (hw y rfl)) heq
    refine ⟨x, y, (x', y') :: l, rfl, rfl, .cons_cons (.tails hne (same_of_equalFrom hheads) hx hy) hchain,
      ?_, by rw [List.length_cons, hlength]⟩
    exact List.forall_mem_cons.2 ⟨⟨hv x rfl, hw y rfl⟩, hl⟩
  | case5 fuel x y hne hheads ih =>
    obtain ⟨x', y', l, hx, hy, hchain, hl, hlength⟩ := ih (hD.car x (hv x rfl)) (hD.car y (hw y rfl)) heq
    refine ⟨x, y, (x', y') :: l, rfl, rfl, .cons_cons (.heads hne hx hy) hchain,
      ?_, by rw [List.length_cons, hlength]⟩
    exact List.forall_mem_cons.2 ⟨⟨hv x rfl, hw y rfl⟩, hl⟩
  | case6 => cases heq

/-- So a comparison that ends finds it the same. -/
theorem Same.equalFrom_eq_ok {fuel : Nat} {b : Bool} (hvw : h.Same v w)
    (heq : h.equalFrom fuel v w = .ok b) : b = true := by
  cases b with
  | true => rfl
  | false => exact absurd heq (hvw.equalFrom_ne fuel)

/-- A comparison that needs itself gives no result, with any fuel: each step towards itself takes
    one. -/
theorem equalFrom_of_loops {x y : PairId} (hxy : Loops h.Compares (x, y)) :
    ∀ (fuel : Nat) (b : Bool), h.equalFrom fuel (.pair x) (.pair y) ≠ .ok b := by
  intro fuel
  induction fuel generalizing x y with
  | zero =>
    obtain ⟨_, hnext, -⟩ := loops_iff.1 hxy
    intro b
    rw [equalFrom, if_neg (by cases hnext <;> assumption)]
    exact nofun
  | succ fuel ih =>
    obtain ⟨_, hnext, hloops⟩ := loops_iff.1 hxy
    intro b heq
    cases hnext with
    | heads ne left right =>
      rw [equalFrom, if_neg ne, left, right] at heq
      split at heq
      · next hheads => exact ih hloops true hheads
      · exact ih hloops b heq
    | tails ne heads left right =>
      rw [equalFrom, if_neg ne, left, right] at heq
      split at heq
      · exact ih hloops b heq
      · next hheads => exact hheads (heads.equalFrom_eq_ok heq ▸ heq)

/-- A comparison does not end just when it comes to one that needs itself. -/
theorem ClosedUnder.equal_endless_iff (hD : h.ClosedUnder D) (hv : Within D v) (hw : Within D w) :
    h.equal v w = .error .endless ↔ h.Recurring v w := by
  constructor
  · intro heq
    obtain ⟨x, y, l, rfl, rfl, hchain, hl, hlength⟩ := hD.chain_of_endless hv hw heq
    refine ⟨x, y, rfl, rfl, loops_of_chain (S := h.pairs ×ˢ h.pairs) hchain (fun p hp => ?_) ?_⟩
    · exact Finset.mem_product.2 ⟨hD.mem_pairs (hl p hp).1, hD.mem_pairs (hl p hp).2⟩
    · rw [Finset.card_product, hlength]
      exact Nat.mul_le_mul h.card_pairs_le h.card_pairs_le
  · rintro ⟨x, y, rfl, rfl, hxy⟩
    cases heq : h.equal (.pair x) (.pair y) with
    | ok b => exact absurd heq (equalFrom_of_loops hxy _ b)
    | error e => rw [equal_error heq]

/-! ## Heaps made by consing and replacing -/

/-- Heaps made by consing and by replacing components of pairs. -/
inductive Reached : Heap → Prop
  | empty (capacity : Nat) : Reached (.empty capacity)
  | cons {h h' : Heap} {a d v : Value} (before : Reached h) (car : h.Holds a) (cdr : h.Holds d)
      (made : cons a d h = .ok v h') : Reached h'
  | setCar {h : Heap} {id : PairId} {v : Value} (before : Reached h) (pair : id.index < h.pairCount)
      (value : h.Holds v) : Reached (h.setCar id v)
  | setCdr {h : Heap} {id : PairId} {v : Value} (before : Reached h) (pair : id.index < h.pairCount)
      (value : h.Holds v) : Reached (h.setCdr id v)

/-- Consing gives the pair that it has made. -/
theorem cons_eq_ok {h h' : Heap} {a d v : Value} (made : cons a d h = .ok v h') :
    h.hasRoom = true ∧ v = .pair ⟨h.pairCount⟩ ∧ h' = h.push a d := by
  rw [eq_iff_leads, leads_cons_iff] at made
  split at made
  · next hroom =>
    cases made
    exact ⟨hroom, rfl, rfl⟩
  · cases made

/-- A value that refers to a pair of the heap does so in a larger one. -/
theorem Holds.mono {h' : Heap} (hv : h.Holds v) (hle : h.pairCount ≤ h'.pairCount) : h'.Holds v :=
  fun id hid => (hv id hid).trans_le hle

/-- A new pair is none of the others. -/
theorem car_push_of_ne {id : PairId} (hne : id.index ≠ h.pairCount) (a d : Value) :
    (h.push a d).car id = h.car id := by
  rw [pairCount] at hne
  simp [Heap.car, push, Array.getElem?_push, hne]

theorem cdr_push_of_ne {id : PairId} (hne : id.index ≠ h.pairCount) (a d : Value) :
    (h.push a d).cdr id = h.cdr id := by
  rw [pairCount, ← h.size_cdrs] at hne
  simp [Heap.cdr, push, Array.getElem?_push, hne]

/-- Such a heap holds what its pairs are made of. -/
theorem Reached.closed {h : Heap} (hh : h.Reached) : h.Closed := by
  -- What a pair holds has been there when it was made or changed, and no pair goes away.
  induction hh with
  | empty capacity =>
    constructor
    · intro id
      simp [Heap.car, Heap.empty, Holds]
    · intro id
      simp [Heap.cdr, Heap.empty, Holds]
  | @cons h h' a d v before car cdr made ih =>
    obtain ⟨-, -, rfl⟩ := cons_eq_ok made
    have hle : h.pairCount ≤ (h.push a d).pairCount := by simp
    constructor
    · intro id
      by_cases heq : id.index = h.pairCount
      · obtain rfl : id = ⟨h.pairCount⟩ := congrArg PairId.mk heq
        exact (car_push h a d).symm ▸ Holds.mono car hle
      · exact (car_push_of_ne heq a d).symm ▸ Holds.mono (ih.car id) hle
    · intro id
      by_cases heq : id.index = h.pairCount
      · obtain rfl : id = ⟨h.pairCount⟩ := congrArg PairId.mk heq
        exact (cdr_push h a d).symm ▸ Holds.mono cdr hle
      · exact (cdr_push_of_ne heq a d).symm ▸ Holds.mono (ih.cdr id) hle
  | @setCar h changed v before pair value ih =>
    have hle : h.pairCount ≤ (h.setCar changed v).pairCount := by simp
    refine ⟨fun id => ?_, fun id => Holds.mono (ih.cdr id) hle⟩
    by_cases heq : id = changed
    · subst heq
      exact (car_setCar h id v pair).symm ▸ Holds.mono value hle
    · exact (car_setCar_of_ne heq).symm ▸ Holds.mono (ih.car id) hle
  | @setCdr h changed v before pair value ih =>
    refine ⟨ih.car, fun id => ?_⟩
    by_cases heq : id = changed
    · subst heq
      exact (cdr_setCdr h id v pair).symm ▸ value
    · exact (cdr_setCdr_of_ne heq).symm ▸ ih.cdr id

/-- All the pairs of such a heap are a closed part of it. -/
theorem Closed.closedUnder (hh : h.Closed) : h.ClosedUnder fun id => id.index < h.pairCount :=
  ⟨fun _ => id, fun id _ => hh.car id, fun id _ => hh.cdr id⟩

/-- Which walks from values of a heap end. -/
structure WalksEnd (h : Heap) (v w : Value) : Prop where
  elements : h.elements? v = .error .endless ↔ h.Circular v
  isProperList : h.isProperList v = .error .endless ↔ h.Circular v
  length : h.length? v = .error .endless ↔ h.Circular v
  equal : h.equal v w = .error .endless ↔ h.Recurring v w

/-- All of these go down the tails, apart from the comparison. -/
theorem ClosedUnder.walksEnd (hD : h.ClosedUnder D) (hv : Within D v) (hw : Within D w) : h.WalksEnd v w where
  elements := elements?_endless.trans spine_circular_iff
  isProperList := isProperList_endless.trans (elements?_endless.trans spine_circular_iff)
  length := length?_endless.trans (elements?_endless.trans spine_circular_iff)
  equal := hD.equal_endless_iff hv hw

end Heap

end StackLisp
