import Mathlib
import StackLisp.Proofs.Outcome

/-!
# Exact arithmetic

The primitives that calculate with fixnums take their arguments off the stack and leave the
exact result there, or fail.

* `calculations_exact`: of sums, differences, products, successors, predecessors and absolute
  values, a call fails with a type error if some argument is no integer; if not, with an
  arithmetic error if a result on the way, from left to right, is no fixnum
  (`Calculation.Fits`); and if not, it gives the exact result (`Calculation.value`).
* `mod_floors`: `mod` gives the remainder of the division that is rounded down
  (`IsFloorRemainder`), which has the sign of the divisor. Division by zero is refused, and
  so is the division of the least fixnum by `-1` (`mod_refuses_fixnum`).
-/

namespace StackLisp

open Interpreter Machine

/-! ## Fixnums -/

namespace Fixnum

/-- The integer is a fixnum. -/
def InRange (n : Int) : Prop := -0x8000000000000000 ≤ n ∧ n < 0x8000000000000000

instance (n : Int) : Decidable (InRange n) := inferInstanceAs (Decidable (_ ∧ _))

variable {operation : String} {n : Int}

/-- What a fixnum stands for is in range. -/
theorem inRange_toInt (m : Int64) : InRange m.toInt := by
  have lower := m.le_toInt
  have upper := m.toInt_lt
  unfold InRange
  omega

/-- An exact result in range is given as it is. -/
theorem exact_of_inRange (hn : InRange n) : exact operation n = .ok (Int64.ofInt n) := by
  have hsome : ofInt? n = some (Int64.ofInt n) := if_pos hn
  rw [exact, hsome]

/-- A result out of range is an overflow of the operation. -/
theorem exact_of_not_inRange (hn : ¬InRange n) :
    exact operation n = .error (.arithmetic (.overflow operation)) := by
  have hnone : ofInt? n = none := if_neg hn
  rw [exact, hnone]

/-- In range, nothing is lost on the way to a fixnum and back. -/
theorem toInt_ofInt (hn : InRange n) : (Int64.ofInt n).toInt = n :=
  Int64.toInt_ofInt_of_le hn.1 hn.2

/-! ### From left to right -/

section

variable (operation : String) (f : Int → Int → Int)

/-- An operation on the result so far and the next number, if every result is in range. -/
theorem foldlM_of_inRange : ∀ (ns : List Int64) (acc : Int64),
    (∀ before, before <+: ns.map Int64.toInt → InRange (before.foldl f acc.toInt)) →
      ∃ m : Int64, m.toInt = (ns.map Int64.toInt).foldl f acc.toInt ∧
        ns.foldlM (fun acc n => exact operation (f acc.toInt n.toInt)) acc = .ok m
  | [], acc, _ => ⟨acc, rfl, rfl⟩
  | n :: ns, acc, hfits => by
    have hnext : InRange (f acc.toInt n.toInt) := hfits [n.toInt] ⟨ns.map Int64.toInt, rfl⟩
    have hrest : ∀ before, before <+: ns.map Int64.toInt →
        InRange (before.foldl f (Int64.ofInt (f acc.toInt n.toInt)).toInt) := fun before hb => by
      rw [toInt_ofInt hnext]
      exact hfits (n.toInt :: before) (List.cons_prefix_cons.2 ⟨rfl, hb⟩)
    obtain ⟨m, hm, heq⟩ := foldlM_of_inRange ns _ hrest
    refine ⟨m, ?_, ?_⟩
    · rw [hm, toInt_ofInt hnext, List.map_cons, List.foldl_cons]
    · rw [List.foldlM_cons, exact_of_inRange hnext]
      exact heq

/-- The first result that is out of range ends the calculation. -/
theorem foldlM_of_not_inRange : ∀ (ns : List Int64) (acc : Int64),
    (¬∀ before, before <+: ns.map Int64.toInt → InRange (before.foldl f acc.toInt)) →
      ns.foldlM (fun acc n => exact operation (f acc.toInt n.toInt)) acc =
        .error (.arithmetic (.overflow operation))
  | [], acc, hfits => by
    refine absurd (fun before hb => ?_) hfits
    rw [List.map_nil, List.prefix_nil] at hb
    rw [hb]
    exact inRange_toInt acc
  | n :: ns, acc, hfits => by
    rw [List.foldlM_cons]
    -- Either the next step leaves the range, and the fold stops there, or some later prefix does.
    by_cases hnext : InRange (f acc.toInt n.toInt)
    · rw [exact_of_inRange hnext]
      refine foldlM_of_not_inRange ns _ fun hrest => ?_
      refine hfits fun before hb => ?_
      rw [List.map_cons, List.prefix_cons_iff] at hb
      rcases hb with rfl | ⟨before, rfl, hb⟩
      · exact inRange_toInt acc
      · rw [List.foldl_cons, ← toInt_ofInt hnext]
        exact hrest before hb
    · rw [exact_of_not_inRange hnext]
      rfl

end

/-- Adding from left to right gives the sum. -/
theorem foldl_add : ∀ (n : Int) (ns : List Int), ns.foldl (· + ·) n = n + ns.sum
  | n, [] => by simp
  | n, m :: ns => by rw [List.foldl_cons, foldl_add, List.sum_cons, Int.add_assoc]

/-- Subtracting from left to right takes off the sum. -/
theorem foldl_sub : ∀ (n : Int) (ns : List Int), ns.foldl (· - ·) n = n - ns.sum
  | n, [] => by simp
  | n, m :: ns => by rw [List.foldl_cons, foldl_sub, List.sum_cons, Int.sub_sub]

/-- Multiplying from left to right gives the product. -/
theorem foldl_mul : ∀ (n : Int) (ns : List Int), ns.foldl (· * ·) n = n * ns.prod
  | n, [] => by simp
  | n, m :: ns => by rw [List.foldl_cons, foldl_mul, List.prod_cons, Int.mul_assoc]

end Fixnum

theorem Arity.accepts_exactly {n k : Nat} : (Arity.exactly n).accepts k = true ↔ k = n := by
  change (decide (n ≤ k) && decide (k ≤ n)) = true ↔ k = n
  rw [Bool.and_eq_true, decide_eq_true_eq, decide_eq_true_eq, Nat.le_antisymm_iff, and_comm]

/-! ## Calls -/

/-- The interpreter with some more values on the stack. -/
def Interpreter.holding (s : Interpreter) (vs : List Value) : Interpreter :=
  { s with machine.stack := s.machine.stack.pushMany vs }

/-- The call of a primitive on some arguments. -/
def Interpreter.callOn (s : Interpreter) (id : PrimitiveId) (args : List Value) :
    EStateM.Result Failure Interpreter Flow :=
  callPrimitive id args.length (s.holding args)

/-- The primitive is registered as it is defined. -/
def Interpreter.Provides (s : Interpreter) (id : PrimitiveId) (d : PrimitiveDefinition) : Prop :=
  ∃ name, s.image.primitives.get id = { d with name }

section

variable {s : Interpreter} {id : PrimitiveId} {d : PrimitiveDefinition} {b : Builtin} {operation : String}
  {v : Value} {ns : List Int64} {args : List Value}

/-- The arguments of a call are popped in their order. -/
@[simp]
theorem popMany_holding (vs : List Value) : popMany vs.length (s.holding vs) = .ok vs s := by
  simp only [popMany, holding, Stack.popMany?_pushMany]

@[simp]
theorem pop_holding (v : Value) : pop (s.holding [v]) = .ok v s := by
  change pop { s with machine.stack := s.machine.stack.push v } = _
  simp only [pop, Stack.pop?_push]

@[simp]
theorem popTwo_holding (v w : Value) : popTwo (s.holding [v, w]) = .ok (v, w) s := by
  have hdrop : (s.machine.stack.pushMany [v, w]).drop 2 = s.machine.stack := by
    ext1
    simp
  simp only [popTwo, holding, Stack.items_pushMany, hdrop]
  rfl

/-- A primitive that is called on a number of arguments that it takes. -/
theorem callPrimitive_holding (hid : s.Provides id d) (hb : d.builtin = some b)
    (hargs : d.arity.accepts args.length = true) :
    s.callOn id args = runBuiltin b args.length (s.holding args) := by
  obtain ⟨name, hget⟩ := hid
  have hprimitive : (s.holding args).image.primitives.get id = { d with name } := hget
  simp [callOn, callPrimitive, checkPrimitive, checkArity, asks, nameOf, bind, EStateM.bind, hprimitive, hb,
    Interpreter.ofExcept, Arity.check, hargs]
  rfl

/-- An argument that is no integer is a type error, which shows it. -/
theorem intArg_of_not_isInt (hv : v.isInt = false) :
    intArg operation v s = .error (.error (.type (.notA .integer operation (s.image.print v)))) s := by
  cases v with
  | int => cases hv
  | _ => rfl

/-- Arguments that are integers are all taken. -/
theorem mapM_intArg : ∀ ns : List Int64, (ns.map Value.int).mapM (intArg operation) s = .ok ns s
  | [] => rfl
  | n :: ns => by
    rw [List.map_cons, List.mapM_cons]
    simp only [bind, EStateM.bind, intArg, pure, EStateM.pure, mapM_intArg ns]

/-- The first argument that is no integer is reported. -/
theorem mapM_intArg_of_not_isInt (hv : v.isInt = false) (after : List Value) : ∀ ns : List Int64,
    (ns.map Value.int ++ v :: after).mapM (intArg operation) s =
      .error (.error (.type (.notA .integer operation (s.image.print v)))) s
  | [] => by
    rw [List.map_nil, List.nil_append, List.mapM_cons]
    simp only [bind, EStateM.bind, intArg_of_not_isInt hv]
  | n :: ns => by
    rw [List.map_cons, List.cons_append, List.mapM_cons]
    simp only [bind, EStateM.bind, intArg, pure, EStateM.pure, mapM_intArg_of_not_isInt hv after ns]

/-- Arguments are integers, or there is a first one that is not. -/
theorem integers_or : ∀ args : List Value, (∃ ns : List Int64, args = ns.map .int) ∨
    ∃ (ns : List Int64) (v : Value) (after : List Value),
      v.isInt = false ∧ args = ns.map .int ++ v :: after
  | [] => .inl ⟨[], rfl⟩
  | v :: args => by
    cases hv : v.isInt with
    | false => exact .inr ⟨[], v, args, hv, rfl⟩
    | true =>
      obtain ⟨n, rfl⟩ : ∃ n, v = .int n := by cases v <;> simp_all [Value.isInt]
      rcases integers_or args with ⟨ns, rfl⟩ | ⟨ns, w, after, hw, rfl⟩
      · exact .inl ⟨n :: ns, rfl⟩
      · exact .inr ⟨n :: ns, w, after, hw, rfl⟩

end

/-! ## Calculations -/

/-- A calculation that gives an exact result. -/
inductive Calculation where
  | sum | difference | product | successor | predecessor | magnitude
deriving DecidableEq

namespace Calculation

/-- The primitive that does the calculation. -/
def definition : Calculation → PrimitiveDefinition
  | sum => .inline "+" (.atLeast 0) .add
  | difference => .inline "-" (.atLeast 1) .sub
  | product => .inline "*" (.atLeast 0) .mul
  | successor => .inline "1+" (.exactly 1) .inc
  | predecessor => .inline "1-" (.exactly 1) .dec
  | magnitude => .inline "abs" (.exactly 1) .abs

/-- The result as an integer. A single number is negated by `-`, which takes the others from the
    first one if there are more. -/
def value : Calculation → List Int → Int
  | sum, ns => ns.sum
  | difference, [n] => -n
  | difference, ns => ns.headD 0 - ns.tail.sum
  | product, ns => ns.prod
  | successor, ns => ns.headD 0 + 1
  | predecessor, ns => ns.headD 0 - 1
  | magnitude, ns => (ns.headD 0).natAbs

/-- Every result on the way, from left to right, is a fixnum. -/
def Fits : Calculation → List Int → Prop
  | sum, ns => ∀ before, before <+: ns → Fixnum.InRange before.sum
  | difference, n :: m :: ns => ∀ before, before <+: m :: ns → Fixnum.InRange (n - before.sum)
  | product, ns => ∀ before, before <+: ns → Fixnum.InRange before.prod
  | c, ns => Fixnum.InRange (c.value ns)

/-- How a call of the primitive at `id` on arguments ends. -/
inductive Outcome (c : Calculation) (s : Interpreter) (id : PrimitiveId) : List Value → Prop
  /-- The first argument that is no integer is reported. -/
  | notInteger {ns : List Int64} {v : Value} {after : List Value} (isInt : v.isInt = false)
      (call : s.callOn id (ns.map Value.int ++ v :: after) =
        .error (.error (.type (.notA .integer c.definition.name (s.image.print v)))) s) :
      Outcome c s id (ns.map Value.int ++ v :: after)
  /-- A result on the way is no fixnum. -/
  | overflow {ns : List Int64} (fits : ¬c.Fits (ns.map Int64.toInt))
      (call : s.callOn id (ns.map Value.int) =
        .error (.error (.arithmetic (.overflow c.definition.name))) s) :
      Outcome c s id (ns.map Value.int)
  /-- The result is exact, and takes the place of the arguments. -/
  | exact {ns : List Int64} {m : Int64} (fits : c.Fits (ns.map Int64.toInt))
      (value : m.toInt = c.value (ns.map Int64.toInt))
      (call : s.callOn id (ns.map Value.int) = .ok .next (s.holding [.int m])) :
      Outcome c s id (ns.map Value.int)

/-- What the calculation makes of fixnums. -/
def perform : Calculation → List Int64 → Except Error Int64
  | sum, ns => Fixnum.sum ns
  | difference, ns => Fixnum.difference ns
  | product, ns => Fixnum.product ns
  | successor, ns => Fixnum.increment (ns.headD 0)
  | predecessor, ns => Fixnum.decrement (ns.headD 0)
  | magnitude, ns => Fixnum.magnitude (ns.headD 0)

variable {c : Calculation} {s : Interpreter} {id : PrimitiveId} {ns : List Int64} {args : List Value}

/-- The exact result, if every result on the way is a fixnum. -/
theorem perform_of_fits (hargs : c.definition.arity.accepts ns.length = true)
    (hfits : c.Fits (ns.map Int64.toInt)) :
    ∃ m : Int64, m.toInt = c.value (ns.map Int64.toInt) ∧ c.perform ns = .ok m := by
  have hone {operation : String} {n : Int} (hn : Fixnum.InRange n) :
      ∃ m : Int64, m.toInt = n ∧ Fixnum.exact operation n = .ok m :=
    ⟨_, Fixnum.toInt_ofInt hn, Fixnum.exact_of_inRange hn⟩
  -- From left to right where there are several numbers, and in one step where there is one.
  cases c with
  | sum =>
    obtain ⟨m, hm, heq⟩ := Fixnum.foldlM_of_inRange "+" (· + ·) ns 0
      fun before hb => by simpa [Fixnum.foldl_add] using hfits before hb
    exact ⟨m, by simpa [value, Fixnum.foldl_add] using hm, heq⟩
  | product =>
    obtain ⟨m, hm, heq⟩ := Fixnum.foldlM_of_inRange "*" (· * ·) ns 1
      fun before hb => by simpa [Fixnum.foldl_mul] using hfits before hb
    exact ⟨m, by simpa [value, Fixnum.foldl_mul] using hm, heq⟩
  | difference =>
    obtain _ | ⟨n, _ | ⟨m, ns⟩⟩ := ns
    · cases hargs
    · exact hone hfits
    · obtain ⟨k, hk, heq⟩ := Fixnum.foldlM_of_inRange "-" (· - ·) (m :: ns) n
        fun before hb => by
          rw [Fixnum.foldl_sub]
          exact hfits before hb
      exact ⟨k, hk.trans (Fixnum.foldl_sub _ _), heq⟩
  | successor | predecessor | magnitude =>
    obtain _ | ⟨n, ns⟩ := ns
    · cases hargs
    · simp only [perform, Fixnum.increment, Fixnum.decrement, Fixnum.magnitude, List.headD_cons]
      exact hone hfits

/-- The overflow of a result on the way. -/
theorem perform_of_not_fits (hargs : c.definition.arity.accepts ns.length = true)
    (hfits : ¬c.Fits (ns.map Int64.toInt)) :
    c.perform ns = .error (.arithmetic (.overflow c.definition.name)) := by
  cases c with
  | sum =>
    exact Fixnum.foldlM_of_not_inRange "+" (· + ·) ns 0 (by simpa [Fits, Fixnum.foldl_add] using hfits)
  | product =>
    exact Fixnum.foldlM_of_not_inRange "*" (· * ·) ns 1 (by simpa [Fits, Fixnum.foldl_mul] using hfits)
  | difference =>
    obtain _ | ⟨n, _ | ⟨m, ns⟩⟩ := ns
    · cases hargs
    · exact Fixnum.exact_of_not_inRange hfits
    · exact Fixnum.foldlM_of_not_inRange "-" (· - ·) (m :: ns) n (by simpa [Fits, Fixnum.foldl_sub] using hfits)
  | successor | predecessor | magnitude =>
    obtain _ | ⟨n, ns⟩ := ns
    · cases hargs
    · simp only [perform, Fixnum.increment, Fixnum.decrement, Fixnum.magnitude, List.headD_cons]
      exact Fixnum.exact_of_not_inRange hfits

/-- The primitive looks at its arguments one after the other, and then calculates. -/
theorem callOn_eq (hid : s.Provides id c.definition) (hargs : c.definition.arity.accepts args.length = true) :
    s.callOn id args = (do
      let ns ← args.mapM (intArg c.definition.name)
      done (.int (← Interpreter.ofExcept (c.perform ns))) : LispM Flow) s := by
  -- One equation for the calculations of any number of arguments, one for those of one argument.
  have hmany {operation : String} {f : List Int64 → Except Error Int64} :
      arithmetic operation args.length f (s.holding args) = (do
        let ns ← args.mapM (intArg operation)
        done (.int (← Interpreter.ofExcept (f ns))) : LispM Flow) s := by
    simp only [arithmetic, bind, EStateM.bind, popMany_holding]
  have hone {operation : String} {f : Int64 → Except Error Int64} {v : Value} :
      arithmeticOne operation f (s.holding [v]) = (do
        let ns ← [v].mapM (intArg operation)
        done (.int (← Interpreter.ofExcept (f (ns.headD 0)))) : LispM Flow) s := by
    simp only [arithmeticOne, bind, EStateM.bind, pop_holding, List.mapM_cons, List.mapM_nil]
    cases intArg operation v s <;> rfl
  cases c with
  | sum | difference | product =>
    rw [callPrimitive_holding hid rfl hargs]
    exact hmany
  | successor | predecessor | magnitude =>
    rw [callPrimitive_holding hid rfl hargs]
    obtain ⟨v, rfl⟩ := List.length_eq_one_iff.1 (Arity.accepts_exactly.1 hargs)
    exact hone

/-- The calculations are primitives of the library. -/
theorem definition_mem_library (c : Calculation) : c.definition ∈ Primitive.library := by
  cases c <;> simp [definition, Primitive.library]

end Calculation

/-- The calculations of the library give exact results: a call of one of them is refused if some
    argument is no integer, and otherwise if a result on the way is no fixnum; otherwise it gives
    the exact result. -/
theorem calculations_exact (c : Calculation) {s : Interpreter} {id : PrimitiveId}
    (hid : s.Provides id c.definition) {args : List Value}
    (hargs : c.definition.arity.accepts args.length = true) :
    c.definition ∈ Primitive.library ∧ c.Outcome s id args := by
  refine ⟨c.definition_mem_library, ?_⟩
  have hcall := c.callOn_eq hid hargs
  rcases integers_or args with ⟨ns, rfl⟩ | ⟨ns, v, after, hv, rfl⟩
  · simp only [bind, EStateM.bind, mapM_intArg] at hcall
    rw [List.length_map] at hargs
    by_cases hfits : c.Fits (ns.map Int64.toInt)
    · obtain ⟨m, hm, hperform⟩ := Calculation.perform_of_fits hargs hfits
      rw [hperform] at hcall
      exact .exact hfits hm hcall
    · rw [Calculation.perform_of_not_fits hargs hfits] at hcall
      exact .overflow hfits hcall
  · simp only [bind, EStateM.bind, mapM_intArg_of_not_isInt hv] at hcall
    exact .notInteger hv hcall

/-- An interpreter with one primitive. -/
def Interpreter.offering (d : PrimitiveDefinition) : Interpreter where
  image := { heap := .empty 0, primitives := ⟨#[{ d with name := ⟨0⟩ }]⟩ }

theorem Interpreter.provides_offering (d : PrimitiveDefinition) : (offering d).Provides ⟨0⟩ d := ⟨⟨0⟩, rfl⟩

theorem calculations_exact_difference :
    (offering Calculation.difference.definition).Provides ⟨0⟩ Calculation.difference.definition ∧
      Calculation.difference.definition.arity.accepts 3 = true ∧
      Calculation.difference.Outcome (offering Calculation.difference.definition) ⟨0⟩
        [.int Int64.minValue, .int 1, .int (-1)] :=
  ⟨provides_offering _, rfl, (calculations_exact .difference (provides_offering _) rfl).2⟩

/-! ## Floored remainders -/

/-- What is left of `a` after a division by `b` that is rounded down: it has the sign of `b`, and
    is smaller than `b`. -/
structure IsFloorRemainder (a b r : Int) : Prop where
  quotient : ∃ q, a = q * b + r
  sign : r = 0 ∨ r.sign = b.sign
  small : r.natAbs < b.natAbs

namespace IsFloorRemainder

variable {a b r r' : Int}

/-- There is one such remainder only. -/
theorem unique (hr : IsFloorRemainder a b r) (hr' : IsFloorRemainder a b r') : r = r' := by
  obtain ⟨q, hq⟩ := hr.quotient
  obtain ⟨q', hq'⟩ := hr'.quotient
  have hdvd : b ∣ r - r' := ⟨q' - q, by rw [Int.mul_sub, Int.mul_comm b q', Int.mul_comm b q]; omega⟩
  -- Both lie between zero and `b`, so their difference is smaller than `b`.
  have hsmall : (r - r').natAbs < b.natAbs := by
    have hpositive {x : Int} (hx : IsFloorRemainder a b x) (hb : 0 < b) : 0 ≤ x := by
      rcases hx.sign with rfl | hsign
      · exact Int.le_refl 0
      · rw [Int.sign_eq_one_of_pos hb, Int.sign_eq_one_iff_pos] at hsign
        exact hsign.le
    have hnegative {x : Int} (hx : IsFloorRemainder a b x) (hb : b < 0) : x ≤ 0 := by
      rcases hx.sign with rfl | hsign
      · exact Int.le_refl 0
      · rw [Int.sign_eq_neg_one_of_neg hb, Int.sign_eq_neg_one_iff_neg] at hsign
        exact hsign.le
    have hlt := hr.small
    have hlt' := hr'.small
    rcases Int.lt_trichotomy b 0 with hb | rfl | hb
    · have := hnegative hr hb
      have := hnegative hr' hb
      omega
    · omega
    · have := hpositive hr hb
      have := hpositive hr' hb
      omega
  have hzero := Int.eq_zero_of_dvd_of_natAbs_lt_natAbs hdvd hsmall
  omega

/-- The remainder of the floored division is one. -/
theorem fmod (a : Int) (hb : b ≠ 0) : IsFloorRemainder a b (a.fmod b) := by
  have hnonneg := Int.emod_nonneg a hb
  have hlt := Int.emod_lt_abs a hb
  have habs := Int.abs_eq_natAbs b
  have hquotient : a = a.fdiv b * b + a.fmod b := by
    rw [Int.mul_comm, Int.add_comm, Int.fmod_add_mul_fdiv]
  have heq := Int.fmod_eq_emod (a := a) (b := b)
  -- The remainders of `fmod` and `emod` differ where the divisor is negative and does not divide.
  by_cases hdvd : b ∣ a
  · rw [if_pos (.inr hdvd), Int.emod_eq_zero_of_dvd hdvd] at heq
    exact ⟨⟨_, hquotient⟩, .inl heq, by omega⟩
  · have hne : a % b ≠ 0 := fun hzero => hdvd (Int.dvd_of_emod_eq_zero hzero)
    refine ⟨⟨_, hquotient⟩, .inr ?_, ?_⟩
    · rcases Int.lt_or_gt_of_ne hb with hneg | hpos
      · rw [if_neg (by omega)] at heq
        rw [Int.sign_eq_neg_one_of_neg hneg, Int.sign_eq_neg_one_iff_neg]
        omega
      · rw [if_pos (.inl hpos.le)] at heq
        rw [Int.sign_eq_one_of_pos hpos, Int.sign_eq_one_iff_pos]
        omega
    · split at heq <;> omega

end IsFloorRemainder

namespace Fixnum

variable {a b : Int64}

/-- A rounded remainder that has not the sign of the divisor is one divisor off. -/
theorem fmod_eq_ite (a b : Int) :
    a.fmod b =
      if a.tmod b ≠ 0 ∧ decide (a.tmod b < 0) ≠ decide (b < 0) then a.tmod b + b else a.tmod b := by
  have hsign := Int.sign_tmod a b
  rw [Int.fmod_eq_tmod]
  by_cases hdvd : b ∣ a
  · rw [if_pos hdvd, Int.tmod_eq_zero_of_dvd hdvd]
    simp
  · -- The rounded remainder has the sign of the dividend.
    have hzero : a.tmod b ≠ 0 := fun h => hdvd (Int.dvd_of_tmod_eq_zero h)
    have hneg : a.tmod b < 0 ↔ a < 0 := by
      rw [← Int.sign_eq_neg_one_iff_neg, hsign, if_neg hdvd, Int.sign_eq_neg_one_iff_neg]
    rw [if_neg hdvd]
    simp only [hzero, hneg, ne_eq, not_false_eq_true, true_and, decide_eq_decide]
    split_ifs <;> omega

/-- On fixnums the sum of a remainder and a divisor of different signs does not wrap around. -/
theorem toInt_ite_rem (a b : Int64) :
    (if a % b ≠ 0 ∧ decide (a % b < 0) ≠ decide (b < 0) then a % b + b else a % b).toInt =
      a.toInt.fmod b.toInt := by
  have hr := Int64.toInt_mod a b
  have hzero : a % b = 0 ↔ a.toInt.tmod b.toInt = 0 := by
    rw [← hr]
    exact Int64.toInt_inj.symm
  have hneg (x : Int64) : x < 0 ↔ x.toInt < 0 := Int64.lt_iff_toInt_lt
  rw [fmod_eq_ite]
  simp only [ne_eq, hzero, hneg, hr]
  split
  · next h =>
    -- The patched remainder lies between zero and the divisor, so adding the divisor does not leave
    -- the range.
    have hrange := inRange_toInt (a % b)
    have hrangeb := inRange_toInt b
    have hsigns : ¬(a.toInt.tmod b.toInt < 0 ↔ b.toInt < 0) := by simpa using h.2
    rw [hr] at hrange
    unfold InRange at *
    rw [Int64.toInt_add, hr, Int.bmod_eq_of_le] <;> omega
  · exact hr

/-- `mod` gives the floored remainder where the rounded quotient is a fixnum. -/
theorem mod_eq_ok (hb : b ≠ 0) (h : ¬(a = Int64.minValue ∧ b = -1)) :
    ∃ r : Int64, IsFloorRemainder a.toInt b.toInt r.toInt ∧ mod a b = .ok r := by
  have hbzero : b.toInt ≠ 0 := fun hzero => hb (Int64.toInt_inj.1 hzero)
  refine ⟨_, ?_, by rw [mod, if_neg hb, remainder, if_neg h]; rfl⟩
  rw [toInt_ite_rem]
  exact IsFloorRemainder.fmod a.toInt hbzero

end Fixnum

/-- The primitive `mod`. -/
def modulus : PrimitiveDefinition := .inline "mod" (.exactly 2) .mod

/-- The call of `mod` on fixnums. -/
theorem callOn_modulus {s : Interpreter} {id : PrimitiveId} (hid : s.Provides id modulus) (a b : Int64) :
    s.callOn id [.int a, .int b] =
      match Fixnum.mod a b with
      | .ok r => .ok .next (s.holding [.int r])
      | .error e => .error (.error e) s := by
  rw [callPrimitive_holding hid rfl rfl]
  refine (bind_of_ok (popTwo_holding _ _)).trans ?_
  change (do done (.int (← Interpreter.ofExcept (Fixnum.mod a b))) : LispM Flow) s = _
  cases Fixnum.mod a b <;> rfl

/-- `mod` gives the floored remainder, unless the divisor is zero or the quotient no fixnum. -/
theorem mod_floors {s : Interpreter} {id : PrimitiveId} (hid : s.Provides id modulus) (a b : Int64) :
    modulus ∈ Primitive.library ∧
      (b = 0 → s.callOn id [.int a, .int b] = .error (.error (.arithmetic (.divisionByZero "mod"))) s) ∧
      (b ≠ 0 → ¬(a = Int64.minValue ∧ b = -1) →
        ∃ r : Int64, (∀ r', IsFloorRemainder a.toInt b.toInt r' ↔ r' = r.toInt) ∧
          s.callOn id [.int a, .int b] = .ok .next (s.holding [.int r])) ∧
      (a = Int64.minValue → b = -1 →
        s.callOn id [.int a, .int b] = .error (.error (.arithmetic (.overflow "mod"))) s) := by
  refine ⟨by simp [modulus, Primitive.library], ?_, ?_, ?_⟩
  · rintro rfl
    rw [callOn_modulus hid]
    rfl
  · intro hb h
    obtain ⟨r, hr, hmod⟩ := Fixnum.mod_eq_ok hb h
    refine ⟨r, fun r' => ⟨fun hr' => hr'.unique hr, fun heq => heq ▸ hr⟩, ?_⟩
    rw [callOn_modulus hid, hmod]
  · rintro rfl rfl
    rw [callOn_modulus hid]
    rfl

theorem mod_floors_negative :
    (offering modulus).Provides ⟨0⟩ modulus ∧ (7 : Int64) ≠ 0 ∧
      ∃ r : Int64, (∀ r', IsFloorRemainder (-9223372036854775808) 7 r' ↔ r' = r.toInt) ∧
        (offering modulus).callOn ⟨0⟩ [.int Int64.minValue, .int 7] =
          .ok .next ((offering modulus).holding [.int r]) :=
  ⟨provides_offering modulus, by decide,
    (mod_floors (provides_offering modulus) Int64.minValue 7).2.2.1 (by decide) (by decide)⟩

/-- The remainder of the least fixnum by `-1` is zero, but `mod` refuses to give it. -/
theorem mod_refuses_fixnum :
    IsFloorRemainder Int64.minValue.toInt (-1 : Int64).toInt 0 ∧
      ∀ r, (offering modulus).callOn ⟨0⟩ [.int Int64.minValue, .int (-1)] ≠
        .ok .next ((offering modulus).holding [.int r]) := by
  refine ⟨⟨⟨9223372036854775808, by decide⟩, .inl rfl, by decide⟩, fun r => ?_⟩
  rw [callOn_modulus (provides_offering modulus)]
  nofun

end StackLisp
