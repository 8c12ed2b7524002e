import StackLisp.Error

/-!
# Arities

How many arguments an operator takes: at least `min`, and at most `max` if
there is a bound.
-/

namespace StackLisp

/-- Bounds on the number of arguments. -/
structure Arity where
  min : Nat
  /-- No bound for operators with a rest parameter. -/
  max : Option Nat
deriving DecidableEq, Repr, Inhabited

namespace Arity

/-- Exactly `n` arguments. -/
def exactly (n : Nat) : Arity := ⟨n, some n⟩

/-- `n` arguments or more. -/
def atLeast (n : Nat) : Arity := ⟨n, none⟩

/-- From `least` to `most` arguments. -/
def between (least most : Nat) : Arity := ⟨least, some most⟩

/-- Whether `n` arguments are within the bounds. -/
def accepts (a : Arity) (n : Nat) : Bool :=
  a.min ≤ n && match a.max with
    | some most => n ≤ most
    | none => true

/-- Refuses `n` arguments outside the bounds, blaming `name`. -/
def check (a : Arity) (name : String) (n : Nat) : Except Error Unit :=
  if a.accepts n then .ok () else .error (.argumentCount name a.min a.max n)

/-- A count is refused exactly when it is outside the bounds. -/
theorem check_eq_ok_iff {a : Arity} {name : String} {n : Nat} :
    a.check name n = .ok () ↔ a.accepts n := by
  unfold check; split <;> simp_all

end Arity

end StackLisp
