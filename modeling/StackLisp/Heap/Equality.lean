import StackLisp.Heap.Basic

/-!
# Structural equality

Two values are *equal* when their unfoldings are: pairs are compared component
by component, the heads first, and atoms by identity. A pair is equal to itself
without being looked into.

The comparison recurses along chains of pairs of pairs. A chain that meets the
same two pairs again never ends, and a longer chain than there are such pairs
must, so the square of the number of pairs bounds it.
-/

namespace StackLisp.Heap

/-- Compares along chains of at most `fuel` pairs. -/
def equalFrom (h : Heap) : Nat → Value → Value → Except Failure Bool
  | 0, .pair x, .pair y => if x = y then .ok true else .error .endless
  | fuel + 1, .pair x, .pair y =>
    if x = y then
      .ok true
    else
      match h.equalFrom fuel (h.car x) (h.car y) with
      | .ok true => h.equalFrom fuel (h.cdr x) (h.cdr y)
      | result => result
  | _, a, b => .ok (decide (a = b))

/-- Whether two values unfold to the same tree. -/
def equal (h : Heap) (a b : Value) : Except Failure Bool :=
  h.equalFrom (h.pairCount * h.pairCount) a b

end StackLisp.Heap
