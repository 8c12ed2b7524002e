import StackLisp.Heap.Basic

/-!
# Spines

The *spine* of a value is what one sees walking down its tails: the heads met
on the way, and how the walk ends, in the empty list, in another atom, or never.
A pair whose tail is a pair is one of the heap, so a walk that has gone on from more
pairs than the heap holds is going in circles. This bounds the walk.

`Heap.elements?` gives the elements of a proper list, nothing for a dotted one,
and fails on a circular one, where the walk does not end.
-/

namespace StackLisp

/-- How a walk down the tails of a value ends. -/
inductive SpineEnd where
  | proper
  | dotted (atom : Value)
  | circular
deriving DecidableEq, Repr

/-- The heads met on a walk down the tails of a value. On a circular list, these
    are the heads met before the walk is known to be circular: every pair of the
    circle is among the pairs seen. -/
structure Spine where
  items : List Value
  ending : SpineEnd
deriving DecidableEq, Repr

namespace Heap

/-- Walks at most `fuel` pairs; `seen` are the heads so far, the latest first. -/
def spineFrom (h : Heap) (seen : List Value) : Nat → Value → Spine
  | _, .nil => ⟨seen.reverse, .proper⟩
  | 0, .pair _ => ⟨seen.reverse, .circular⟩
  | fuel + 1, .pair id => h.spineFrom (h.car id :: seen) fuel (h.cdr id)
  | _, v => ⟨seen.reverse, .dotted v⟩

/-- The spine of a value. -/
def spine (h : Heap) (v : Value) : Spine := h.spineFrom [] (h.pairCount + 1) v

/-- The elements of a proper list; nothing for a dotted list or an atom. -/
def elements? (h : Heap) (v : Value) : Except Failure (Option (List Value)) :=
  match h.spine v with
  | ⟨items, .proper⟩ => .ok (some items)
  | ⟨_, .dotted _⟩ => .ok none
  | ⟨_, .circular⟩ => .error .endless

/-- Whether a value is a proper list. -/
def isProperList (h : Heap) (v : Value) : Except Failure Bool := do
  return (← h.elements? v).isSome

/-- The length of a proper list. -/
def length? (h : Heap) (v : Value) : Except Failure (Option Nat) := do
  return (← h.elements? v).map List.length

/-- The tail of the first pair in a list of pairs whose head is `key`, by
    identity. Other elements are passed over. -/
def lookupFrom (h : Heap) (key : Value) : Nat → Value → Except Failure (Option Value)
  | 0, .pair _ => .error .endless
  | fuel + 1, .pair id =>
    match h.car id with
    | .pair entry =>
      if h.car entry = key then .ok (some (h.cdr entry)) else h.lookupFrom key fuel (h.cdr id)
    | _ => h.lookupFrom key fuel (h.cdr id)
  | _, _ => .ok none

/-- What an association list holds for `key`. -/
def lookup (h : Heap) (key alist : Value) : Except Failure (Option Value) :=
  h.lookupFrom key (h.pairCount + 1) alist

end Heap

end StackLisp
