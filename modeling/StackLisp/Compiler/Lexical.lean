import StackLisp.Value.Basic

/-!
# Lexical environments

What the compiler knows about the environment that its code will run in: the
variable names of each frame, the innermost frame first. A variable is found at
an *address*, the number of frames to go outward and a slot.

Inner frames shadow outer ones, and of two equal names in a frame the later one
counts.
-/

namespace StackLisp

/-- Where a variable lives. -/
structure LexicalAddress where
  /-- Frames to go outward from the innermost. -/
  frame : Nat
  slot : Nat
  /-- A rest parameter stands for all slots from `slot` on. -/
  rest : Bool
deriving DecidableEq, Repr

/-- The variable names of a frame. -/
structure LexicalFrame where
  names : List SymbolId
  /-- The position of the rest parameter. -/
  rest : Option Nat := none
deriving DecidableEq, Repr

/-- Frames, the innermost first. -/
abbrev LexicalEnv := List LexicalFrame

/-- The last position of an element in a list. -/
def lastIndex? {α : Type} [DecidableEq α] (a : α) : List α → Option Nat
  | [] => none
  | x :: xs =>
    match lastIndex? a xs with
    | some i => some (i + 1)
    | none => if x = a then some 0 else none

namespace LexicalEnv

/-- The address of a variable. -/
def resolve (name : SymbolId) : LexicalEnv → Option LexicalAddress
  | [] => none
  | frame :: outer =>
    match lastIndex? name frame.names with
    | some slot => some ⟨0, slot, frame.rest == some slot⟩
    | none => (resolve name outer).map fun a => { a with frame := a.frame + 1 }

end LexicalEnv

end StackLisp
