import StackLisp.Machine.Stack
import StackLisp.Value.Basic

/-!
# The registers of the machine

The machine computes with five registers:

* the *stack* of operands;
* the *environment*, a list of frames, the innermost first;
* the *control*, the instruction stream still to be run;
* the *dump*, the continuations to come back to;
* the *exits*, the blocks and tagbodies that are active.

Beside them it keeps the value cells that dynamic bindings have replaced, and
counts what it does. A nested run has registers of its own, but shares the
bindings and the counts.
-/

namespace StackLisp

/-- A continuation on the dump. -/
inductive DumpEntry where
  /-- The caller of a function; `exits` is the number of exits active at the
      call. -/
  | call (env code : Value) (exits : Nat)
  /-- What follows a branch. -/
  | join (code : Value)
deriving DecidableEq, Repr

/-- An active exit point. -/
inductive Exit where
  /-- A block, with the height of the stack and the environment at its entry. -/
  | block (name : Value) (stack : Nat) (env : Value)
  /-- A tagbody, with the code of its tags and the heights at its entry. -/
  | tagbody (id table env : Value) (dump stack bindings : Nat)
deriving DecidableEq, Repr

/-- The value cell that a dynamic binding has replaced. -/
structure SavedValue where
  symbol : SymbolId
  value : Option Value
deriving DecidableEq, Repr

/-- The registers of a run. -/
structure Registers where
  stack : Stack Value := .empty
  env : Value := .nil
  control : Value := .nil
  dump : Stack DumpEntry := .empty
  exits : Stack Exit := .empty
deriving Inhabited

/-- The machine. -/
structure Machine extends Registers where
  /-- Dynamic bindings in force, the innermost on top. -/
  bindings : Stack SavedValue := .empty
  /-- Instructions since the outermost run began. -/
  steps : Nat := 0
  maxSteps : Option Nat := none
  /-- The greatest height of the dump since the counts were cleared. -/
  maxDumpDepth : Nat := 0
  /-- Whether every instruction is logged. -/
  trace : Bool := false
  /-- How many runs are going on, one inside the other. -/
  nesting : Nat := 0
deriving Inhabited

/-- Whether a call saves the caller's continuation or takes its place. -/
inductive CallMode where
  | push | tail
deriving DecidableEq, Repr

end StackLisp
