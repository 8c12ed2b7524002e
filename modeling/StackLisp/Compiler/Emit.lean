import StackLisp.Compiler.Lexical
import StackLisp.Interpreter.State

/-!
# Emitting code

Code is made from back to front: every rule of the compiler gets the code that
has to run after its form, the *continuation*, and puts the form's code in front
of it. Continuations are shared, not copied.

Where a continuation leads decides how calls and branches are compiled:

* to a return, past the ends of some blocks;
* to the end of the top-level form, likewise;
* elsewhere.
-/

namespace StackLisp.Compiler

open Interpreter

/-- How a form is compiled: in a lexical environment, in front of a
    continuation. -/
abbrev CompileRule := Value → LexicalEnv → Value → LispM Value

/-- Refuses a form. -/
def invalid {α : Type} (form : String) (f : FormFault) : LispM α := raise (.invalidForm form f)

/-- An instruction in front of a continuation. -/
def emit (code : Opcode) (operands : List Value) (cont : Value) : LispM Value := do
  let tail ← Heap.listWithTail operands cont
  Heap.cons (.op code) tail

/-- Where a continuation leads. -/
inductive Tail where
  | elsewhere
  /-- To a return, past the ends of `crossed` blocks. -/
  | toReturn (crossed : Nat)
  /-- To the end of the run, past the ends of `crossed` blocks. -/
  | toStop (crossed : Nat)
deriving DecidableEq, Repr

/-- Follows a continuation past at most `fuel` ends of blocks. -/
def tailFrom (heap : Heap) (crossed : Nat) : Nat → Value → Except Failure Tail
  | 0, .pair _ => .error .endless
  | fuel + 1, .pair id =>
    match heap.car id with
    | .op .blockend =>
      match heap.cdr id with
      | .pair operand => tailFrom heap (crossed + 1) fuel (heap.cdr operand)
      | _ => .ok .elsewhere
    | .op .rtn => .ok (.toReturn crossed)
    | .op .stop => .ok (.toStop crossed)
    | _ => .ok .elsewhere
  | _, _ => .ok .elsewhere

/-- Where a continuation leads. -/
def tailOf (cont : Value) : LispM Tail :=
  walk fun image => tailFrom image.heap 0 (image.heap.pairCount + 1) cont

/-- A call in front of a continuation: a tail call if the continuation is a
    return. If the call would leave blocks, it stays an ordinary one for the time
    being and is noted as pending. -/
def emitApply (argc : Nat) (cont : Value) : LispM Value := do
  match ← tailOf cont with
  | .toReturn 0 => emit .tap [.ofNat argc] cont
  | .toReturn crossed =>
    let code ← emit .ap [.ofNat argc] cont
    if let .pair id := code then
      modifyScopes fun s => if crossed ≤ s.blocks.length then s.addPendingTail id crossed else s
    return code
  | _ => emit .ap [.ofNat argc] cont

/-- Compiles arguments, to be evaluated from left to right, in front of a
    continuation. -/
def compileArgs (compile : CompileRule) (args : List Value) (env : LexicalEnv) (cont : Value) :
    LispM Value :=
  args.foldrM (fun arg code => compile arg env code) cont

/-- The argument forms of a call. -/
def arguments (args : Value) : LispM (List Value) := do
  match ← elements? args with
  | some items => return items
  | none => invalid "call" .dottedArguments

/-- Compiles forms in sequence; every value but the last is dropped. -/
def compileBody (compile : CompileRule) (forms : Value) (env : LexicalEnv) (cont : Value) :
    LispM Value := do
  match (← arguments forms).reverse with
  | [] => emit .ldc [.nil] cont
  | last :: before =>
    let code ← compile last env cont
    before.foldlM (fun code form => do compile form env (← emit .pop [] code)) code

end StackLisp.Compiler
