import StackLisp.Machine.Binding
import StackLisp.Machine.Call

/-!
# Non-local exits

Blocks and tagbodies put an exit on the register of exits while they are active.

* `go` finds the innermost exit of its tagbody and brings the machine back to
  the state it was in when the tagbody was entered.
* `return-from` walks the code ahead the way it would be left normally, until
  the end of the block (`exitBlock`). Returns and joins are taken on the way, and
  the ends of constructs entered inside the block are carried out; constructs
  met on the walk are skipped together with their ends.
-/

namespace StackLisp.Machine

open Interpreter

/-- Enters a block. -/
def enterBlock (name : Value) : LispM Unit :=
  modifyMachine fun m => { m with exits := m.exits.push (.block name m.stack.height m.env) }

/-- Leaves the innermost block, which has to be the one of the name. -/
def endBlock (name : Value) : LispM Unit := do
  match ← view (·.exits.pop?) with
  | some (.block entered _ _, exits) =>
    if entered = name then
      modifyMachine fun m => { m with exits }
    else
      fault .blockEndMismatch
  | _ => fault .blockEndMismatch

/-- Enters a tagbody. -/
def enterTagbody (id table : Value) : LispM Unit :=
  modifyMachine fun m =>
    { m with
      exits := m.exits.push
        (.tagbody id table m.env m.dump.height m.stack.height m.bindings.height) }

/-- Leaves the innermost exit, which has to be a tagbody. -/
def endTagbody : LispM Unit := do
  match ← view (·.exits.pop?) with
  | some (.tagbody _ _ _ _ _ _, exits) => modifyMachine fun m => { m with exits }
  | _ => fault .tagEndMismatch

/-- Whether an exit is one of a tagbody. -/
def isTagbody (id : Value) : Exit → Bool
  | .tagbody entered _ _ _ _ _ => entered = id
  | .block _ _ _ => false

/-- Goes to a tag of an active tagbody. -/
def goTo (id tag : Value) : LispM Unit := do
  let exits ← view (·.exits.dropUntil (isTagbody id))
  match exits.top? with
  | some (.tagbody _ table env dump stack bindings) =>
    match ← walk (·.heap.lookup tag table) with
    | none => fault (.tagNotInTagbody (← shown tag))
    | some code =>
      modifyMachine fun m =>
        { m with
          exits
          env
          dump := m.dump.truncate dump
          stack := m.stack.truncate stack
          control := code }
      unwindBindings bindings
  | _ => fault (.tagbodyNotActive (← shown tag))

/-- Leaves the block `target` with a value, by a walk of at most `fuel`
    instructions; `skipped` counts the constructs entered on the walk. -/
def exitBlock (target value : Value) : Nat → Nat → LispM Unit
  | 0, _ => throw .endless
  | fuel + 1, skipped => do
    let code ← match ← attempt fetch with
      | .ok code => pure code
      | .error (.error _) => fault (.exitRanOff (← shown target))
      | .error .endless => throw .endless
    match code with
    | .stop => fault (.blockNotActive (← shown target))
    | .rtn =>
      returnToCaller
      exitBlock target value fuel skipped
    | .join =>
      join
      exitBlock target value fuel skipped
    | .tsel =>
      let thenCode ← operand
      let _ ← operand
      modifyMachine fun m => { m with control := thenCode }
      exitBlock target value fuel skipped
    | .block | .tagbody | .bind =>
      skipOperands code.operandCount
      exitBlock target value fuel (skipped + 1)
    | .blockend =>
      let name ← operand
      match skipped with
      | skipped + 1 => exitBlock target value fuel skipped
      | 0 =>
        match ← view (·.exits.pop?) with
        | some (.block entered stack env, exits) =>
          if entered ≠ name then
            fault .exitCrossedBlock
          modifyMachine fun m => { m with exits }
          if name = target then
            modifyMachine fun m => { m with env, stack := (m.stack.truncate stack).push value }
          else
            exitBlock target value fuel 0
        | _ => fault .exitCrossedBlock
    | .tagend =>
      match skipped with
      | skipped + 1 => exitBlock target value fuel skipped
      | 0 =>
        endTagbody
        exitBlock target value fuel 0
    | .unbind =>
      let symbol ← operandSymbol
      match skipped with
      | skipped + 1 => exitBlock target value fuel skipped
      | 0 =>
        unbindSpecial symbol
        exitBlock target value fuel 0
    | code =>
      skipOperands code.operandCount
      exitBlock target value fuel skipped

/-- A walk without fuel is given up. -/
@[simp]
theorem exitBlock_zero (target value : Value) (skipped : Nat) :
    exitBlock target value 0 skipped = throw .endless := by
  rw [exitBlock]

end StackLisp.Machine
