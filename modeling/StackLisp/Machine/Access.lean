import StackLisp.Interpreter.State

/-!
# Access to the registers

Operands come off the stack and out of the control register. Code that breaks
the rules is met by a fault: a stack with too few operands, a stream that ends
inside an instruction, an operand of the wrong kind.
-/

namespace StackLisp.Machine

open Interpreter

/-- Reports a broken rule. -/
def fault {α : Type} (f : Fault) : LispM α := raise (.fatal f)

/-- A view of the machine. -/
@[inline]
def view {α : Type} (f : Machine → α) : LispM α := fun s => .ok (f s.machine) s

/-! ## Operands on the stack -/

/-- Puts a value on the stack. -/
def push (v : Value) : LispM Unit :=
  modifyMachine fun m => { m with stack := m.stack.push v }

/-- Puts values on the stack, the last one on top. -/
def pushMany (vs : List Value) : LispM Unit :=
  modifyMachine fun m => { m with stack := m.stack.pushMany vs }

/-- Takes a value off the stack. -/
def pop : LispM Value := fun s =>
  match s.machine.stack.pop? with
  | some (v, stack) => .ok v { s with machine.stack := stack }
  | none => .error (.error (.fatal .stackUnderflow)) s

/-- The value on top of the stack. -/
def peek : LispM Value := fun s =>
  match s.machine.stack.top? with
  | some v => .ok v s
  | none => .error (.error (.fatal .stackUnderflow)) s

/-- Takes `n` values off the stack, in the order they were put there. -/
def popMany (n : Nat) : LispM (List Value) := fun s =>
  match s.machine.stack.popMany? n with
  | some (vs, stack) => .ok vs { s with machine.stack := stack }
  | none => .error (.error (.fatal .stackUnderflow)) s

/-- Takes two values off the stack. -/
def popTwo : LispM (Value × Value) := fun s =>
  match s.machine.stack.items with
  | b :: a :: _ => .ok (a, b) { s with machine.stack := s.machine.stack.drop 2 }
  | _ => .error (.error (.fatal .stackUnderflow)) s

/-! ## The instruction stream -/

/-- The next element of the stream. -/
def operand : LispM Value := fun s =>
  match s.machine.control with
  | .pair id =>
    let heap := s.image.heap
    .ok (heap.car id) { s with machine.control := heap.cdr id }
  | _ => .error (.error (.fatal .endsInsideInstruction)) s

/-- The next element of the stream, as a count. -/
def operandIndex : LispM Nat := do
  let v ← operand
  match v with
  | .int n => if 0 ≤ n then return n.toNatClampNeg else fault (.notIndex v.typeName)
  | _ => fault (.notIndex v.typeName)

/-- The next element of the stream, as a symbol. -/
def operandSymbol : LispM SymbolId := do
  let v ← operand
  match v.symbol? with
  | some id => return id
  | none => fault (.notSymbol v.typeName)

/-- The next element of the stream, as an opcode. -/
def fetch : LispM Opcode := do
  if ← view (·.control.isNil) then
    fault .endsWithoutStop
  let v ← operand
  match v with
  | .op code => return code
  | _ => fault (.notOpcode (← shown v))

/-- Goes past `n` elements of the stream. -/
def skipOperands : Nat → LispM Unit
  | 0 => pure ()
  | n + 1 => do
    let _ ← operand
    skipOperands n

/-! ## The environment -/

/-- The environment `n` frames outward. -/
def outward (heap : Heap) : Nat → Value → Except Error Value
  | _, .nil => .ok .nil
  | 0, env => .ok env
  | n + 1, env => do outward heap n (← heap.tail env)

/-- The frame `n` frames outward from the innermost. -/
def frameAt (n : Nat) : LispM FrameId := do
  let env ← view (·.env)
  let v ← query fun image => do image.heap.head (← outward image.heap n env)
  match v with
  | .frame id => return id
  | _ => fault (.noFrame n)

/-! ## Counts -/

/-- Puts a continuation on the dump. -/
def pushDump (entry : DumpEntry) : LispM Unit :=
  modifyMachine fun m =>
    let dump := m.dump.push entry
    { m with dump, maxDumpDepth := max m.maxDumpDepth dump.height }

/-- Clears the counts. -/
def clearCounts : LispM Unit :=
  modifyMachine fun m => { m with steps := 0, maxDumpDepth := 0 }

end StackLisp.Machine
