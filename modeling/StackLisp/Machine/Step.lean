import StackLisp.Machine.Builtin
import StackLisp.Machine.Exit

/-!
# Instructions at work

What each instruction does to the registers, and the step of the machine: count,
fetch, execute. The step is a plain action without recursion; what may go on for
longer is left as a request.
-/

namespace StackLisp.Machine

open Interpreter

/-- Executes an instruction whose opcode has been fetched. -/
def execute (code : Opcode) : LispM Flow := do
  match code with
  | .ldc =>
    done (← operand)
  | .ld =>
    let i ← operandIndex
    let j ← operandIndex
    let frame ← frameAt i
    done (← query (·.heap.frameSlot frame j))
  | .ldr =>
    let i ← operandIndex
    let j ← operandIndex
    let frame ← frameAt i
    done (← Heap.frameRest frame j)
  | .ldg =>
    let name ← operandSymbol
    done (← query (·.symbols.value name))
  | .gfn =>
    let name ← operandSymbol
    let v ← query (·.symbols.functionValue name)
    if let .function f := v then
      if (← asks (·.function f)).isMacro then
        raise (.type (.macroLoaded (← nameOf name)))
    done v
  | .setl =>
    let i ← operandIndex
    let j ← operandIndex
    let v ← peek
    let frame ← frameAt i
    Heap.setFrameSlot frame j v
    return .next
  | .setlr =>
    let i ← operandIndex
    let j ← operandIndex
    let v ← peek
    let frame ← frameAt i
    Heap.setFrameRest frame j v
    return .next
  | .setg =>
    let name ← operandSymbol
    let v ← peek
    SymbolTable.setValue name v
    return .next
  | .ldf =>
    let v ← operand
    let .function f := v | fault .loadsNonFunction
    let env ← view (·.env)
    done (.closure (← Heap.alloc (.function f) env))
  | .ap =>
    call (← operandIndex) .push
  | .tap =>
    call (← operandIndex) .tail
  | .rap =>
    applyRecursive (← operandIndex)
    return .next
  | .dum =>
    let frame ← Heap.allocDummyFrame (← operandIndex)
    let env ← view (·.env)
    let env ← Heap.cons (.frame frame) env
    modifyMachine fun m => { m with env }
    return .next
  | .rtn =>
    returnToCaller
    return .next
  | .sel =>
    let test ← pop
    let thenCode ← operand
    let elseCode ← operand
    pushDump (.join (← view (·.control)))
    modifyMachine fun m => { m with control := if test.isTrue then thenCode else elseCode }
    return .next
  | .tsel =>
    let test ← pop
    let thenCode ← operand
    let elseCode ← operand
    modifyMachine fun m => { m with control := if test.isTrue then thenCode else elseCode }
    return .next
  | .join =>
    join
    return .next
  | .pop =>
    let _ ← pop
    return .next
  | .callp =>
    let .primitive id ← operand | fault .callsNonPrimitive
    callPrimitive id (← operandIndex)
  | .bind =>
    let name ← operandSymbol
    bindSpecial name (← pop)
    return .next
  | .unbind =>
    unbindSpecial (← operandSymbol)
    return .next
  | .block =>
    enterBlock (← operand)
    return .next
  | .blockend =>
    endBlock (← operand)
    return .next
  | .retfrom =>
    let name ← operand
    return .request (.returnFrom name (← pop))
  | .tagbody =>
    let id ← operand
    enterTagbody id (← operand)
    return .next
  | .tagend =>
    endTagbody
    done .nil
  | .go =>
    let id ← operand
    goTo id (← operand)
    return .next
  | .stop => return .stop

/-- Counts an instruction, which the step limit may refuse. -/
def count : LispM Unit := do
  modifyMachine fun m => { m with steps := m.steps + 1 }
  let m ← view id
  if let some limit := m.maxSteps then
    if limit < m.steps then
      raise .stepLimit

/-- The line of the log for an instruction about to be executed. -/
def traceLine (code : Opcode) (m : Machine) (image : Image) : String :=
  let name := code.mnemonic.pushn ' ' (8 - code.mnemonic.length)
  let top := match m.stack.top? with
    | some v => image.print v
    | none => "-"
  s!"{name} s={m.stack.height} d={m.dump.height} b={m.exits.height} top={top}"

/-- A step of the machine. -/
def step : LispM Flow := do
  count
  let code ← fetch
  let m ← view id
  if m.trace then
    Image.record .trace (traceLine code m)
  execute code

end StackLisp.Machine
