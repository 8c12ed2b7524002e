import StackLisp.Compiler.Form
import StackLisp.Machine.Step

/-!
# Evaluation

Compiling and running depend on each other: the compiler runs the expanders of
macros, and running code may compile forms. Both are defined together, by
recursion on a bound (`fuel`) for the nesting of the compiler and the length of
runs; a computation that needs more is endless.

* `Interpreter.compileFrom` compiles a form.
* `Interpreter.runFrom` runs the machine until it stops.
* `Interpreter.execute` runs a piece of code in registers of its own, whether or
  not another run is going on. Dynamic bindings that a failed run has left are
  ended.
-/

namespace StackLisp.Interpreter

open Machine Compiler

/-! ## Runs -/

/-- The environment of a run on arguments: one frame of them, if there are any. -/
def argumentEnv (args : List Value) : HeapM Value :=
  if args.isEmpty then
    pure .nil
  else do
    let frame ← Heap.allocFrame args
    Heap.cons (.frame frame) .nil

/-- Runs code on arguments and gives the value it leaves on the stack. The
    outermost run starts to count its steps anew. -/
def execute (run : LispM Unit) (code : Value) (args : List Value) : LispM Value := do
  let env ← argumentEnv args
  let before := (← get).machine
  modifyMachine fun m =>
    { m with
      toRegisters := { env, control := code }
      steps := if m.nesting = 0 then 0 else m.steps
      nesting := m.nesting + 1 }
  let result ← attempt (do run; pop)
  modifyMachine fun m => { m with nesting := m.nesting - 1 }
  if let .error _ := result then
    unwindBindings before.bindings.height
  modifyMachine fun m => { m with toRegisters := before.toRegisters }
  resume result

/-- Calls a function value on arguments in a run of its own. -/
def apply (run : LispM Unit) (f : Value) (args : List Value) : LispM Value := do
  let load := fun v => [.op .ldc, v]
  let code ← Heap.list
    ((f :: args).flatMap load ++ [.op .ap, .ofNat args.length, .op .stop])
  execute run code []

/-! ## Macros -/

/-- Expands a macro on argument forms. -/
def expandMacro (run : LispM Unit) (f : FunctionId) (args : Value) : LispM Value := do
  let name ← asks (·.functionName f)
  let definition ← asks (·.function f)
  let some expander := definition.expander | fault (.macroWithoutExpander name)
  let some argv ← elements? args | invalid name .dottedArguments
  checkArity definition.arity name argv.length
  let closure ← Heap.alloc (.function expander) .nil
  apply run (.closure closure) argv

/-- Expands a form once if it is a macro call, and tells whether it was. -/
def macroexpandOnce (expand : ExpandRule) (form : Value) : LispM (Value × Bool) := do
  let call? ← asks fun image =>
    match form with
    | .pair id =>
      match image.heap.car id with
      | .symbol head =>
        match image.symbols.cell head with
        | .function f => if (image.function f).isMacro then some (f, image.heap.cdr id) else none
        | _ => none
      | _ => none
    | _ => none
  match call? with
  | some (f, args) => return (← expand f args, true)
  | none => return (form, false)

/-- Expands a form until it is no macro call, at most `fuel` times. -/
def macroexpandFrom (expand : ExpandRule) : Nat → Value → LispM Value
  | 0, _ => throw .endless
  | fuel + 1, form => do
    let (expansion, expanded) ← macroexpandOnce expand form
    if expanded then macroexpandFrom expand fuel expansion else return expansion

/-! ## Requests -/

/-- Compiles a top-level form in scopes of its own. -/
def compileApart (compile : CompileRule) (form : Value) : LispM Value := do
  let scopes := (← get).scopes
  modifyScopes fun _ => {}
  let result ← attempt (compileToplevel compile form)
  modifyScopes fun _ => scopes
  resume result

/-- Serves a request of the machine. -/
def serve (compile : CompileRule) (run : LispM Unit) (fuel : Nat) : Request → LispM Flow
  | .call argc mode => call argc mode
  | .returnFrom target value => do
    exitBlock target value fuel 0
    return .next
  | .macroexpandOnce form => do
    let (expansion, _) ← macroexpandOnce (expandMacro run) form
    done expansion
  | .macroexpand form => do
    done (← macroexpandFrom (expandMacro run) fuel form)
  | .eval form => do
    let code ← compileApart compile form
    done (← execute run code [])

mutual

/-- Compiles a form in front of a continuation. -/
def compileFrom : Nat → CompileRule
  | 0, _, _, _ => throw .endless
  | fuel + 1, form, env, cont =>
    compileForm (compileFrom fuel) (expandMacro (runFrom fuel .next)) form env cont

/-- Runs the machine until it stops. -/
def runFrom : Nat → Flow → LispM Unit
  | 0, _ => throw .endless
  | _ + 1, .stop => pure ()
  | fuel + 1, .next => do runFrom fuel (← step)
  | fuel + 1, .request r => do
    runFrom fuel (← serve (compileFrom fuel) (runFrom fuel .next) fuel r)

end

end StackLisp.Interpreter
