import StackLisp.Image.Listing
import StackLisp.Interpreter.Config
import StackLisp.Interpreter.Evaluation
import StackLisp.Interpreter.Prelude
import StackLisp.Reading.Form

/-!
# Sessions

What one does with an interpreter: start it, compile and evaluate forms, load
text, and take what programs have printed and what the compiler has warned
about.

Every action works within `Interpreter.horizon`, a number of steps too large for
any run to come to its end.
-/

namespace StackLisp.Interpreter

open Machine Compiler

/-- The bound on the steps of every computation. -/
def horizon : Nat := Nat.pow 2 62

/-- The machine running until it stops. -/
def run : LispM Unit := runFrom horizon .next

/-- Compiles a top-level form without running it. -/
def compile (form : Value) : LispM Value := compileToplevel (compileFrom horizon) form

/-- Compiles a form in a lexical environment, in front of a continuation, apart
    from the top-level forms; gives the code and the warnings. -/
def compileIn (form : Value) (env : LexicalEnv) (cont : Value) : LispM (Value × Array String) := do
  let scopes := (← get).scopes
  modifyScopes fun _ => {}
  let result ← attempt (compileFrom horizon form env cont)
  let warnings := (← get).scopes.warnings
  modifyScopes fun _ => scopes
  return (← resume result, warnings)

/-- Runs code on arguments. -/
def runCode (code : Value) (args : List Value) : LispM Value := execute run code args

/-- Calls a function value on arguments. -/
def applyTo (f : Value) (args : List Value) : LispM Value := apply run f args

/-- Compiles and runs a top-level form. The counts start anew. -/
def eval (form : Value) : LispM Value := do
  let code ← compile form
  clearCounts
  runCode code []

/-- Expands a form once if it is a macro call, and tells whether it was. -/
def expandOnce (form : Value) : LispM (Value × Bool) := macroexpandOnce (expandMacro run) form

/-- Expands a form until it is no macro call. -/
def expandFully (form : Value) : LispM Value := macroexpandFrom (expandMacro run) horizon form

/-- Evaluates the forms of a text one by one, read within a bound, and gives the
    last value. -/
def evalForms : Nat → List Char → Value → LispM Value
  | 0, _, _ => throw .endless
  | fuel + 1, text, last => do
    match ← Image.readWithin (fuel + 1) text with
    | none => return last
    | some (form, rest, _) => evalForms fuel rest (← eval form)

/-- Evaluates a text and gives the value of its last form. A form is read after the
    forms before it have been evaluated. -/
def evalText (text : String) : LispM Value :=
  let cs := text.toList
  evalForms (Reading.bound cs) cs .nil

/-- Evaluates the text of a file. -/
def loadText (path text : String) : LispM Value := do
  Image.record .debug fun _ => s!"loading {path}"
  evalText text

/-- Loads the prelude. Its definitions are marked as builtin. -/
def loadPrelude : LispM Unit := do
  modify fun s => { s with image.definingBuiltins := true }
  let result ← attempt (evalText Prelude.text)
  modify fun s => { s with image.definingBuiltins := false }
  let _ ← resume result
  modifyScopes fun s => { s with warnings := #[] }
  Image.record .debug fun image =>
    s!"prelude loaded: {image.functions.size} functions, {image.heap.pairCount} cells"

/-- Registers the primitives and loads what is configured. -/
def setUp (config : Config) : LispM Unit := do
  Primitive.library.forM fun d => do
    let _ ← Image.register d
  if config.loadPrelude then
    loadPrelude

/-- An interpreter before it is set up. -/
def blank (config : Config) (level : LogLevel) : Interpreter :=
  { image :=
      { heap := .empty config.heapCapacity
        warnFreeVariables := config.warnFreeVariables
        draws := config.draws
        log := { level } }
    machine := { maxSteps := config.maxSteps, trace := config.trace } }

/-- Starts an interpreter that logs at a level. -/
def start (config : Config) (level : LogLevel) : EStateM.Result Failure Interpreter Unit :=
  setUp config (blank config level)

/-- Takes what programs have printed. -/
def takeOutput : LispM String :=
  modifyGet fun s => (s.image.output, { s with image.output := "" })

/-- Takes the warnings of the compiler. -/
def takeWarnings : LispM (Array String) :=
  modifyGet fun s => (s.scopes.warnings, { s with scopes.warnings := #[] })

/-- Takes the records of the log. -/
def takeLog : LispM (Array LogRecord) :=
  modifyGet fun s => (s.image.log.records, { s with image.log.records := #[] })

end StackLisp.Interpreter
