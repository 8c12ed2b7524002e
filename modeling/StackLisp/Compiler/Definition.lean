import StackLisp.Compiler.Function

/-!
# Definitions

`defun` and `defmacro` take effect when they are compiled. While the body is
being compiled the name is *pending*, so that a function can call itself; the
body is a block of the function's name and sees neither the variables nor the
exits around the definition. If the body does not compile, the name has its
earlier function again.
-/

namespace StackLisp.Compiler

open Interpreter

variable (compile : CompileRule)

/-- Refuses names that keep their meaning: special forms, and primitives of compile
    time. -/
def checkRedefinition (form : String) (name : SymbolId) : LispM Unit := do
  if name.isSpecialForm then
    invalid form (.redefinesForm (← nameOf name))
  if let .primitive id ← asks (·.symbols.cell name) then
    if (← asks (·.primitives.get id)).builtin.isNone then
      invalid form (.redefinesOperator (← nameOf name))

/-- Compiles outside of all blocks and tagbodies. -/
def outsideExits {α : Type} (x : LispM α) : LispM α := do
  let saved := (← get).scopes
  modifyScopes fun s => { s with blocks := [], tagbodies := [] }
  let result ← attempt x
  modifyScopes fun s => { s with blocks := saved.blocks, tagbodies := saved.tagbodies }
  resume result

/-- Gives a macro its expander, a function of the same code. -/
def addExpander (f : FunctionId) : LispM Unit := do
  let definition ← asks (·.function f)
  let expander ← Image.addFunction { definition with kind := .function }
  Image.modifyFunction f fun definition => { definition with expander := some expander }

/-- `(defun name params body ...)` or `(defmacro name params body ...)`, without
    its head. -/
def compileDefinition (kind : FunctionKind) (args cont : Value) : LispM Value := do
  let form := if kind = .macroFunction then "defmacro" else "defun"
  match ← arguments args with
  | nameForm :: params :: _ =>
    let some name := nameForm.symbol? | invalid form (.notSymbol (← shown nameForm))
    checkRedefinition form name
    let frame ← parseLambdaList form params
    let previous ← asks (·.symbols.cell name)
    SymbolTable.setCell name (.pending (frameArity frame) kind)
    let body ← query fun image => do image.heap.tail (← image.heap.tail args)
    let body ← Heap.cons (.ofSymbol name) body
    let block ← Heap.cons (.symbol .block) body
    let body ← Heap.list [block]
    let f ← match ← attempt (outsideExits (compileFunction compile name kind params body [])) with
      | .ok f => pure f
      | .error e =>
        SymbolTable.setCell name previous
        throw e
    if kind = .macroFunction then
      addExpander f
    SymbolTable.setCell name (.function f)
    Image.record .debug fun image =>
      let what := if kind = .macroFunction then "macro" else "function"
      s!"defined {what} {image.symbols.name name}"
    emit .ldc [.ofSymbol name] cont
  | _ => invalid form .nameAndParameters

end StackLisp.Compiler
