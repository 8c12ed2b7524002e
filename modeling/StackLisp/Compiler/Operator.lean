import StackLisp.Compiler.Function

/-!
# Operators of compile time

Rules for the primitives that generate their own code: blocks and returns,
tagbodies and jumps, `function`, and the declarations `defvar` and
`defparameter`.

* `(block name form ...)` is `BLOCK name`, the forms, `BLOCKEND name`.
* `(return-from name form)` is the form and `RETFROM name`; the code after it is
  what the machine walks to reach the end of the block.
* `(tagbody item ...)` is `TAGBODY id table`, the forms, each followed by `POP`,
  and `TAGEND`. The table maps each tag to the code after it.
-/

namespace StackLisp.Compiler

open Interpreter

variable (compile : CompileRule)

/-! ## Functions -/

/-- Refuses names that do not stand for a function. -/
def checkFunctionName (name : SymbolId) : LispM Unit := do
  if name.isSpecialForm then
    invalid "function" (.isSpecialForm (← nameOf name))
  match ← asks (·.symbols.cell name) with
  | .function f =>
    if (← asks (·.function f)).isMacro then
      invalid "function" (.isMacro (← nameOf name))
  | .pending _ .macroFunction => invalid "function" (.isMacro (← nameOf name))
  | .primitive id =>
    if (← asks (·.primitives.get id)).builtin.isNone then
      invalid "function" (.isOperator (← nameOf name))
  | _ => pure ()

/-- `(function name)` or `(function (lambda ...))`, without its head. -/
def compileFunctionForm (args : Value) (env : LexicalEnv) (cont : Value) : LispM Value := do
  let target ← query (·.heap.head args)
  let lambda? ← asks fun image =>
    match target with
    | .pair id => if image.heap.car id = .symbol .lambda then some (image.heap.cdr id) else none
    | _ => none
  match lambda? with
  | some lambdaArgs => compileLambda compile lambdaArgs env cont
  | none =>
    let some name := target.symbol? | invalid "function" (.notFunctionName (← shown target))
    checkFunctionName name
    emit .gfn [.symbol name] cont

/-! ## Blocks -/

/-- Closes the innermost block: the pending tail calls that leave it are settled. -/
def closeBlock : LispM Unit := do
  let scopes := (← get).scopes
  if let block :: blocks := scopes.blocks then
    modifyScopes fun s => { s with blocks }
    block.tailCalls.reverse.forM fun index => do
      modifyScopes fun s =>
        { s with pendingTails := s.pendingTails.modify index (·.close block.captured) }
      if let some p := (← get).scopes.pendingTails[index]? then
        if p.openScopes = 0 ∧ ¬p.blocked then
          (modify (·.setCar p.pair (.op .tap)) : HeapM Unit)

/-- Compiles the body of a block; the continuation starts with its end. -/
def compileInBlock (name body : Value) (env : LexicalEnv) (cont : Value) : LispM Value := do
  modifyScopes fun s =>
    { s with blocks := { name, functionDepth := s.functionDepth } :: s.blocks }
  let result ← attempt (compileBody compile body env cont)
  closeBlock
  resume result

/-- Refuses what is not the name of a block. -/
def checkBlockName (form : String) (name : Value) : LispM Unit := do
  unless name.isSymbol do
    invalid form (.notBlockName (← shown name))

/-- `(block name form ...)`, without its head. -/
def compileBlock (args : Value) (env : LexicalEnv) (cont : Value) : LispM Value := do
  let name ← query (·.heap.head args)
  checkBlockName "block" name
  let body ← query (·.heap.tail args)
  let blockEnd ← emit .blockend [name] cont
  let code ← compileInBlock compile name body env blockEnd
  emit .block [name] code

/-- The return of the value of a form from a block. -/
def compileReturn (name form : Value) (env : LexicalEnv) (cont : Value) : LispM Value := do
  match (← get).scopes.targetBlock name with
  | none => raise (.unmatchedTarget .block (← shown name))
  | some scopes =>
    modifyScopes fun _ => scopes
    let code ← emit .retfrom [name] cont
    compile form env code

/-- `(return-from name form)`, without its head. -/
def compileReturnFrom (args : List Value) (env : LexicalEnv) (cont : Value) : LispM Value := do
  let name := args.headD .nil
  checkBlockName "return-from" name
  compileReturn compile name ((args[1]?).getD .nil) env cont

/-! ## Tagbodies -/

/-- Compiles with the tags of a tagbody in scope. -/
def withTags {α : Type} (id : Value) (tags : List Value) (x : LispM α) : LispM α := do
  modifyScopes fun s => { s with tagbodies := ⟨id, tags⟩ :: s.tagbodies }
  let result ← attempt x
  modifyScopes fun s => { s with tagbodies := s.tagbodies.tail }
  resume result

/-- The tags among the items of a tagbody, which have to differ; `before` are those
    of earlier items, the latest first. -/
def collectTags (before : List Value) : List Value → LispM (List Value)
  | [] => pure before.reverse
  | item :: items => do
    if item.isPair then
      collectTags before items
    else
      unless item.isSymbol || item.isInt do
        invalid "tagbody" (.notTag (← shown item))
      if before.contains item then
        invalid "tagbody" (.duplicateTag (← shown item))
      collectTags (item :: before) items

/-- `(tagbody item ...)`, without its head. -/
def compileTagbody (items : List Value) (env : LexicalEnv) (cont : Value) : LispM Value := do
  let tags ← collectTags [] items
  let id : Value := .symbol (← SymbolTable.gensym "tagbody")
  let (table, code) ← withTags id tags do
    let tagEnd ← emit .tagend [] cont
    let (entries, code) ← items.foldrM (fun item (entries, code) => do
      if item.isPair then
        let pop ← emit .pop [] code
        return (entries, ← compile item env pop)
      else
        let entry ← Heap.cons item code
        return (entry :: entries, code)) (([] : List Value), tagEnd)
    let table ← Heap.list entries
    return (table, code)
  emit .tagbody [id, table] code

/-- `(go tag)`, without its head. -/
def compileGo (args cont : Value) : LispM Value := do
  let tag ← query (·.heap.head args)
  match (← get).scopes.targetTag tag with
  | some id => emit .go [id, tag] cont
  | none => raise (.unmatchedTarget .tag (← shown tag))

/-! ## Declarations -/

/-- Declares a variable special. -/
def declare (form : String) (var : Value) : LispM SymbolId := do
  match var with
  | .symbol id =>
    SymbolTable.declareSpecial id
    return id
  | _ => invalid form (.notVariableName (← shown var))

/-- `(defvar x init)`, without its head: assigns `x` unless it has a value, and gives
    its name. -/
def compileDefvar (args : List Value) (env : LexicalEnv) (cont : Value) : LispM Value := do
  let id ← declare "defvar" (args.headD .nil)
  let name : Value := .symbol id
  let code ← emit .ldc [name] cont
  match args[1]? with
  | none => return code
  | some init =>
    let quoted ← Heap.list [.symbol .quote, name]
    let test ← Heap.list [.symbol .boundp, quoted]
    let assign ← Heap.list [.symbol .setq, name, init]
    let form ← Heap.list [.symbol .ifSymbol, test, .nil, assign]
    let pop ← emit .pop [] code
    compile form env pop

/-- `(defparameter x init)`, without its head: assigns `x` and gives its name. -/
def compileDefparameter (args : List Value) (env : LexicalEnv) (cont : Value) : LispM Value := do
  let id ← declare "defparameter" (args.headD .nil)
  let name : Value := .symbol id
  let code ← emit .ldc [name] cont
  let assign ← Heap.list [.symbol .setq, name, (args[1]?).getD .nil]
  let pop ← emit .pop [] code
  compile assign env pop

/-- The form of an operator, given its arguments as a list and one by one. -/
def compileOperator (operator : Operator) (args : Value) (argv : List Value) (env : LexicalEnv)
    (cont : Value) : LispM Value :=
  match operator with
  | .function => compileFunctionForm compile args env cont
  | .block => compileBlock compile args env cont
  | .returnFrom => compileReturnFrom compile argv env cont
  | .returnNil => compileReturn compile .nil (argv.headD .nil) env cont
  | .tagbody => compileTagbody compile argv env cont
  | .go => compileGo args cont
  | .defvar => compileDefvar compile argv env cont
  | .defparameter => compileDefparameter compile argv env cont

end StackLisp.Compiler
