import StackLisp.Compiler.LambdaList

/-!
# Functions and bindings

Rules for `lambda`, `let`, `let*` and `letrec`. The body of each is the code of a
function whose parameters are the bound variables:

* `(lambda (x ...) body ...)` loads a closure of it;
* `(let ((x init) ...) body ...)` calls such a closure on the values;
* `(letrec ((x init) ...) body ...)` computes the values under a dummy frame, so
  that closures among them see the variables, and fills it with the values.

Special parameters are bound dynamically on entry and unbound before the return.
-/

namespace StackLisp.Compiler

open Interpreter

variable (compile : CompileRule)

/-- Compiles inside one more function. -/
def insideFunction {α : Type} (x : LispM α) : LispM α := do
  modifyScopes fun s => { s with functionDepth := s.functionDepth + 1 }
  let result ← attempt x
  modifyScopes fun s => { s with functionDepth := s.functionDepth - 1 }
  resume result

/-- The special parameters of a frame, with their slots. -/
def specialParameters (frame : LexicalFrame) : LispM (List (SymbolId × Nat)) :=
  asks fun image => frame.names.zipIdx.filter fun (name, _) => image.symbols.isSpecial name

/-- The code of a function whose parameters are the variables of a frame. -/
def compileFunctionBody (frame : LexicalFrame) (body : Value) (env : LexicalEnv) : LispM Value := do
  let specials ← specialParameters frame
  let rtn ← emit .rtn [] .nil
  let tail ← specials.foldlM (fun code (name, _) => emit .unbind [.symbol name] code) rtn
  let code ← insideFunction (compileBody compile body (frame :: env) tail)
  specials.foldrM (fun (name, slot) code => do
    let code ← emit .bind [.symbol name] code
    let load := if frame.rest = some slot then .ldr else .ld
    emit load [.ofNat 0, .ofNat slot] code) code

/-- Enters a function without a name into the table. -/
def addAnonymous (arity : Arity) (code : Value) : LispM FunctionId := do
  let builtin ← asks (·.definingBuiltins)
  Image.addFunction { arity, code, builtin }

/-- A compiled function of given parameters and body. -/
def compileFunction (name : Option SymbolId) (kind : FunctionKind) (params body : Value)
    (env : LexicalEnv) : LispM FunctionId := do
  let form := if kind = .macroFunction then "defmacro" else "lambda"
  let frame ← parseLambdaList form params
  let code ← compileFunctionBody compile frame body env
  let builtin ← asks (·.definingBuiltins)
  Image.addFunction { name, kind, arity := frameArity frame, code, builtin }

/-- `(lambda params body ...)`, without its head. -/
def compileLambda (args : Value) (env : LexicalEnv) (cont : Value) : LispM Value := do
  let params ← query (·.heap.head args)
  let body ← query (·.heap.tail args)
  let f ← compileFunction compile none .function params body env
  emit .ldf [.function f] cont

/-- `((lambda params body ...) arg ...)`. -/
def compileLambdaCall (lambda args : Value) (env : LexicalEnv) (cont : Value) : LispM Value := do
  let argv ← arguments args
  let params ← query (·.heap.second lambda)
  let frame ← parseLambdaList "lambda" params
  ofExcept ((frameArity frame).check "lambda" argv.length)
  let code ← emitApply argv.length cont
  let code ← compileArgs compile argv env code
  compileLambda compile (← query (·.heap.tail lambda)) env code

/-- `(let bindings body ...)`, without its head. -/
def compileLet (args : Value) (env : LexicalEnv) (cont : Value) : LispM Value := do
  let bindings ← query (·.heap.head args)
  let body ← query (·.heap.tail args)
  let bindings ← parseBindings "let" bindings
  if bindings.isEmpty then
    compileBody compile body env cont
  else
    let code ← compileFunctionBody compile { names := bindings.map (·.1) } body env
    let f ← addAnonymous (.exactly bindings.length) code
    let code ← emitApply bindings.length cont
    let code ← compileArgs compile (bindings.map (·.2)) env code
    emit .ldf [.function f] code

/-- `(let* (b ...) body ...)`, without its head: a `let` of the first binding
    around a `let*` of the others. -/
def compileLetStar (args : Value) (env : LexicalEnv) (cont : Value) : LispM Value := do
  let bindings ← query (·.heap.head args)
  let body ← query (·.heap.tail args)
  match ← elements? bindings with
  | none => invalid "let*" .bindingsNotList
  | some (first :: _ :: _) =>
    let others ← query (·.heap.tail bindings)
    let inner ← Heap.cons others body
    let inner ← Heap.cons (.symbol .letStar) inner
    let first ← Heap.list [first]
    let outerBody ← Heap.list [inner]
    let outer ← Heap.cons first outerBody
    compileLet compile outer env cont
  | some _ => compileLet compile args env cont

/-- `(letrec bindings body ...)`, without its head. -/
def compileLetrec (args : Value) (env : LexicalEnv) (cont : Value) : LispM Value := do
  let bindings ← query (·.heap.head args)
  let body ← query (·.heap.tail args)
  let bindings ← parseBindings "letrec" bindings
  if bindings.isEmpty then
    compileBody compile body env cont
  else
    let names := bindings.map (·.1)
    if let some name ← asks fun image => names.find? image.symbols.isSpecial then
      invalid "letrec" (.specialVariable (← nameOf name))
    let count := names.length
    let inner : LexicalEnv := { names } :: env
    let rtn ← emit .rtn [] .nil
    let code ← insideFunction (compileBody compile body inner rtn)
    let f ← addAnonymous (.exactly count) code
    let code ← emit .rap [.ofNat count] cont
    let code ← compileArgs compile (bindings.map (·.2)) inner code
    let code ← emit .ldf [.function f] code
    emit .dum [.ofNat count] code

end StackLisp.Compiler
