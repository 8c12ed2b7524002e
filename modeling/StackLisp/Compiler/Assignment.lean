import StackLisp.Compiler.LambdaList

/-!
# Variables, constants, branches

Rules for the forms without a function body: variables, `quote`, `if`, `and`,
`or` and `setq`.

* A branch in tail position needs no continuation of its own: both arms run to
  the end of the code.
* `(and a b ...)` is `(if a (and b ...) nil)`.
* `(or a b ...)` keeps the value of `a` in a fresh special variable, which is
  bound while `(if a a (or b ...))` is decided.
-/

namespace StackLisp.Compiler

open Interpreter

variable (compile : CompileRule)

/-- Warns about a variable that is neither bound nor special. -/
def warnFree (id : SymbolId) : LispM Unit := do
  if ← asks fun image => image.warnFreeVariables && !image.symbols.isBound id then
    let warning := s!"free variable {← nameOf id} is not declared special"
    Image.record .warn fun _ => warning
    modifyScopes fun s => { s with warnings := s.warnings.push warning }

/-- A symbol as a form: a keyword is a constant, a special variable is global, and
    any other is looked up in the lexical environment first. -/
def compileSymbol (id : SymbolId) (env : LexicalEnv) (cont : Value) : LispM Value := do
  if ← asks (·.symbols.isKeyword id) then
    emit .ldc [.symbol id] cont
  else if ← asks (·.symbols.isSpecial id) then
    emit .ldg [.symbol id] cont
  else
    match env.resolve id with
    | some a => emit (if a.rest then .ldr else .ld) [.ofNat a.frame, .ofNat a.slot] cont
    | none =>
      warnFree id
      emit .ldg [.symbol id] cont

/-- `(quote x)`, without its head. -/
def compileQuote (args cont : Value) : LispM Value := do
  match ← elements? args with
  | some [x] => emit .ldc [x] cont
  | _ => invalid "quote" .oneArgument

/-- A test, and one of two forms by its value. -/
def compileBranches (test thenForm elseForm : Value) (env : LexicalEnv) (cont : Value) :
    LispM Value := do
  let branch ← match ← tailOf cont with
    | .elsewhere =>
      let join ← emit .join [] .nil
      let thenCode ← compile thenForm env join
      let elseCode ← compile elseForm env join
      emit .sel [thenCode, elseCode] cont
    | _ =>
      let thenCode ← compile thenForm env cont
      let elseCode ← compile elseForm env cont
      emit .tsel [thenCode, elseCode] .nil
  compile test env branch

/-- `(if test then else)`, without its head. -/
def compileIf (args : Value) (env : LexicalEnv) (cont : Value) : LispM Value := do
  match ← arguments args with
  | [test, thenForm] => compileBranches compile test thenForm .nil env cont
  | [test, thenForm, elseForm] => compileBranches compile test thenForm elseForm env cont
  | _ => invalid "if" .branches

/-- `(and a ...)`, without its head. -/
def compileAnd (args : Value) (env : LexicalEnv) (cont : Value) : LispM Value := do
  match (← arguments args).reverse with
  | [] => emit .ldc [.t] cont
  | last :: before =>
    let form ← before.foldlM (fun form test => Heap.list [.symbol .ifSymbol, test, form, .nil]) last
    compile form env cont

/-- `(or a ...)`, without its head. -/
def compileOr (args : Value) (env : LexicalEnv) (cont : Value) : LispM Value := do
  match ← arguments args with
  | [] => emit .ldc [.nil] cont
  | [a] => compile a env cont
  | a :: _ =>
    let g ← SymbolTable.gensym "or"
    SymbolTable.declareSpecial g
    let others ← query (·.heap.tail args)
    let otherwise ← Heap.cons (.symbol .orSymbol) others
    let test ← Heap.list [.symbol .ifSymbol, .symbol g, .symbol g, otherwise]
    let unbind ← emit .unbind [.symbol g] cont
    let code ← compile test env unbind
    let code ← emit .bind [.symbol g] code
    compile a env code

/-- The store of the value on the stack into a variable. -/
def emitStore (var : SymbolId) (env : LexicalEnv) (cont : Value) : LispM Value := do
  let special ← asks (·.symbols.isSpecial var)
  match if special then none else env.resolve var with
  | some a => emit (if a.rest then .setlr else .setl) [.ofNat a.frame, .ofNat a.slot] cont
  | none => emit .setg [.symbol var] cont

/-- Assignments of variables, given as variables and forms in turn, in front of a
    continuation that gets the last value. -/
def compileAssignments (env : LexicalEnv) (cont : Value) : List Value → LispM Value
  | var :: form :: others => do
    let code ← compileAssignments env cont others
    let code ← if others.isEmpty then pure code else emit .pop [] code
    let var ← assignable "setq" var
    let code ← emitStore var env code
    compile form env code
  | _ => pure cont

/-- `(setq x form ...)`, without its head. -/
def compileSetq (args : Value) (env : LexicalEnv) (cont : Value) : LispM Value := do
  let items ← arguments args
  if items.isEmpty then
    emit .ldc [.nil] cont
  else if items.length % 2 ≠ 0 then
    invalid "setq" .oddArguments
  else
    compileAssignments compile env cont items

end StackLisp.Compiler
