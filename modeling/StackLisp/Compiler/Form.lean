import StackLisp.Compiler.Assignment
import StackLisp.Compiler.Definition
import StackLisp.Compiler.Operator

/-!
# Forms

The compiler as a rule on forms, given itself for the forms inside and a way to
expand macros. A form whose head is a symbol is, in this order, a special form, a
call of a primitive, a macro call or a call of a function; the head may also be a
`lambda` form. Calls are checked against the arity that is known when they are
compiled.
-/

namespace StackLisp.Compiler

open Interpreter

/-- How a macro is expanded: the macro on the argument forms. -/
abbrev ExpandRule := FunctionId → Value → LispM Value

variable (compile : CompileRule) (expand : ExpandRule)

/-- A call of a function by its name. -/
def compileNamedCall (name : SymbolId) (arity : Arity) (args : Value) (env : LexicalEnv)
    (cont : Value) : LispM Value := do
  let argv ← arguments args
  ofExcept (arity.check (← nameOf name) argv.length)
  let code ← emitApply argv.length cont
  let code ← compileArgs compile argv env code
  emit .gfn [.symbol name] code

/-- A call of a primitive. -/
def compilePrimitiveCall (id : PrimitiveId) (args : Value) (env : LexicalEnv) (cont : Value) :
    LispM Value := do
  let p ← asks (·.primitives.get id)
  let argv ← arguments args
  ofExcept (p.arity.check (← nameOf p.name) argv.length)
  match p.operator with
  | some operator => compileOperator compile operator args argv env cont
  | none =>
    if p.inlined then
      let code ← emit .callp [.primitive id, .ofNat argv.length] cont
      compileArgs compile argv env code
    else
      let code ← emitApply argv.length cont
      let code ← compileArgs compile argv env code
      emit .ldc [.primitive id] code

/-- A special form. -/
def compileSpecialForm (form : SpecialForm) (args : Value) (env : LexicalEnv) (cont : Value) :
    LispM Value :=
  match form with
  | .quoteForm => compileQuote args cont
  | .ifForm => compileIf compile args env cont
  | .prognForm => compileBody compile args env cont
  | .setqForm => compileSetq compile args env cont
  | .lambdaForm => compileLambda compile args env cont
  | .letForm => compileLet compile args env cont
  | .letStarForm => compileLetStar compile args env cont
  | .letrecForm => compileLetrec compile args env cont
  | .andForm => compileAnd compile args env cont
  | .orForm => compileOr compile args env cont
  | .defunForm => compileDefinition compile .function args cont
  | .defmacroForm => compileDefinition compile .macroFunction args cont

/-- A form whose head is a symbol. -/
def compileSymbolCall (name : SymbolId) (args : Value) (env : LexicalEnv) (cont : Value) :
    LispM Value := do
  match name.specialForm? with
  | some form => compileSpecialForm compile form args env cont
  | none =>
    match ← asks (·.symbols.cell name) with
    | .primitive id => compilePrimitiveCall compile id args env cont
    | .function f =>
      let function ← asks (·.function f)
      if function.isMacro then
        let expansion ← expand f args
        compile expansion env cont
      else
        compileNamedCall compile name function.arity args env cont
    | .pending _ .macroFunction => invalid "defmacro" (.macroInItself (← nameOf name))
    | .pending arity .function => compileNamedCall compile name arity args env cont
    | .unbound => raise (.undefinedFunction (← nameOf name))

/-- A form that is a pair. -/
def compilePair (id : PairId) (env : LexicalEnv) (cont : Value) : LispM Value := do
  let args ← asks (·.heap.cdr id)
  unless ← walk (·.heap.isProperList args) do
    invalid "call" (.dottedCall (← shown (.pair id)))
  match ← asks (·.heap.car id) with
  | .symbol name => compileSymbolCall compile expand name args env cont
  | head =>
    let isLambda ← asks fun image =>
      match head with
      | .pair head => image.heap.car head == Value.symbol .lambda
      | _ => false
    if isLambda then
      compileLambdaCall compile head args env cont
    else
      invalid "call" (.notFunctionName (← shown head))

/-- Compiles a form, in terms of the compiler for the forms inside. -/
def compileForm (form : Value) (env : LexicalEnv) (cont : Value) : LispM Value :=
  match form with
  | .symbol id => compileSymbol id env cont
  | .pair id => compilePair compile expand id env cont
  | _ => emit .ldc [form] cont

/-- Compiles a top-level form; its code ends the run. The scopes of an earlier
    form, and those left by a failure, are forgotten. -/
def compileToplevel (form : Value) : LispM Value := do
  modifyScopes fun s => { s.clear with pendingTails := #[] }
  Image.record .debug fun image => s!"compiling {image.print form}"
  let stop ← emit .stop [] .nil
  match ← attempt (compile form [] stop) with
  | .ok code => return code
  | .error e =>
    modifyScopes Scopes.clear
    throw e

end StackLisp.Compiler
