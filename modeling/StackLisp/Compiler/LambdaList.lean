import StackLisp.Compiler.Emit

/-!
# Lambda lists and bindings

The parameters of a function, `(a b &rest c)`, `(a b &body c)` or `(a b . c)`,
and the bindings of a `let`, `x`, `(x)` or `(x init)`. Parameters and bound
variables are symbols that are not constants.
-/

namespace StackLisp.Compiler

open Interpreter

/-- The arity of a function with the variables of a frame as parameters. -/
def frameArity (frame : LexicalFrame) : Arity :=
  match frame.rest with
  | some _ => .atLeast (frame.names.length - 1)
  | none => .exactly frame.names.length

/-- A symbol that may be assigned or bound. -/
def assignable (form : String) (var : Value) : LispM SymbolId := do
  match var.symbol? with
  | none => invalid form (.notSymbol (← shown var))
  | some id =>
    if ← asks (·.symbols.isConstant id) then
      raise (.constantRedefinition (← nameOf id))
    return id

/-- Whether a symbol announces a rest parameter. -/
def isRestKeyword (id : SymbolId) : Bool := id = .ampersandRest || id = .ampersandBody

/-- A symbol that may be a parameter. -/
def parameter (form : String) (var : Value) : LispM SymbolId := do
  match var.symbol? with
  | none => invalid form (.notParameterName (← shown var))
  | some id =>
    if ← asks (·.symbols.isConstant id) then
      raise (.constantRedefinition (← nameOf id))
    if isRestKeyword id then
      invalid form .misplacedKeyword
    return id

/-- The frame of parameters that ends in a rest parameter; `names` come before it,
    the latest first. -/
def frameWithRest (names : List SymbolId) (rest : SymbolId) : LexicalFrame :=
  ⟨(rest :: names).reverse, some names.length⟩

/-- Parses the rest of a lambda list; `names` come before it, the latest first. -/
def parseParameters (form : String) (params : Value) (names : List SymbolId) (ending : SpineEnd) :
    List Value → LispM LexicalFrame
  | [] =>
    match ending with
    | .proper => pure ⟨names.reverse, none⟩
    | .dotted var => do return frameWithRest names (← parameter form var)
    | .circular => throw .endless
  | item :: items => do
    let some name := item.symbol? | invalid form (.malformedParameters (← shown params))
    if isRestKeyword name then
      match items, ending with
      | _, .circular => throw .endless
      | [var], .proper => return frameWithRest names (← parameter form var)
      | _, _ => invalid form (.malformedParameters (← shown params))
    else
      let name ← parameter form item
      parseParameters form params (name :: names) ending items

/-- Parses a lambda list. -/
def parseLambdaList (form : String) (params : Value) : LispM LexicalFrame := do
  let spine ← asks (·.heap.spine params)
  parseParameters form params [] spine.ending spine.items

/-- Parses a binding into its variable and the form of its value. -/
def parseBinding (form : String) (binding : Value) : LispM (SymbolId × Value) := do
  let (var, init) ← match binding with
    | .pair _ =>
      match ← elements? binding with
      | some [var] => pure (var, .nil)
      | some [var, init] => pure (var, init)
      | _ => invalid form (.malformedBinding (← shown binding))
    | var => pure (var, .nil)
  return (← assignable form var, init)

/-- Parses a list of bindings. -/
def parseBindings (form : String) (bindings : Value) : LispM (List (SymbolId × Value)) := do
  match ← elements? bindings with
  | some items => items.mapM (parseBinding form)
  | none => invalid form .bindingsNotList

end StackLisp.Compiler
