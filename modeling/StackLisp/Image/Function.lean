import StackLisp.Arity
import StackLisp.Value.Basic

/-!
# Compiled functions

What a `lambda`, `defun` or `defmacro` compiles to, and what the function cell
of a symbol can hold. The code of a function never changes once it is made. A
macro shares its code with a plain function, its *expander*, which is what runs
when the macro is expanded.
-/

namespace StackLisp

/-- Whether a compiled function runs on values or, as a macro, on forms. -/
inductive FunctionKind where
  | function | macroFunction
deriving DecidableEq, Repr, Inhabited

/-- A compiled function or macro, or the body shared by the closures of one
    `lambda` form. -/
structure CompiledFunction where
  /-- The defining symbol, none for a `lambda`. -/
  name : Option SymbolId := none
  kind : FunctionKind := .function
  arity : Arity
  /-- The instruction stream. -/
  code : Value
  /-- Part of the prelude rather than of a program. -/
  builtin : Bool := false
  /-- The function that expands a macro. -/
  expander : Option FunctionId := none
deriving DecidableEq, Repr, Inhabited

/-- Whether it is a macro. -/
def CompiledFunction.isMacro (f : CompiledFunction) : Bool :=
  f.kind == .macroFunction

/-- What the function cell of a symbol holds. -/
inductive FunctionCell where
  | unbound
  /-- While a definition is being compiled, its name stands for a function of
      known arity. -/
  | pending (arity : Arity) (kind : FunctionKind)
  | function (id : FunctionId)
  | primitive (id : PrimitiveId)
deriving DecidableEq, Repr, Inhabited

/-- Whether the cell holds anything. -/
def FunctionCell.isBound : FunctionCell → Bool
  | unbound => false
  | _ => true

end StackLisp
