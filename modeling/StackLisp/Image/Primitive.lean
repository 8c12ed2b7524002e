import StackLisp.Image.Symbol

/-!
# Primitives

Operators that are not written in Lisp. A primitive is what a symbol's function
cell holds for them: an arity, a way to be called and, possibly, a way to be
compiled.

* `Builtin` enumerates what primitives do at run time.
* `Operator` enumerates those that generate their own code; a primitive with an
  operator and no builtin exists at compile time only.
* An *inlined* primitive is called by its own instruction on evaluated
  arguments; one that is not is called like any function value.

`Primitive.library` is what every image starts with.
-/

namespace StackLisp

/-- What a primitive does when it is called. -/
inductive Builtin where
  | cons | car | cdr | rplaca | rplacd | list | listStar | append | length | reverse
  | eq | equal | atom | consp | listp | symbolp | numberp | functionp | null
  | add | sub | mul | mod | inc | dec
  | numEq | numNe | lt | gt | le | ge | zerop | min | max | abs | random
  | print | error
  | funcall | apply
  | symbolValue | set | symbolFunction | fboundp | boundp | gensym
  | macroexpandOnce | macroexpand | eval
deriving DecidableEq, Repr

/-- How a primitive that exists at compile time generates its code. -/
inductive Operator where
  | function | block | returnFrom | returnNil | tagbody | go | defvar | defparameter
deriving DecidableEq, Repr

/-- A primitive under the name it is registered by. -/
structure PrimitiveDefinition where
  name : String
  arity : Arity
  /-- Called by an instruction of its own rather than as a function value. -/
  inlined : Bool
  operator : Option Operator := none
  builtin : Option Builtin := none
deriving DecidableEq, Repr

/-- A registered primitive. -/
structure Primitive where
  name : SymbolId
  arity : Arity
  inlined : Bool
  operator : Option Operator
  builtin : Option Builtin
deriving DecidableEq, Repr, Inhabited

namespace PrimitiveDefinition

/-- An inlined primitive. -/
def inline (name : String) (arity : Arity) (builtin : Builtin) : PrimitiveDefinition :=
  { name, arity, inlined := true, builtin := some builtin }

/-- A primitive that is called as a function value. -/
def called (name : String) (arity : Arity) (builtin : Builtin) : PrimitiveDefinition :=
  { name, arity, inlined := false, builtin := some builtin }

/-- A primitive of compile time. -/
def special (name : String) (arity : Arity) (operator : Operator) : PrimitiveDefinition :=
  { name, arity, inlined := true, operator := some operator }

end PrimitiveDefinition

namespace Primitive

open PrimitiveDefinition Arity

/-- The primitives of every image, in the order they are registered. -/
def library : List PrimitiveDefinition :=
  [ -- Pairs and lists
    inline "cons" (exactly 2) .cons,
    inline "car" (exactly 1) .car,
    inline "cdr" (exactly 1) .cdr,
    inline "rplaca" (exactly 2) .rplaca,
    inline "rplacd" (exactly 2) .rplacd,
    inline "list" (atLeast 0) .list,
    inline "list*" (atLeast 1) .listStar,
    inline "append" (atLeast 0) .append,
    inline "length" (exactly 1) .length,
    inline "reverse" (exactly 1) .reverse,
    -- Equality and types
    inline "eq" (exactly 2) .eq,
    inline "eql" (exactly 2) .eq,
    inline "equal" (exactly 2) .equal,
    inline "atom" (exactly 1) .atom,
    inline "consp" (exactly 1) .consp,
    inline "listp" (exactly 1) .listp,
    inline "symbolp" (exactly 1) .symbolp,
    inline "numberp" (exactly 1) .numberp,
    inline "functionp" (exactly 1) .functionp,
    inline "null" (exactly 1) .null,
    inline "not" (exactly 1) .null,
    -- Fixnums
    inline "+" (atLeast 0) .add,
    inline "-" (atLeast 1) .sub,
    inline "*" (atLeast 0) .mul,
    inline "mod" (exactly 2) .mod,
    inline "1+" (exactly 1) .inc,
    inline "1-" (exactly 1) .dec,
    inline "=" (atLeast 1) .numEq,
    inline "/=" (atLeast 1) .numNe,
    inline "<" (atLeast 1) .lt,
    inline ">" (atLeast 1) .gt,
    inline "<=" (atLeast 1) .le,
    inline ">=" (atLeast 1) .ge,
    inline "zerop" (exactly 1) .zerop,
    inline "min" (atLeast 1) .min,
    inline "max" (atLeast 1) .max,
    inline "abs" (exactly 1) .abs,
    inline "random" (exactly 1) .random,
    -- Output and errors
    inline "print" (exactly 1) .print,
    inline "error" (atLeast 1) .error,
    -- Calls
    inline "funcall" (atLeast 1) .funcall,
    inline "apply" (atLeast 2) .apply,
    -- Symbols
    inline "symbol-value" (exactly 1) .symbolValue,
    inline "set" (exactly 2) .set,
    inline "symbol-function" (exactly 1) .symbolFunction,
    inline "fboundp" (exactly 1) .fboundp,
    inline "boundp" (exactly 1) .boundp,
    inline "gensym" (between 0 1) .gensym,
    -- The compiler at run time
    called "macroexpand-1" (exactly 1) .macroexpandOnce,
    called "macroexpand" (exactly 1) .macroexpand,
    called "eval" (exactly 1) .eval,
    -- Compile time
    special "function" (exactly 1) .function,
    special "block" (atLeast 1) .block,
    special "return-from" (between 1 2) .returnFrom,
    special "return" (between 0 1) .returnNil,
    special "tagbody" (atLeast 0) .tagbody,
    special "go" (exactly 1) .go,
    special "defvar" (between 1 2) .defvar,
    special "defparameter" (exactly 2) .defparameter ]

end Primitive

/-- The registered primitives by position, each name once. -/
structure PrimitiveTable where
  entries : Array Primitive := #[]
deriving DecidableEq, Repr, Inhabited

namespace PrimitiveTable

/-- The primitive at a position. -/
def get (t : PrimitiveTable) (id : PrimitiveId) : Primitive := t.entries.getD id.index default

/-- The position of the primitive registered under a name. -/
def position? (t : PrimitiveTable) (name : SymbolId) : Option PrimitiveId :=
  (t.entries.findIdx? (·.name == name)).map PrimitiveId.mk

/-- The primitive registered under a name. -/
def find? (t : PrimitiveTable) (name : SymbolId) : Option Primitive :=
  (t.position? name).map t.get

/-- The number of primitives. -/
def size (t : PrimitiveTable) : Nat := t.entries.size

/-- Enters a primitive, in place of the earlier one of the same name if there is
    one. -/
def insert (t : PrimitiveTable) (p : Primitive) : PrimitiveId × PrimitiveTable :=
  match t.position? p.name with
  | some id => (id, { t with entries := t.entries.setIfInBounds id.index p })
  | none =>
    let id := ⟨t.entries.size⟩
    (id, { t with entries := t.entries.push p })

/-- A primitive is found where it was entered. -/
@[simp]
theorem get_insert (t : PrimitiveTable) (p : Primitive) :
    (t.insert p).2.get (t.insert p).1 = p := by
  unfold insert position?
  cases found : t.entries.findIdx? (·.name == p.name) with
  | none => simp [get]
  | some i =>
    obtain ⟨inside, _⟩ := Array.findIdx?_eq_some_iff_getElem.1 found
    simp [get, inside]

end PrimitiveTable

end StackLisp
