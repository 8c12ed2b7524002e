import StackLisp.Value.Opcode

/-!
# Values

A value is either immediate (`nil`, `t`, a fixnum, an opcode) or a handle into
one of the tables of an image: pairs, frames, symbols, functions, primitives.
Two values are *identical* when they are equal as terms: the same pair, the same
symbol, the same fixnum.

`nil` is the empty list and the only false value, and counts as a symbol; so
does `t`. A symbol handle never stands for either of them when built by
`Value.ofSymbol`.

The position in a handle can be any number. Positions of 32 bits are enough for
tables of up to `2 ^ 32` entries; pairs and frames together are no more than the
capacity of the heap.
-/

namespace StackLisp

/-- A symbol, by its position in the symbol table. -/
structure SymbolId where
  index : Nat
deriving DecidableEq, Hashable, Repr, Inhabited

/-- A pair, by its position in the heap. -/
structure PairId where
  index : Nat
deriving DecidableEq, Repr, Inhabited

/-- An environment frame, by its position in the heap. -/
structure FrameId where
  index : Nat
deriving DecidableEq, Repr, Inhabited

/-- A compiled function or macro, by its position in the function table. -/
structure FunctionId where
  index : Nat
deriving DecidableEq, Repr, Inhabited

/-- A primitive, by its position in the primitive table. -/
structure PrimitiveId where
  index : Nat
deriving DecidableEq, Repr, Inhabited

namespace SymbolId

/-- The symbol `nil`, the first of every symbol table. -/
def nil : SymbolId := ⟨0⟩

/-- The symbol `t`, the second of every symbol table. -/
def t : SymbolId := ⟨1⟩

end SymbolId

/-- A Lisp value. -/
inductive Value where
  /-- The empty list, false, and the symbol `nil`. -/
  | nil
  /-- The canonical true value, the symbol `t`. -/
  | t
  /-- A fixnum. -/
  | int (n : Int64)
  | symbol (id : SymbolId)
  | pair (id : PairId)
  /-- A compiled global function or macro. -/
  | function (id : FunctionId)
  /-- A closure: the pair of a function and the environment it closes over. -/
  | closure (id : PairId)
  | primitive (id : PrimitiveId)
  /-- An environment frame, found in environments only. -/
  | frame (id : FrameId)
  /-- An instruction inside a stream. -/
  | op (code : Opcode)
deriving DecidableEq, Repr, Inhabited

namespace Value

/-- The empty list. -/
def isNil : Value → Bool
  | nil => true
  | _ => false

/-- Every value but `nil` is true. -/
def isTrue (v : Value) : Bool := !v.isNil

/-- Pairs; a closure is not one of them. -/
def isPair : Value → Bool
  | pair _ => true
  | _ => false

/-- Symbols, with `nil` and `t` among them. -/
def isSymbol : Value → Bool
  | nil | t | symbol _ => true
  | _ => false

/-- The empty list or a pair. -/
def isList : Value → Bool
  | nil | pair _ => true
  | _ => false

/-- Fixnums. -/
def isInt : Value → Bool
  | int _ => true
  | _ => false

/-- Everything that is not a pair. -/
def isAtom (v : Value) : Bool := !v.isPair

/-- Functions, closures and primitives. -/
def isCallable : Value → Bool
  | function _ | closure _ | primitive _ => true
  | _ => false

/-- The number of a fixnum. -/
def int? : Value → Option Int64
  | int n => some n
  | _ => none

/-- The opcode of an instruction. -/
def op? : Value → Option Opcode
  | op code => some code
  | _ => none

/-- The symbol a value stands for, `nil` and `t` included. -/
def symbol? : Value → Option SymbolId
  | nil => some .nil
  | t => some .t
  | symbol id => some id
  | _ => none

/-- The canonical value of a symbol. -/
def ofSymbol (id : SymbolId) : Value :=
  if id = .nil then nil else if id = .t then t else symbol id

/-- `t` for true and `nil` for false. -/
def ofBool (b : Bool) : Value := if b then t else nil

/-- The fixnum of a count; counts stay far below the fixnum range. -/
def ofNat (n : Nat) : Value := int (Int64.ofNat n)

/-- The type of a value as error messages name it. -/
def typeName : Value → String
  | nil => "null"
  | t | symbol _ => "symbol"
  | int _ => "integer"
  | pair _ => "cons"
  | function _ | closure _ => "function"
  | primitive _ => "primitive"
  | frame _ => "frame"
  | op _ => "opcode"

/-- The value of a symbol is a symbol value. -/
@[simp]
theorem isSymbol_ofSymbol (id : SymbolId) : (ofSymbol id).isSymbol = true := by
  unfold ofSymbol; split
  · rfl
  · split <;> rfl

/-- The value of a symbol stands for it. -/
@[simp]
theorem symbol?_ofSymbol (id : SymbolId) : (ofSymbol id).symbol? = some id := by
  unfold ofSymbol; split
  · next h => simp [symbol?, h]
  · split
    · next h => simp [symbol?, h]
    · rfl

end Value

end StackLisp
