import StackLisp.Image.Function

/-!
# Symbols

A symbol has a name, a value cell, a function cell, and a note of the dynamic
bindings of it that are in force. Symbols are *interned* by name, each name
once; fresh symbols (`SymbolTable.gensym`) are not, and no name leads to them.

Constants (`nil`, `t` and the keywords, whose names start with a colon) refuse
to be assigned, declared special or given a function; keywords evaluate to
themselves.

The first symbols of every table are those the reader and the compiler refer
to; `SpecialForm` enumerates the operators that are always compiled in a way of
their own.
-/

namespace StackLisp

/-- A symbol with its cells. -/
structure Symbol where
  name : String
  /-- The global value, or that of the innermost dynamic binding. -/
  value : Option Value := none
  function : FunctionCell := .unbound
  /-- Every binding of a special symbol is dynamic. -/
  special : Bool := false
  /-- The number of dynamic bindings in force. It fits into 32 bits with sign as long as
      these are fewer than `2 ^ 31`. -/
  bindingDepth : Int := 0
  constant : Bool := false
  /-- Whether the symbol is known by its name. -/
  interned : Bool := true
deriving DecidableEq, Repr, Inhabited

/-- The operators whose compilation is fixed. -/
inductive SpecialForm where
  | quoteForm | lambdaForm | defunForm | defmacroForm | letForm | letStarForm | letrecForm | ifForm
  | andForm | orForm | prognForm | setqForm
deriving DecidableEq, Repr

namespace SymbolId

/-! ## Well-known symbols -/

def quote : SymbolId := ⟨2⟩
def function : SymbolId := ⟨3⟩
def lambda : SymbolId := ⟨4⟩
def letStar : SymbolId := ⟨8⟩
def ifSymbol : SymbolId := ⟨10⟩
def orSymbol : SymbolId := ⟨12⟩
def setq : SymbolId := ⟨14⟩
def ampersandRest : SymbolId := ⟨15⟩
def ampersandBody : SymbolId := ⟨16⟩
def block : SymbolId := ⟨17⟩
def list : SymbolId := ⟨18⟩
def append : SymbolId := ⟨19⟩
def cons : SymbolId := ⟨20⟩
def boundp : SymbolId := ⟨21⟩

/-- The names of the well-known symbols, by position. -/
def wellKnown : List String :=
  ["nil", "t", "quote", "function", "lambda", "defun", "defmacro", "let", "let*", "letrec", "if",
    "and", "or", "progn", "setq", "&rest", "&body", "block", "list", "append", "cons", "boundp"]

/-- The special form a symbol names. -/
def specialForm? (id : SymbolId) : Option SpecialForm :=
  match id.index with
  | 2 => some .quoteForm
  | 4 => some .lambdaForm
  | 5 => some .defunForm
  | 6 => some .defmacroForm
  | 7 => some .letForm
  | 8 => some .letStarForm
  | 9 => some .letrecForm
  | 10 => some .ifForm
  | 11 => some .andForm
  | 12 => some .orForm
  | 13 => some .prognForm
  | 14 => some .setqForm
  | _ => none

/-- Whether a symbol names a special form. -/
def isSpecialForm (id : SymbolId) : Bool := id.specialForm?.isSome

end SymbolId

/-- Names of keywords start with a colon and go on after it. -/
def isKeywordName (name : String) : Bool := name.startsWith ":" && name != ":"

/-- All symbols, by position. -/
structure SymbolTable where
  symbols : Array Symbol := #[]
  /-- How many fresh symbols were made. -/
  gensyms : Nat := 0
deriving DecidableEq, Repr, Inhabited

/-- Actions on a symbol table; what is done before a failure stays done. -/
abbrev SymbolM := EStateM Failure SymbolTable

namespace SymbolTable

/-- The symbol at a position. -/
def get (t : SymbolTable) (id : SymbolId) : Symbol := t.symbols.getD id.index default

/-- Changes the symbol at a position. -/
def modify (t : SymbolTable) (id : SymbolId) (f : Symbol → Symbol) : SymbolTable :=
  { t with symbols := t.symbols.modify id.index f }

/-- The number of symbols, fresh ones included. -/
def size (t : SymbolTable) : Nat := t.symbols.size

/-- The interned symbol of a name, if there is one. -/
def find? (t : SymbolTable) (name : String) : Option SymbolId :=
  (t.symbols.findIdx? fun s => s.interned && s.name == name).map SymbolId.mk

/-- A new interned symbol; a keyword is a constant that evaluates to itself. -/
def newSymbol (name : String) (id : SymbolId) : Symbol :=
  if isKeywordName name then { name, constant := true, value := some (.symbol id) } else { name }

/-- Enters the interned symbol of a name not yet in the table. -/
def insert (t : SymbolTable) (name : String) : SymbolTable :=
  let id := ⟨t.symbols.size⟩
  { t with symbols := t.symbols.push (newSymbol name id) }

/-- The interned symbol of a name, made if need be. -/
def intern (name : String) : SymbolM SymbolId := fun t =>
  match t.find? name with
  | some id => .ok id t
  | none =>
    let id := ⟨t.symbols.size⟩
    .ok id (t.insert name)

/-- A fresh symbol, named by a stem and the number of fresh symbols so far. -/
def gensym (stem : String) : SymbolM SymbolId := fun t =>
  let number := t.gensyms + 1
  let id := ⟨t.symbols.size⟩
  .ok id { t with
    gensyms := number
    symbols := t.symbols.push { name := s!"{stem}{number}", interned := false } }

/-- The table of the well-known symbols. -/
def initial : SymbolTable :=
  let t := SymbolId.wellKnown.foldl insert {}
  let t := t.modify .nil fun s => { s with constant := true, value := some .nil }
  t.modify .t fun s => { s with constant := true, value := some .t }

/-- The name of a symbol. -/
def name (t : SymbolTable) (id : SymbolId) : String := (t.get id).name

/-- Whether a symbol is a constant. -/
def isConstant (t : SymbolTable) (id : SymbolId) : Bool := (t.get id).constant

/-- Whether a symbol is an interned keyword. -/
def isKeyword (t : SymbolTable) (id : SymbolId) : Bool :=
  let s := t.get id
  s.interned && s.constant && s.name.startsWith ":"

/-- Whether a symbol is special. -/
def isSpecial (t : SymbolTable) (id : SymbolId) : Bool := (t.get id).special

/-- Whether a symbol has a value. -/
def isBound (t : SymbolTable) (id : SymbolId) : Bool := (t.get id).value.isSome

/-- The content of the function cell. -/
def cell (t : SymbolTable) (id : SymbolId) : FunctionCell := (t.get id).function

/-- The value of a symbol. -/
def value (t : SymbolTable) (id : SymbolId) : Except Error Value :=
  match (t.get id).value with
  | some v => .ok v
  | none => .error (.unboundVariable (t.name id))

/-- The function of a symbol, as a value. -/
def functionValue (t : SymbolTable) (id : SymbolId) : Except Error Value :=
  match t.cell id with
  | .function f => .ok (.function f)
  | .primitive p => .ok (.primitive p)
  | .pending _ _ => .error (.unfinishedFunction (t.name id))
  | .unbound => .error (.unboundFunction (t.name id))

/-- Changes a symbol that is not a constant. -/
def update (id : SymbolId) (f : Symbol → Symbol) : SymbolM Unit := fun t =>
  if t.isConstant id then
    .error (.error (.constantRedefinition (t.name id))) t
  else
    .ok () (t.modify id f)

/-- Assigns a symbol. -/
def setValue (id : SymbolId) (v : Value) : SymbolM Unit :=
  update id fun s => { s with value := some v }

/-- Sets the function cell of a symbol. -/
def setCell (id : SymbolId) (cell : FunctionCell) : SymbolM Unit :=
  update id fun s => { s with function := cell }

/-- Makes a symbol special. -/
def declareSpecial (id : SymbolId) : SymbolM Unit :=
  update id fun s => { s with special := true }

/-- Puts a value cell, possibly empty, back as it was. -/
def restoreValue (t : SymbolTable) (id : SymbolId) (saved : Option Value) : SymbolTable :=
  t.modify id fun s => { s with value := saved }

/-- Notes one more dynamic binding. -/
def enterBinding (t : SymbolTable) (id : SymbolId) : SymbolTable :=
  t.modify id fun s => { s with bindingDepth := s.bindingDepth + 1 }

/-- Notes the end of a dynamic binding. -/
def exitBinding (t : SymbolTable) (id : SymbolId) : SymbolTable :=
  t.modify id fun s => { s with bindingDepth := s.bindingDepth - 1 }

end SymbolTable

end StackLisp
