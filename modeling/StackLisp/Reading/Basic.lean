import StackLisp.Image.Basic
import StackLisp.Text.Blank

/-!
# Reading text

The state of a reader: the text still ahead, the number of bytes behind, and the
heap and the symbols that reading adds to. Offsets count bytes of UTF-8, and a
fault is reported at the offset the reader has come to.
-/

namespace StackLisp

/-- A reader on its way through a text. -/
structure Reading where
  ahead : List Char
  /-- Bytes read so far. -/
  offset : Nat := 0
  /-- Backquotes open around the current position. -/
  backquotes : Nat := 0
  heap : Heap
  symbols : SymbolTable

/-- Actions of a reader; what is read before a fault stays allocated. -/
abbrev ReadM := EStateM Failure Reading

namespace Reading

variable {α : Type}

/-- An action on the heap. -/
@[inline]
def onHeap (x : HeapM α) : ReadM α := fun r =>
  let heap := r.heap
  let r := { r with heap := default }
  match x heap with
  | .ok a heap => .ok a { r with heap }
  | .error e heap => .error e { r with heap }

instance : MonadLift HeapM ReadM := ⟨onHeap⟩

/-- An action on the symbols. -/
@[inline]
def onSymbols (x : SymbolM α) : ReadM α := fun r =>
  let symbols := r.symbols
  let r := { r with symbols := default }
  match x symbols with
  | .ok a symbols => .ok a { r with symbols }
  | .error e symbols => .error e { r with symbols }

instance : MonadLift SymbolM ReadM := ⟨onSymbols⟩

/-- Fails at an offset. -/
def failAt (offset : Nat) (fault : SyntaxFault) : ReadM α :=
  raise (.read (.malformed fault offset))

/-- Fails at the current offset. -/
def fail (fault : SyntaxFault) : ReadM α := do
  failAt (← get).offset fault

/-- The next character. -/
def peek? : ReadM (Option Char) := fun r => .ok r.ahead.head? r

/-- The bytes of a text. -/
def byteCount (cs : List Char) : Nat := cs.foldr (fun c count => c.utf8Size + count) 0

@[simp]
theorem byteCount_nil : byteCount [] = 0 := rfl

@[simp]
theorem byteCount_cons (c : Char) (cs : List Char) :
    byteCount (c :: cs) = c.utf8Size + byteCount cs := rfl

@[simp]
theorem byteCount_append (cs cs' : List Char) :
    byteCount (cs ++ cs') = byteCount cs + byteCount cs' := by
  induction cs with
  | nil => simp
  | cons c cs ih => simp [ih, Nat.add_assoc]

/-- Goes past `cs`, which lie directly ahead of `rest`. -/
def passTo (cs rest : List Char) : ReadM Unit := fun r =>
  .ok () { r with ahead := rest, offset := r.offset + byteCount cs }

/-- Goes past the next character. -/
def advance : ReadM Unit := fun r =>
  match r.ahead with
  | [] => .ok () r
  | c :: cs => .ok () { r with ahead := cs, offset := r.offset + c.utf8Size }

/-- The text after layout and comments, which run from a semicolon to the end of
    the line, and the offset it starts at. -/
def skipped (inComment : Bool) : List Char → Nat → List Char × Nat
  | [], offset => ([], offset)
  | c :: cs, offset =>
    if inComment then
      skipped (c ≠ '\n') cs (offset + c.utf8Size)
    else if Text.isLayout c then
      skipped false cs (offset + 1)
    else if c = ';' then
      skipped true cs (offset + 1)
    else
      (c :: cs, offset)

/-- Goes past layout and comments. -/
def skip : ReadM Unit := fun r =>
  let (ahead, offset) := skipped false r.ahead r.offset
  .ok () { r with ahead, offset }

end Reading

end StackLisp
