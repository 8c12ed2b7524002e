import StackLisp.Reading.Backquote
import StackLisp.Text.Numeral

/-!
# Forms of text

What a text says, as values: words (numbers and symbols), names between bars,
lists, proper or dotted, and the short forms `'x`, `#'x` and backquote.

* `Image.readNext` reads one form and tells what is left of the text.
* `Image.readWithin` does so within a bound that was found before, so that going
  through the forms of a text measures it only once.
* `Image.readAt` reads one form from a byte offset on.
* `Image.readAll` reads every form of a text.

Symbols are interned as they are met, and the pairs of a list are allocated when
its end is reached, the last one first.
-/

namespace StackLisp

namespace Reading

/-- Characters that end a word. -/
def endsWord (c : Char) : Bool :=
  Text.isLayout c || c = '(' || c = ')' || c = '\x27' || c = '\x60' || c = ',' || c = '"' || c = ';'

/-- The first byte of a character in UTF-8, as a character of its own. -/
def leadByte (c : Char) : Char :=
  let n := c.toNat
  if n < 0x80 then c
  else if n < 0x800 then Char.ofNat (0xc0 + n / 0x40)
  else if n < 0x10000 then Char.ofNat (0xe0 + n / 0x1000)
  else Char.ofNat (0xf0 + n / 0x40000)

/-- The interned symbol of a name, as a value. -/
def internValue (name : List Char) : ReadM Value := do
  return .ofSymbol (← SymbolTable.intern (String.ofList name))

/-- Reads a number or a symbol. -/
def readWord : ReadM Value := do
  let ahead := (← get).ahead
  let word := ahead.takeWhile (!endsWord ·)
  passTo word (ahead.dropWhile (!endsWord ·))
  if word = ['.'] then
    fail .loneDot
  match Text.integer? word with
  | none => internValue word
  | some n =>
    match Fixnum.ofInt? n with
    | some m => return .int m
    | none => fail (.integerOutOfRange (String.ofList word))

/-- Reads the name of a symbol up to the closing bar. -/
def readBars : ReadM Value := do
  advance
  let ahead := (← get).ahead
  let name := ahead.takeWhile (· ≠ '|')
  passTo name (ahead.dropWhile (· ≠ '|'))
  match ← peek? with
  | none => fail .unterminatedBars
  | some _ =>
    advance
    internValue name

/-- Whether a dot before `cs` announces the tail of a list. -/
def isDotSeparator : List Char → Bool
  | [] => true
  | c :: _ => Text.isLayout c || c = ')'

/-- Goes past a closing parenthesis, after which a dotted list ends. -/
def closeDotted : ReadM Unit := do
  skip
  match ← peek? with
  | some ')' => advance
  | some _ => failAt ((← get).offset + 1) .closeAfterTail
  | none => fail .closeAfterTail

/-! ## Forms inside of others

The rules for the forms that hold others are given how these are read. -/

/-- Reads a template and expands it; the backquote is still ahead. -/
def readTemplate (form : ReadM Value) : ReadM Value := do
  advance
  modify fun r => { r with backquotes := r.backquotes + 1 }
  let template ← form
  modify fun r => { r with backquotes := r.backquotes - 1 }
  expandBackquote template

/-- Goes past the marker after a comma, and gives its name. -/
def readMarker : ReadM String := do
  if (← peek?) = some '@' then
    advance
    return Backquote.spliceName
  else
    return Backquote.unquoteName

/-- Reads a form that is not part of the template around it; the comma is still ahead. -/
def readUnquoted (marked : SymbolId → ReadM Value) : ReadM Value := do
  if (← get).backquotes = 0 then
    fail .commaOutsideBackquote
  advance
  let marker ← readMarker
  let head ← SymbolTable.intern marker
  modify fun r => { r with backquotes := r.backquotes - 1 }
  let form ← marked head
  modify fun r => { r with backquotes := r.backquotes + 1 }
  return form

/-- Reads `#'x`; no other syntax starts with a hash. -/
def readDispatch (marked : SymbolId → ReadM Value) : ReadM Value := do
  advance
  match ← peek? with
  | some '\x27' =>
    advance
    marked .function
  | some c => failAt ((← get).offset + 1) (.unknownDispatch (leadByte c))
  | none => fail .endAfterHash

/-- Reads the tail of a list; the dot is still ahead. -/
def readTail (form : ReadM Value) (before : List Value) : ReadM Value := do
  if before.isEmpty then
    fail .nothingBeforeDot
  advance
  let tail ← form
  closeDotted
  Heap.listWithTail before.reverse tail

mutual

/-- Reads a form, with at most `fuel` nested calls. -/
def readForm : Nat → ReadM Value
  | 0 => throw .endless
  | fuel + 1 => do
    skip
    match ← peek? with
    | none => fail .unexpectedEnd
    | some '(' =>
      advance
      readElements fuel []
    | some ')' => fail .unexpectedClose
    | some '\x27' =>
      advance
      readMarked fuel .quote
    | some '\x60' => readTemplate (readForm fuel)
    | some ',' => readUnquoted (readMarked fuel)
    | some '"' => fail .stringLiteral
    | some '|' => readBars
    | some '#' => readDispatch (readMarked fuel)
    | some _ => readWord

/-- Reads a form `x` and gives `(head x)`. -/
def readMarked : Nat → SymbolId → ReadM Value
  | 0, _ => throw .endless
  | fuel + 1, head => do
    let x ← readForm fuel
    Heap.list [.symbol head, x]

/-- Reads the elements of a list up to its end; `before` are those already read,
    the latest first. -/
def readElements : Nat → List Value → ReadM Value
  | 0, _ => throw .endless
  | fuel + 1, before => do
    skip
    match (← get).ahead with
    | [] => fail .unterminatedList
    | ')' :: _ =>
      advance
      Heap.list before.reverse
    | c :: rest =>
      if c = '.' ∧ isDotSeparator rest then
        readTail (readForm fuel) before
      else
        let x ← readForm fuel
        readElements fuel (x :: before)

end

/-- A bound for the nested calls in reading a text: each character accounts for at
    most two of them. It also bounds the reading of what is left after a form, less
    one. -/
def bound (text : List Char) : Nat := 2 * text.length + 1

/-- Reads the next form, if the text holds one more, with at most `fuel` nested
    calls. -/
def next? (fuel : Nat) : ReadM (Option Value) := do
  skip
  if (← get).ahead.isEmpty then
    return none
  else
    return some (← readForm fuel)

/-- Reads every form within a bound; `before` are those already read, the latest
    first. -/
def readRest : Nat → List Value → ReadM (List Value)
  | 0, _ => throw .endless
  | fuel + 1, before => do
    match ← next? (fuel + 1) with
    | none => return before.reverse
    | some v => readRest fuel (v :: before)

end Reading

namespace Image

variable {α : Type}

/-- Reads from a text into the image: the result, what is left of the text, and
    how many bytes were read. -/
def reading (text : List Char) (x : ReadM α) : ImageM (α × List Char × Nat) := fun image =>
  let r : Reading := { ahead := text, heap := image.heap, symbols := image.symbols }
  let image := { image with heap := default, symbols := default }
  match x r with
  | .ok a r => .ok (a, r.ahead, r.offset) { image with heap := r.heap, symbols := r.symbols }
  | .error e r => .error e { image with heap := r.heap, symbols := r.symbols }

/-- Reads a form with at most `fuel` nested calls, and gives what is left of the
    text and the bytes read. -/
def readWithin (fuel : Nat) (text : List Char) : ImageM (Option (Value × List Char × Nat)) := do
  let (v?, rest, count) ← reading text (Reading.next? fuel)
  return v?.map fun v => (v, rest, count)

/-- Reads a form, and gives what is left of the text and the bytes read. -/
def readNext (text : List Char) : ImageM (Option (Value × List Char × Nat)) :=
  readWithin (Reading.bound text) text

/-- Reads the first form of a text, which has to hold one. -/
def readOne (text : String) : ImageM Value := do
  match ← readNext text.toList with
  | some (v, _, _) => return v
  | none => raise (.read .emptyInput)

/-- Reads all forms of a text. -/
def readAll (text : String) : ImageM (List Value) := do
  let cs := text.toList
  let (vs, _, _) ← reading cs (Reading.readRest (Reading.bound cs) [])
  return vs

/-- The text after a number of bytes, if that is where a character starts or the
    text ends. -/
def dropBytes : Nat → List Char → Option (List Char)
  | 0, cs => some cs
  | _ + 1, [] => none
  | n + 1, c :: cs => if c.utf8Size ≤ n + 1 then dropBytes (n + 1 - c.utf8Size) cs else none

/-- Reads a form from a byte offset on, and gives the offset after it. -/
def readAt (text : String) (offset : Nat) : ImageM (Option (Value × Nat)) := do
  match dropBytes offset text.toList with
  | none => raise (.read (.notBoundary offset))
  | some cs =>
    match ← readNext cs with
    | some (v, _, count) => return some (v, offset + count)
    | none => return none

end Image

end StackLisp
