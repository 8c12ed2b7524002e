import StackLisp.Image.Basic
import StackLisp.Text.Blank
import StackLisp.Text.Numeral

/-!
# Printing values

The text of a value. Lists are written with their elements, `(quote x)` and
`(function x)` in their short forms, and values that cannot be read back as
`#<...>`. A symbol whose name would not be read back as one word of text is
written between bars.

Printing ends on every value, circular ones included: nesting beyond
`maxDepth` and elements beyond `maxLength` are written as dots.
-/

namespace StackLisp.Image

/-- The deepest nesting that is written out. -/
def maxDepth : Nat := 1000

/-- The most elements of one list that are written out. -/
def maxLength : Nat := 100000

/-- Characters that a word of text cannot hold, besides blanks. -/
def isDelimiterChar (c : Char) : Bool :=
  c = '(' || c = ')' || c = '\x27' || c = '\x60' || c = ',' || c = ';' || c = '"' || c = '|'

/-- Whether a name is written between bars: if it is empty, would be read as a
    number, or holds a blank or a delimiter. -/
def needsBars (name : String) : Bool :=
  let cs := name.toList
  cs.isEmpty || (Text.fixnum? cs).isSome || cs.any fun c => Text.isBlank c || isDelimiterChar c

/-- The name of a symbol, between bars if need be. -/
def nameText (name : String) : String :=
  if needsBars name then "|" ++ name ++ "|" else name

/-- The text of a symbol; `#:` marks one that no name leads to. -/
def symbolText (s : Symbol) : String :=
  if s.interned then nameText s.name else "#:" ++ nameText s.name

/-- The text of a value that is not a pair. -/
def atomText (image : Image) : Value → String
  | .nil => "nil"
  | .t => "t"
  | .int n => toString n.toInt
  | .symbol id => symbolText (image.symbols.get id)
  | .function id =>
    let kind := if (image.function id).isMacro then "macro" else "function"
    s!"#<{kind} {image.functionName id}>"
  | .closure _ => "#<closure>"
  | .primitive id => s!"#<primitive {image.symbols.name (image.primitives.get id).name}>"
  | .frame id => s!"#<frame {id.index}>"
  | .op code => code.mnemonic
  | .pair _ => ""

/-- The mark of a short form and the value it is put before, for `(quote x)` and
    `(function x)`. -/
def shortForm? (image : Image) (id : PairId) : Option (String × Value) :=
  let mark? :=
    match image.heap.car id with
    | .symbol s => if s = .quote then some "\x27" else if s = .function then some "#\x27" else none
    | _ => none
  match mark?, image.heap.cdr id with
  | some mark, .pair rest =>
    if (image.heap.cdr rest).isNil then some (mark, image.heap.car rest) else none
  | _, _ => none

/-- Writes the elements of a list after the first, up to `room` of them, and the
    closing parenthesis. -/
def writeRest (image : Image) (write : Value → String → String) :
    Nat → Value → String → String
  | _, .nil, out => out ++ ")"
  | 0, .pair _, out => out ++ " ...)"
  | room + 1, .pair id, out =>
    image.writeRest write room (image.heap.cdr id) (write (image.heap.car id) (out ++ " "))
  | _, v, out => write v (out ++ " . ") ++ ")"

/-- Writes a value at the end of `out`, with lists nested up to a depth. -/
def write (image : Image) : Nat → Value → String → String
  | 0, _, out => out ++ "..."
  | depth + 1, .pair id, out =>
    match image.shortForm? id with
    | some (mark, v) => image.write depth v (out ++ mark)
    | none =>
      image.writeRest (image.write depth) (maxLength - 1) (image.heap.cdr id)
        (image.write depth (image.heap.car id) (out ++ "("))
  | _ + 1, v, out => out ++ image.atomText v

/-- The text of a value. -/
def print (image : Image) (v : Value) : String := image.write (maxDepth + 1) v ""

end StackLisp.Image
