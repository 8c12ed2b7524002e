import StackLisp.Reading.Basic

/-!
# Backquote

A backquoted template is turned into a form that builds it, when it is read.
Inside a template, `,x` is read as `(unquote x)` and `,@x` as
`(unquote-splicing x)`; the expansion replaces these markers.

* A template without splices is built by one call of `list`.
* Any other is built from right to left by `cons` for an element and `append`
  for a splice; a splice at the very end is left as it is.
* A symbol is quoted, and other atoms stand for themselves.
-/

namespace StackLisp

/-- An element of a template list. -/
inductive Segment where
  /-- Contributes the value of a form. -/
  | item (form : Value)
  /-- Contributes the elements of the value of a form. -/
  | splice (form : Value)
deriving DecidableEq, Repr

namespace Segment

/-- Whether it is an element rather than a splice. -/
def isItem : Segment → Bool
  | item _ => true
  | splice _ => false

/-- The form whose value is used. -/
def form : Segment → Value
  | item x | splice x => x

end Segment

/-- What the expansion of a template goes by. -/
structure Backquote where
  /-- The symbol that marks `,x`, if it is interned. -/
  unquote : Option SymbolId
  /-- The symbol that marks `,@x`, if it is interned. -/
  splice : Option SymbolId
  /-- Where the template ends, which is where a misplaced splice is reported. -/
  offset : Nat
deriving DecidableEq, Repr

namespace Backquote

/-- The name of the marker of `,x`. -/
def unquoteName : String := "unquote"

/-- The name of the marker of `,@x`. -/
def spliceName : String := "unquote-splicing"

/-- The `x` of `(marker x)`. -/
def marked? (h : Heap) (marker : Option SymbolId) (v : Value) : Option Value :=
  match marker, v with
  | some marker, .pair id =>
    match h.car id with
    | .symbol head => if head = marker then h.onlyElement? (h.cdr id) else none
    | _ => none
  | _, _ => none

/-- The form that builds a list of elements only, given the last one first. -/
def assembleItems (segments : List Segment) : HeapM Value := do
  let items ← segments.foldlM (fun rest segment => Heap.cons segment.form rest) .nil
  Heap.cons (.symbol .list) items

/-- The form that builds a list from its segments, given the last one first, and its
    tail. -/
def assemble (segments : List Segment) (tail : Value) : HeapM Value :=
  if tail.isNil && segments.all Segment.isItem then
    assembleItems segments
  else
    segments.foldlM (fun result segment =>
      match segment with
      | .item x => Heap.list [.symbol .cons, x, result]
      | .splice x => if result.isNil then pure x else Heap.list [.symbol .append, x, result]) tail

mutual

/-- The form that builds a template nested at most `fuel` deep. -/
def expandFrom (b : Backquote) : Nat → Value → HeapM Value
  | 0, _ => throw .endless
  | fuel + 1, v => do
    match marked? (← get) b.unquote v with
    | some x => return x
    | none =>
      if (marked? (← get) b.splice v).isSome then
        raise (.read (.malformed .spliceOutsideList b.offset))
      match v with
      | .pair _ =>
        let (segments, rest) ← segmentsFrom b fuel [] v
        let tail ← if rest.isNil then pure .nil else expandFrom b fuel rest
        assemble segments tail
      | .symbol _ => Heap.listOfTwo (.symbol .quote) v
      | _ => return v

/-- The segments of a template list, the last one first, and its tail: `nil`, an
    atom after a dot, or `(unquote x)` for `,x` after a dot. -/
def segmentsFrom (b : Backquote) : Nat → List Segment → Value → HeapM (List Segment × Value)
  | 0, _, _ => throw .endless
  | fuel + 1, before, v => do
    match v with
    | .pair id =>
      if (marked? (← get) b.unquote v).isSome then
        return (before, v)
      let first := (← get).car id
      match marked? (← get) b.splice first with
      | some x => segmentsFrom b fuel (.splice x :: before) ((← get).cdr id)
      | none =>
        let x ← expandFrom b fuel first
        segmentsFrom b fuel (.item x :: before) ((← get).cdr id)
    | _ => return (before, v)

end

/-- The form that builds a template. A template is made of pairs read before and
    holds no circles, so twice the number of pairs bounds the descent. -/
def expand (b : Backquote) (v : Value) : HeapM Value := do
  expandFrom b (2 * (← get).pairCount + 2) v

end Backquote

/-- The form that builds the template just read. -/
def Reading.expandBackquote (v : Value) : ReadM Value := do
  let r ← get
  Backquote.expand
    { unquote := r.symbols.find? Backquote.unquoteName
      splice := r.symbols.find? Backquote.spliceName
      offset := r.offset } v

end StackLisp
