import StackLisp.Image.Print
import StackLisp.Proofs.Text.Tree

/-!
# Printing trees

What is printed of a value without cycles depends only on the tree it unfolds to
and on the texts of its leaves: `Image.formText` is that text. The printer gives
it for every tree that is not nested deeper, and whose lists are not longer, than
what is written out (`print_eq`).
-/

namespace StackLisp

namespace Image

/-! ## The text of a tree -/

/-- The mark of the symbols that have a short form. -/
def symbolMark? (s : SymbolId) : Option (List Char) :=
  if s = .quote then some ['\x27'] else if s = .function then some ['#', '\x27'] else none

/-- The mark put before `x` for the list `(a x)`, if `d` is the tail of such a list. -/
def mark? : Tree → Tree → Option (List Char)
  | .leaf (.symbol s), .node _ (.leaf .nil) => symbolMark? s
  | _, _ => none

mutual

/-- The text of a tree, with the short forms of `(quote x)` and `(function x)`. -/
def formText (image : Image) : Tree → List Char
  | .leaf v => (image.atomText v).toList
  | .node a d =>
    match mark? a d with
    | some mark => mark ++ image.headText d
    | none => '(' :: (image.formText a ++ image.tailText d)

/-- The text of the first element of a list. -/
def headText (image : Image) : Tree → List Char
  | .leaf _ => []
  | .node a _ => image.formText a

/-- The text of a list after its first element. -/
def tailText (image : Image) : Tree → List Char
  | .leaf .nil => [')']
  | .leaf v => ' ' :: '.' :: ' ' :: ((image.atomText v).toList ++ [')'])
  | .node a d => ' ' :: (image.formText a ++ image.tailText d)

end

variable {image : Image} {v : Value} {a d t : Tree} {mark : List Char}

/-- Only lists of two have a mark. -/
theorem mark?_inv (hmark : mark? a d = some mark) :
    ∃ s x, a = .leaf (.symbol s) ∧ d = .node x (.leaf .nil) ∧ symbolMark? s = some mark := by
  unfold mark? at hmark
  split at hmark
  · next s x => exact ⟨s, x, rfl, rfl, hmark⟩
  · cases hmark

/-- The marks of `quote` and `function`. -/
theorem symbolMark?_inv {s : SymbolId} (hmark : symbolMark? s = some mark) :
    s = .quote ∧ mark = ['\x27'] ∨ s = .function ∧ mark = ['#', '\x27'] := by
  unfold symbolMark? at hmark
  split at hmark
  · next hs => exact .inl ⟨hs, (Option.some.inj hmark).symm⟩
  · split at hmark
    · next hs => exact .inr ⟨hs, (Option.some.inj hmark).symm⟩
    · cases hmark

/-- A form with a mark is written behind it. -/
theorem formText_of_mark (hmark : mark? a d = some mark) :
    image.formText (.node a d) = mark ++ image.headText d := by
  rw [formText, hmark]

/-- Any other list is written between parentheses. -/
theorem formText_of_not_mark (hmark : mark? a d = none) :
    image.formText (.node a d) = '(' :: (image.formText a ++ image.tailText d) := by
  rw [formText, hmark]

/-- A tail other than `nil` is written behind a dot. -/
theorem tailText_leaf (hv : v ≠ .nil) :
    image.tailText (.leaf v) = ' ' :: '.' :: ' ' :: ((image.atomText v).toList ++ [')']) := by
  rw [tailText]
  exact hv

/-! ## Printing -/

/-- The printer finds the mark on the heap. -/
theorem shortForm?_of_mark {id : PairId} {x : Tree} {s : SymbolId}
    (hmark : symbolMark? s = some mark) (hcar : image.heap.car id = .symbol s)
    (hcdr : image.heap.Unfolds (image.heap.cdr id) (.node x (.leaf .nil))) :
    ∃ w, image.shortForm? id = some (String.ofList mark, w) ∧ image.heap.Unfolds w x := by
  obtain ⟨rest, hrest, -, hx, hend⟩ := hcdr.node_inv
  refine ⟨image.heap.car rest, ?_, hx⟩
  rcases symbolMark?_inv hmark with ⟨rfl, rfl⟩ | ⟨rfl, rfl⟩ <;>
    simp [shortForm?, hcar, hrest, hend.leaf_inv.1, Value.isNil, SymbolId.quote, SymbolId.function]

/-- Where the tree has none, neither has the list. -/
theorem shortForm?_of_not_mark {id : PairId} (hcar : image.heap.Unfolds (image.heap.car id) a)
    (hcdr : image.heap.Unfolds (image.heap.cdr id) d) (hmark : mark? a d = none) :
    image.shortForm? id = none := by
  unfold shortForm?
  simp only
  split
  · next mark rest hmark' hrest =>
    refine if_neg fun hnil => ?_
    -- the list has two elements, so that it has no mark for its first one only
    obtain ⟨x, rfl⟩ : ∃ x, d = .node x (.leaf .nil) := by
      rw [hrest] at hcdr
      cases hcdr with
      | leaf atom => cases atom
      | @node _ x e _ _ tail =>
        cases hend : image.heap.cdr rest <;> rw [hend] at hnil tail <;> cases hnil
        cases tail
        exact ⟨x, rfl⟩
    split at hmark'
    · next s hs =>
      rw [hs] at hcar
      cases hcar
      simp only [mark?, symbolMark?] at hmark
      split at hmark' <;> simp_all
    · cases hmark'
  · rfl

mutual

/-- What is written of a value is the text of its tree. -/
theorem write_eq : ∀ {t : Tree} {v : Value} {n : Nat} {out : String}, image.heap.Unfolds v t →
    t.depth ≤ n → t.longest ≤ maxLength →
    (image.write (n + 1) v out).toList = out.toList ++ image.formText t
  -- An atom is printed as it is.
  | .leaf w, v, n, out, hv, _, _ => by
    obtain ⟨rfl, atom⟩ := hv.leaf_inv
    cases v with
    | pair => cases atom
    | _ => simp [write, formText]
  | .node a d, v, n, out, hv, hdepth, hlongest => by
    obtain ⟨id, rfl, -, hcar, hcdr⟩ := hv.node_inv
    rw [Tree.depth] at hdepth
    rw [Tree.longest] at hlongest
    obtain ⟨n, rfl⟩ : ∃ m, n = m + 1 := ⟨n - 1, by omega⟩
    rw [write]
    -- A pair is printed in its short form if it has one, and as a list if not.
    cases hmark : mark? a d with
    | some mark =>
      obtain ⟨s, x, rfl, rfl, hsymbol⟩ := mark?_inv hmark
      obtain ⟨w, hshort, hw⟩ := shortForm?_of_mark hsymbol hcar.leaf_inv.1 hcdr
      simp only [Tree.depth, Tree.longest] at hdepth hlongest
      rw [hshort, formText_of_mark hmark, headText]
      simp only
      rw [write_eq (t := x) hw (by omega) (by omega)]
      simp
    | none =>
      rw [shortForm?_of_not_mark hcar hcdr hmark, formText_of_not_mark hmark]
      simp only
      rw [writeRest_eq hcdr (by omega) (by omega) (by omega), write_eq hcar (by omega) (by omega)]
      simp

/-- What is written of the rest of a list is the text of the tail, as long as there is room for as
    many elements. -/
theorem writeRest_eq : ∀ {d : Tree} {v : Value} {n room : Nat} {out : String},
    image.heap.Unfolds v d → d.depth ≤ n + 1 → d.longest ≤ maxLength → d.length ≤ room →
    (image.writeRest (image.write (n + 1)) room v out).toList = out.toList ++ image.tailText d
  | .leaf w, v, n, room, out, hv, _, _, _ => by
    obtain ⟨rfl, atom⟩ := hv.leaf_inv
    cases v with
    | pair => cases atom
    | _ => simp [writeRest, tailText, write]
  | .node a d, v, n, room, out, hv, hdepth, hlongest, hlength => by
    obtain ⟨id, rfl, -, hcar, hcdr⟩ := hv.node_inv
    rw [Tree.depth] at hdepth
    rw [Tree.longest] at hlongest
    rw [Tree.length] at hlength
    obtain ⟨room, rfl⟩ : ∃ m, room = m + 1 := ⟨room - 1, by omega⟩
    rw [writeRest, writeRest_eq hcdr (by omega) (by omega) (by omega),
      write_eq hcar (by omega) (by omega), tailText]
    simp

end

/-- A value is printed with the greatest depth allowed. -/
theorem print_eq (hv : image.heap.Unfolds v t) (hdepth : t.depth ≤ maxDepth)
    (hlongest : t.longest ≤ maxLength) : (image.print v).toList = image.formText t := by
  rw [print, write_eq hv hdepth hlongest, String.toList_empty, List.nil_append]

end Image

end StackLisp
