import StackLisp.Proofs.Safety.Reading
import StackLisp.Proofs.Safety.Symbols
import StackLisp.Proofs.Text.Tree
import StackLisp.Proofs.Walks
import StackLisp.Reading.Backquote

/-!
# Templates

What is read after a backquote is a *template*: a list structure in which some forms are
marked to be replaced by their values, as an element or after a dot (`,x`), or by the
elements of their values (`,@x`). `Marks` tells of a value which template it is.

The reader turns a template into a form that constructs it. The form is made from calls of
`list`, `cons` and `append` and from quoted symbols, with the unquoted forms as they are
(`Constructs`). Three shapes occur: one call of `list` where there are elements only, a
chain of calls of `cons` and `append` otherwise, and a spliced form that stands for itself
where nothing comes after it. `leads_expandFrom` shows that the expansion of a template
always has one of these shapes, or fails for want of room.
-/

namespace StackLisp

/-! ## Lines of values -/

namespace Heap

variable {h h' : Heap} {v w last : Value} {vs ws : List Value}

/-- Walking down the tails of a value, through pairs of the heap, one meets the values and then
    comes to `last`. -/
inductive Line (h : Heap) (last : Value) : List Value → Value → Prop
  | nil : Line h last [] last
  | cons {id : PairId} {vs : List Value} (valid : id.index < h.pairCount)
      (tail : Line h last vs (h.cdr id)) : Line h last (h.car id :: vs) (.pair id)

namespace Line

/-- The line is still there when pairs are made. -/
theorem extended (he : h.Extended h') (hv : h.Line last vs v) : h'.Line last vs v := by
  induction hv with
  | nil => exact .nil
  | @cons id vs valid tail ih =>
    rw [← he.cdr id valid] at ih
    rw [← he.car id valid]
    exact .cons (valid.trans_le he.pairCount) ih

/-- One line in front of another one. -/
theorem append (hv : h.Line w vs v) (hw : h.Line last ws w) : h.Line last (vs ++ ws) v := by
  induction hv with
  | nil => exact hw
  | cons valid _ ih => exact .cons valid ih

/-- Without elements, the line is at its end. -/
theorem nil_inv (hv : h.Line last [] v) : v = last := by
  cases hv
  rfl

/-- With one, it begins with a pair. -/
theorem cons_inv {a : Value} (hv : h.Line last (a :: vs) v) :
    ∃ id, v = .pair id ∧ id.index < h.pairCount ∧ h.car id = a ∧ h.Line last vs (h.cdr id) := by
  cases hv with
  | cons valid tail => exact ⟨_, rfl, valid, rfl, tail⟩

/-- A proper list is walked to its end, with fuel for every pair. -/
theorem spineFrom_eq (hv : h.Line .nil vs v) :
    ∀ (seen : List Value) (fuel : Nat), vs.length ≤ fuel →
      h.spineFrom seen fuel v = ⟨seen.reverse ++ vs, .proper⟩ := by
  induction hv with
  | nil =>
    intro seen fuel _
    cases fuel <;> simp [spineFrom]
  | @cons id vs valid tail ih =>
    intro seen fuel hfuel
    obtain ⟨fuel, rfl⟩ : ∃ n, fuel = n + 1 := ⟨fuel - 1, by simp at hfuel; omega⟩
    rw [spineFrom, ih _ fuel (by simpa using hfuel)]
    simp

/-- The pairs of a line. -/
theorem chain (hv : h.Line last (w :: vs) v) :
    ∃ id l, v = .pair id ∧ (id :: l).IsChain h.Next ∧ (∀ x ∈ id :: l, x ∈ h.pairs) ∧
      l.length = vs.length := by
  induction vs generalizing v w with
  | nil =>
    obtain ⟨id, rfl, valid, -, -⟩ := hv.cons_inv
    have hid : id ∈ h.pairs := Finset.mem_image.2 ⟨id.index, Finset.mem_range.2 valid, rfl⟩
    exact ⟨id, [], rfl, .singleton id, by simpa using hid, rfl⟩
  | cons a vs ih =>
    obtain ⟨id, rfl, valid, -, htail⟩ := hv.cons_inv
    obtain ⟨next, l, hnext, hchain, hl, hlength⟩ := ih htail
    have hid : id ∈ h.pairs := Finset.mem_image.2 ⟨id.index, Finset.mem_range.2 valid, rfl⟩
    exact ⟨id, next :: l, rfl, .cons_cons hnext hchain, List.forall_mem_cons.2 ⟨hid, hl⟩,
      by simp [hlength]⟩

/-- A proper list is no longer than the heap has pairs: a longer one would go in circles. -/
theorem length_le (hv : h.Line .nil vs v) : vs.length ≤ h.pairCount := by
  cases vs with
  | nil => exact Nat.zero_le _
  | cons a vs =>
    obtain ⟨id, l, rfl, hchain, hl, hlength⟩ := hv.chain
    by_contra hlong
    have hloops : Loops h.Next id := by
      refine loops_of_chain hchain hl (h.card_pairs_le.trans ?_)
      rw [List.length_cons] at hlong
      omega
    have hspine := spineFrom_of_loops hloops [] (a :: vs).length
    rw [hv.spineFrom_eq [] _ (Nat.le_refl _)] at hspine
    cases hspine

/-- So it has these elements. -/
theorem elements? (hv : h.Line .nil vs v) : h.elements? v = .ok (some vs) := by
  rw [Heap.elements?, Heap.spine, hv.spineFrom_eq [] _ (Nat.le_succ_of_le hv.length_le)]
  rfl

end Line

/-- A pair unfolds to a node, by its components. -/
theorem Unfolds.pair_inv {id : PairId} {t : Tree} (ht : h.Unfolds (.pair id) t) :
    ∃ a d, t = .node a d ∧ h.Unfolds (h.car id) a ∧ h.Unfolds (h.cdr id) d := by
  cases ht with
  | leaf atom => cases atom
  | node _ head tail => exact ⟨_, _, rfl, head, tail⟩

/-- What has no circles has none when pairs are made. -/
theorem Unfolds.extended {t : Tree} (he : h.Extended h') (ht : h.Unfolds v t) :
    h'.Unfolds v t := by
  induction ht with
  | leaf atom => exact .leaf atom
  | node valid _ _ ihead itail =>
    rw [← he.car _ valid] at ihead
    rw [← he.cdr _ valid] at itail
    exact .node (valid.trans_le he.pairCount) ihead itail

/-- The action makes pairs only, and fails for want of room only. -/
abbrev Makes {α : Type} (h : Heap) (x : HeapM α) (P : α → Heap → Prop) : Prop :=
  Leads x h (fun a h' => h.Extended h' ∧ P a h') fun e _ => e = .error .heapOverflow

/-- Pairs are made by both parts. -/
theorem Makes.bind {α β : Type} {x : HeapM α} {f : α → HeapM β} {P : α → Heap → Prop}
    {Q : β → Heap → Prop} (hx : h.Makes x P)
    (hf : ∀ a h', h.Extended h' → P a h' → h'.Makes (f a) Q) : h.Makes (x >>= f) Q := by
  refine (leads_bind f).2 (hx.mono (fun a h₁ ha => ?_) fun _ _ he => he)
  exact (hf a h₁ ha.1 ha.2).mono (fun b h₂ hb => ⟨ha.1.trans hb.1, hb.2⟩) fun _ _ he => he

theorem makes_get_bind {β : Type} {f : Heap → HeapM β} {Q : β → Heap → Prop}
    (hf : h.Makes (f h) Q) : h.Makes (get >>= f) Q := hf

/-- A pair is put in front of a line. -/
theorem makes_cons (hw : h.Line last vs w) (v : Value) :
    h.Makes (cons v w) fun x h' => h'.Line last (v :: vs) x := by
  unfold Makes
  rw [leads_cons_iff]
  split
  · have he := h.extended_push v w
    have htail : (h.push v w).Line last vs ((h.push v w).cdr ⟨h.pairCount⟩) := by
      rw [cdr_push]
      exact hw.extended he
    have hline := Line.cons (by simp) htail
    rw [car_push] at hline
    exact ⟨he, hline⟩
  · rfl

/-- The values are put in front of the end, from the last one on. -/
theorem makes_listWithTail (vs : List Value) (w : Value) (h : Heap) :
    h.Makes (listWithTail vs w) fun v h' => h'.Line w vs v := by
  have hinv : h.Extended h ∧ h.Line w [] w := ⟨.refl h, .nil⟩
  refine Leads.foldrM hinv fun v rest x h₁ _ (hx : h.Extended h₁ ∧ h₁.Line w rest x) => ?_
  obtain ⟨he, hx⟩ := hx
  exact (makes_cons hx v).mono (fun y h₂ hy => ⟨he.trans hy.1, hy.2⟩) fun _ _ he => he

end Heap

/-! ## Templates -/

/-- A list structure in which some forms are to be replaced. -/
inductive Template where
  | atom (v : Value)
  /-- The value of a form. -/
  | unquote (form : Value)
  /-- A pair of two templates. -/
  | cons (head tail : Template)
  /-- The elements of the value of a form, in front of what else is in the list. -/
  | splice (form : Value) (tail : Template)

namespace Template

/-- The forms to be replaced, from left to right: by their values, or by the elements of
    their values. -/
def uses : Template → List Segment
  | atom _ => []
  | unquote x => [.item x]
  | cons a d => a.uses ++ d.uses
  | splice x d => .splice x :: d.uses

/-- The number of atoms, marked forms and pairs. -/
def size : Template → Nat
  | atom _ | unquote _ => 1
  | cons a d => a.size + d.size + 1
  | splice _ d => d.size + 1

/-- Whether it is no list with elements. -/
def isEnd : Template → Bool
  | atom _ | unquote _ => true
  | cons _ _ | splice _ _ => false

end Template

/-- The value is the template, with the forms to be replaced marked. The markers do not occur
    otherwise. -/
inductive Marks (b : Backquote) (h : Heap) : Value → Template → Prop
  | atom {v : Value} (atom : v.isAtom = true)
      (unmarked : ∀ id, v = .symbol id → b.unquote ≠ some id ∧ b.splice ≠ some id) :
      Marks b h v (.atom v)
  | unquote {u : SymbolId} {v x : Value} (marker : b.unquote = some u)
      (form : h.Line .nil [.symbol u, x] v) : Marks b h v (.unquote x)
  | cons {id : PairId} {a d : Template} (valid : id.index < h.pairCount)
      (head : Marks b h (h.car id) a) (tail : Marks b h (h.cdr id) d) :
      Marks b h (.pair id) (.cons a d)
  | splice {id : PairId} {u : SymbolId} {x : Value} {d : Template} (valid : id.index < h.pairCount)
      (marker : b.splice = some u) (form : h.Line .nil [.symbol u, x] (h.car id))
      (tail : Marks b h (h.cdr id) d) : Marks b h (.pair id) (.splice x d)

/-- The marker of `,x` is not that of `,@x`. -/
def Backquote.Distinct (b : Backquote) : Prop := ∀ u, b.unquote = some u → b.splice ≠ some u

namespace Marks

variable {b : Backquote} {h h' : Heap} {v x : Value} {T : Template}

/-- Templates are read off pairs, which are still there. -/
theorem extended (he : h.Extended h') (hT : Marks b h v T) : Marks b h' v T := by
  induction hT with
  | atom atom unmarked => exact .atom atom unmarked
  | unquote marker form => exact .unquote marker (form.extended he)
  | cons valid _ _ ihead itail =>
    rw [← he.car _ valid] at ihead
    rw [← he.cdr _ valid] at itail
    exact .cons (valid.trans_le he.pairCount) ihead itail
  | splice valid marker form _ itail =>
    have form := form.extended he
    rw [← he.car _ valid] at form
    rw [← he.cdr _ valid] at itail
    exact .splice (valid.trans_le he.pairCount) marker form itail

/-- What is marked by a symbol is a list of the symbol and a form. -/
theorem marked?_eq {marker : Option SymbolId} {u : SymbolId} (hmarker : marker = some u)
    (hv : h.Line .nil [.symbol u, x] v) : Backquote.marked? h marker v = some x := by
  obtain ⟨id, rfl, -, hhead, hrest⟩ := hv.cons_inv
  obtain ⟨rest, hcdr, -, hcar, hend⟩ := hrest.cons_inv
  simp [Backquote.marked?, hmarker, hhead, hcdr, Heap.onlyElement?, hcar, hend.nil_inv, Value.isNil]

/-- What does not begin with the marker is not marked. -/
theorem marked?_eq_none {marker : Option SymbolId}
    (hv : ∀ id u, v = .pair id → h.car id = .symbol u → marker ≠ some u) :
    Backquote.marked? h marker v = none := by
  unfold Backquote.marked?
  split
  · next u id =>
    split
    · next head hhead =>
      rw [if_neg]
      rintro rfl
      exact hv id head rfl hhead rfl
    · rfl
  · rfl

/-- A symbol that stands for itself is no marker. -/
theorem unmarked {id : SymbolId} (hT : Marks b h (.symbol id) T) :
    b.unquote ≠ some id ∧ b.splice ≠ some id := by
  cases hT with
  | atom _ unmarked => exact unmarked id rfl
  | unquote _ form =>
    obtain ⟨_, hpair, -⟩ := form.cons_inv
    cases hpair

/-- Only what is to be replaced by its value is marked so. -/
theorem unquote?_eq (hT : Marks b h v T) (hx : ∀ x, T ≠ .unquote x) :
    Backquote.marked? h b.unquote v = none := by
  refine marked?_eq_none fun id u hid hu => ?_
  subst hid
  cases hT with
  | atom atom => cases atom
  | unquote => exact absurd rfl (hx _)
  | cons _ head =>
    rw [hu] at head
    exact head.unmarked.1
  | splice _ _ form =>
    obtain ⟨_, hpair, -⟩ := form.cons_inv
    rw [hu] at hpair
    cases hpair

/-- A template is not a form to be spliced; such a form is an element of it. -/
theorem splice?_eq (hb : b.Distinct) (hT : Marks b h v T) :
    Backquote.marked? h b.splice v = none := by
  refine marked?_eq_none fun id u hid hu => ?_
  subst hid
  -- The marker is at the head of the pair: an unquote has another one there, and the parts of a
  -- template have none.
  cases hT with
  | atom atom => cases atom
  | unquote marker form =>
    obtain ⟨_, ⟨⟩, -, hhead, -⟩ := form.cons_inv
    rw [hu] at hhead
    cases hhead
    exact hb u marker
  | cons _ head =>
    rw [hu] at head
    exact head.unmarked.2
  | splice _ _ form =>
    obtain ⟨_, hpair, -⟩ := form.cons_inv
    rw [hu] at hpair
    cases hpair

end Marks

/-! ## The forms that construct templates -/

mutual

/-- The form constructs the template. -/
inductive Constructs (h : Heap) : Value → Template → Prop
  | self {v : Value} (atom : v.isAtom = true) (unequal : ∀ id, v ≠ .symbol id) :
      Constructs h v (.atom v)
  | quoted {f : Value} {id : SymbolId} (call : h.Line .nil [.symbol .quote, .symbol id] f) :
      Constructs h f (.atom (.symbol id))
  | unquoted {x : Value} : Constructs h x (.unquote x)
  | list {f : Value} {items : List Value} {T : Template}
      (call : h.Line .nil (.symbol .list :: items) f) (each : ConstructsItems h items T) :
      Constructs h f T
  | cons {f x y : Value} {a d : Template} (call : h.Line .nil [.symbol .cons, x, y] f)
      (head : Constructs h x a) (tail : Constructs h y d) : Constructs h f (.cons a d)
  | append {f x y : Value} {d : Template} (call : h.Line .nil [.symbol .append, x, y] f)
      (tail : Constructs h y d) : Constructs h f (.splice x d)
  | last {x : Value} {d : Template} (tail : Constructs h .nil d) : Constructs h x (.splice x d)

/-- The forms construct the elements of a list, one by one. -/
inductive ConstructsItems (h : Heap) : List Value → Template → Prop
  | nil {T : Template} (tail : Constructs h .nil T) : ConstructsItems h [] T
  | cons {x : Value} {items : List Value} {a d : Template} (head : Constructs h x a)
      (tail : ConstructsItems h items d) : ConstructsItems h (x :: items) (.cons a d)

end

section

variable {h h' : Heap}

mutual

/-- A form goes on to construct its template when pairs are made. -/
theorem Constructs.extended (he : h.Extended h') :
    ∀ {f : Value} {T : Template}, Constructs h f T → Constructs h' f T
  | _, _, .self atom unequal => .self atom unequal
  | _, _, .quoted call => .quoted (call.extended he)
  | _, _, .unquoted => .unquoted
  | _, _, .list call each => .list (call.extended he) (each.extended he)
  | _, _, .cons call head tail => .cons (call.extended he) (head.extended he) (tail.extended he)
  | _, _, .append call tail => .append (call.extended he) (tail.extended he)
  | _, _, .last tail => .last (tail.extended he)

/-- So do the forms for elements. -/
theorem ConstructsItems.extended (he : h.Extended h') :
    ∀ {items : List Value} {T : Template}, ConstructsItems h items T → ConstructsItems h' items T
  | _, _, .nil tail => .nil (tail.extended he)
  | _, _, .cons head tail => .cons (head.extended he) (tail.extended he)

end

/-! ## Expansion -/

/-- The segments of a list whose elements are constructed, up to its end `R`. -/
inductive Covers (h : Heap) (R : Template) : List Segment → Template → Prop
  | nil : Covers h R [] R
  | item {x : Value} {segments : List Segment} {a d : Template} (head : Constructs h x a)
      (tail : Covers h R segments d) : Covers h R (.item x :: segments) (.cons a d)
  | splice {x : Value} {segments : List Segment} {d : Template} (tail : Covers h R segments d) :
      Covers h R (.splice x :: segments) (.splice x d)

namespace Covers

variable {R T : Template} {segments : List Segment} {v : Value}

/-- And the segments of a list. -/
theorem extended (he : h.Extended h') (hs : Covers h R segments T) : Covers h' R segments T := by
  induction hs with
  | nil => exact .nil
  | item head _ ih => exact .item (head.extended he) ih
  | splice _ ih => exact .splice ih

/-- Where there are elements only, and nothing after them, the list is made of the elements. -/
theorem items (hs : Covers h R segments T) (hitems : segments.all Segment.isItem = true)
    (htail : Constructs h .nil R) : ConstructsItems h (segments.map Segment.form) T := by
  induction hs with
  | nil => exact .nil htail
  | item head _ ih => exact .cons head (ih (by simpa [Segment.isItem] using hitems))
  | splice => simp [Segment.isItem] at hitems

/-- The elements of a list are put in front of its end from right to left, and the form that
    constructs the list has one of three shapes. -/
theorem makes_assemble (hs : Covers h R segments T) (htail : Constructs h v R) :
    h.Makes (Backquote.assemble segments.reverse v) fun f h' => Constructs h' f T := by
  unfold Backquote.assemble
  split
  -- Items only, and no tail: a call of `list`.
  · next hlist =>
    rw [Bool.and_eq_true, List.all_reverse] at hlist
    obtain ⟨hnil, hitems⟩ := hlist
    obtain rfl : v = .nil := by
      cases v <;> first | rfl | cases hnil
    have hfold : segments.reverse.foldlM (fun rest s => Heap.cons s.form rest) Value.nil =
        Heap.listWithTail (segments.map Segment.form) .nil := by
      rw [List.foldlM_reverse, Heap.listWithTail, List.foldrM_map]
    unfold Backquote.assembleItems
    rw [hfold]
    refine (Heap.makes_listWithTail _ _ h).bind fun items h₁ he hline => ?_
    refine (Heap.makes_cons hline _).mono (fun f h₂ hf => ⟨hf.1, .list hf.2 ?_⟩) fun _ _ he => he
    exact ((hs.items hitems htail).extended he).extended hf.1
  · next hchain =>
    clear hchain
    rw [List.foldlM_reverse]
    -- From the last segment on, each puts a call of `cons` or `append` in front.
    induction hs with
    | nil => exact ⟨.refl h, htail⟩
    | @item x segments a d head tail ih =>
      rw [List.foldrM_cons]
      refine ih.bind fun f h₁ he hf => ?_
      refine (Heap.makes_listWithTail _ _ h₁).mono (fun g h₂ hg => ⟨hg.1, ?_⟩) fun _ _ he => he
      exact .cons hg.2 (head.extended (he.trans hg.1)) (hf.extended hg.1)
    | @splice x segments d tail ih =>
      rw [List.foldrM_cons]
      refine ih.bind fun f h₁ he hf => ?_
      change h₁.Makes (if f.isNil then pure x else Heap.list [.symbol .append, x, f]) _
      split
      · next hnil =>
        obtain rfl : f = .nil := by
          cases f <;> first | rfl | cases hnil
        exact ⟨.refl h₁, .last hf⟩
      · refine (Heap.makes_listWithTail _ _ h₁).mono (fun g h₂ hg => ⟨hg.1, ?_⟩) fun _ _ he => he
        exact .append hg.2 (hf.extended hg.1)

end Covers

namespace Marks

variable {b : Backquote} {T : Template} {t : Tree} {v : Value}

/-- Where a template is no list with elements, nothing is left to be expanded. -/
theorem makes_expandFrom_end (hb : b.Distinct) (hT : Marks b h v T) (hend : T.isEnd = true)
    (fuel : Nat) :
    h.Makes (b.expandFrom (fuel + 1) v) fun f h' => Constructs h' f T := by
  unfold Backquote.expandFrom
  refine Heap.makes_get_bind ?_
  cases hT with
  | unquote marker form =>
    rw [marked?_eq marker form]
    exact ⟨.refl h, .unquoted⟩
  | atom atom unmarked =>
    have hT := Marks.atom (h := h) atom unmarked
    rw [hT.unquote?_eq (by simp)]
    refine Heap.makes_get_bind ?_
    rw [hT.splice?_eq hb]
    cases v with
    | pair => cases atom
    -- A symbol becomes its own quotation, which takes two pairs.
    | symbol id =>
      refine (Heap.makes_cons .nil _).bind fun x h₁ _ hx => ?_
      exact (Heap.makes_cons hx _).mono (fun f h₂ hf => ⟨hf.1, .quoted hf.2⟩) fun _ _ he => he
    | _ => exact ⟨.refl h, .self atom (by simp)⟩
  | cons | splice => cases hend

/-- Expanding a template constructs it. -/
def Expands (b : Backquote) (fuel : Nat) : Prop :=
  ∀ (h : Heap) (v : Value) (t : Tree) (T : Template), h.Unfolds v t → Marks b h v T →
    2 * t.height + 2 ≤ fuel → h.Makes (b.expandFrom fuel v) fun f h' => Constructs h' f T

/-- Splitting a list gives the segments of the template, and leaves the end of it. The walk along
    a list goes one call deeper than the expansion of what is in it. -/
def Splits (b : Backquote) (fuel : Nat) : Prop :=
  ∀ (h : Heap) (before : List Segment) (v : Value) (t : Tree) (T : Template), h.Unfolds v t →
    Marks b h v T → 2 * t.height + 1 ≤ fuel →
    h.Makes (b.segmentsFrom fuel before v) fun p h' => ∃ segments R,
      p.1 = segments.reverse ++ before ∧ Covers h' R segments T ∧ R.isEnd = true ∧ Marks b h' p.2 R

/-- The segments of a list are put together in front of its end. -/
theorem Splits.expands {fuel : Nat} (hsplits : Splits b fuel) (hb : b.Distinct) :
    Expands b (fuel + 1) := by
  intro h v t T ht hT hfuel
  cases hend : T.isEnd with
  | true => exact hT.makes_expandFrom_end hb hend fuel
  | false =>
    obtain ⟨id, rfl⟩ : ∃ id, v = .pair id := by cases hT <;> first | exact ⟨_, rfl⟩ | cases hend
    have hform : ∀ x, T ≠ .unquote x := by
      rintro x rfl
      cases hend
    unfold Backquote.expandFrom
    refine Heap.makes_get_bind ?_
    rw [hT.unquote?_eq hform]
    refine Heap.makes_get_bind ?_
    rw [hT.splice?_eq hb]
    refine (hsplits h [] (.pair id) t T ht hT (by omega)).bind ?_
    rintro ⟨_, rest⟩ h₁ he ⟨segments, R, rfl, hs, hR, hrest⟩
    obtain ⟨fuel, rfl⟩ : ∃ n, fuel = n + 1 := ⟨fuel - 1, by omega⟩
    rw [List.append_nil]
    dsimp only
    split
    · next hnil =>
      -- A proper list ends in itself.
      obtain rfl : rest = .nil := by cases rest <;> first | rfl | cases hnil
      refine hs.makes_assemble ?_
      cases hrest with
      | atom atom => exact .self atom (by simp)
      | unquote _ form =>
        obtain ⟨_, hpair, -⟩ := form.cons_inv
        cases hpair
    · refine (hrest.makes_expandFrom_end hb hR fuel).bind fun tail h₂ he₂ htail => ?_
      exact (hs.extended he₂).makes_assemble htail

/-- An element is expanded, or taken as it is if it is spliced, and then the rest is split. -/
theorem Splits.succ {fuel : Nat} (hexpands : Expands b fuel) (hsplits : Splits b fuel)
    (hb : b.Distinct) : Splits b (fuel + 1) := by
  intro h before v t T ht hT hfuel
  -- A template that is no pair, or is unquoted, ends the walk as it stands.
  have hstop (hend : T.isEnd = true) : h.Makes (pure (before, v)) fun p h' => ∃ segments R,
      p.1 = segments.reverse ++ before ∧ Covers h' R segments T ∧ R.isEnd = true ∧
        Marks b h' p.2 R := ⟨.refl h, [], T, rfl, .nil, hend, hT⟩
  unfold Backquote.segmentsFrom
  cases hT with
  | @atom v atom unmarked =>
    cases v with
    | pair => cases atom
    | _ => exact hstop rfl
  | unquote marker form =>
    obtain ⟨id, rfl, -⟩ := form.cons_inv
    refine Heap.makes_get_bind ?_
    rw [marked?_eq marker form]
    exact hstop rfl
  | @cons id a d valid head tail =>
    obtain ⟨_, _, rfl, hhead, htail⟩ := ht.pair_inv
    rw [Tree.height] at hfuel
    refine Heap.makes_get_bind ?_
    rw [(Marks.cons valid head tail).unquote?_eq (by simp)]
    refine Heap.makes_get_bind (Heap.makes_get_bind ?_)
    rw [head.splice?_eq hb]
    refine (hexpands _ _ _ _ hhead head (by omega)).bind fun x h₁ he hx => ?_
    refine Heap.makes_get_bind ?_
    rw [he.cdr id valid]
    refine (hsplits _ _ _ _ _ (htail.extended he) (tail.extended he) (by omega)).mono ?_
      fun _ _ he => he
    rintro ⟨_, rest⟩ h₂ ⟨he₂, segments, R, rfl, hs, hR, hrest⟩
    exact ⟨he₂, .item x :: segments, R, by simp, .item (hx.extended he₂) hs, hR, hrest⟩
  | @splice id u x d valid marker form tail =>
    obtain ⟨_, _, rfl, hhead, htail⟩ := ht.pair_inv
    rw [Tree.height] at hfuel
    refine Heap.makes_get_bind ?_
    rw [(Marks.splice valid marker form tail).unquote?_eq (by simp)]
    refine Heap.makes_get_bind (Heap.makes_get_bind ?_)
    rw [marked?_eq marker form]
    refine Heap.makes_get_bind ((hsplits _ _ _ _ _ htail tail (by omega)).mono ?_ fun _ _ he => he)
    rintro ⟨_, rest⟩ h₂ ⟨he₂, segments, R, rfl, hs, hR, hrest⟩
    exact ⟨he₂, .splice x :: segments, R, by simp, .splice hs, hR, hrest⟩

/-- With enough fuel, a template is expanded to what constructs it. -/
theorem makes_expandFrom (hb : b.Distinct) (fuel : Nat) : Expands b fuel ∧ Splits b fuel := by
  induction fuel with
  | zero =>
    exact ⟨fun _ _ _ _ _ _ hfuel => absurd hfuel (by omega),
      fun _ _ _ _ _ _ _ hfuel => absurd hfuel (by omega)⟩
  | succ fuel ih => exact ⟨ih.2.expands hb, .succ ih.1 ih.2 hb⟩

/-- The bound for a whole template is enough. -/
theorem makes_expand (hb : b.Distinct) (ht : h.Unfolds v t) (hT : Marks b h v T) :
    h.Makes (b.expand v) fun f h' => Constructs h' f T := by
  unfold Backquote.expand
  refine Heap.makes_get_bind ?_
  exact (makes_expandFrom hb _).1 _ _ _ _ ht hT (by have := ht.height_le; omega)

end Marks

end

namespace Reading

/-- What the expansion of a template goes by where the reader stands. -/
def markers (r : Reading) : Backquote where
  unquote := r.symbols.find? Backquote.unquoteName
  splice := r.symbols.find? Backquote.spliceName
  offset := r.offset

/-- A symbol has one name, so it is not both markers. -/
theorem distinct_markers (r : Reading) : r.markers.Distinct := by
  intro u hu hu'
  have hname := (SymbolTable.of_find?_eq_some hu).2
  rw [(SymbolTable.of_find?_eq_some hu').2] at hname
  exact absurd hname (by decide)

/-- A template that has been read is turned into a form that constructs it. -/
theorem leads_expandBackquote {r : Reading} {v : Value} {t : Tree} {T : Template}
    (ht : r.heap.Unfolds v t) (hT : Marks r.markers r.heap v T) :
    Leads (expandBackquote v) r
      (fun f r' => r.heap.Extended r'.heap ∧ r' = { r with heap := r'.heap } ∧
        Constructs r'.heap f T)
      fun e _ => e = .error .heapOverflow := by
  change Leads (get >>= fun r' => liftM (r'.markers.expand v) : ReadM Value) r _ _
  rw [leads_bind, leads_get, leads_heap]
  exact (hT.makes_expand r.distinct_markers ht).mono (fun f h hf => ⟨hf.1, rfl, hf.2⟩)
    fun _ _ he => he

end Reading

end StackLisp
