import StackLisp.Proofs.Text.Fault
import StackLisp.Proofs.Text.FormByForm
import StackLisp.Proofs.Text.Source
import StackLisp.Proofs.Text.Template

/-!
# Markers that are left over

Inside a backquote, `,x` and `,@x` are read as lists that start with a marker, and the
expansion of the template takes these lists away again. What is read of a proper source has
no markers left in it (`Spells.leads_readForm`), and where a `,@` stands directly under a
backquote nothing is read (`Spells.leads_unbroken`). Both are shown along the text, with a
bound on nested calls that may be too small, in which case nothing is read either. The bound
that `Image.readNext` reads with is large enough, so then the text is at fault, or there is
no room (`readNext_spelled`).
-/

namespace StackLisp

open Reading

/-! ## Forms without markers -/

/-- The value is no symbol, or one that does not have the name of a marker. -/
def SymbolTable.NoMarker (t : SymbolTable) (v : Value) : Prop :=
  ∀ id, v = .symbol id →
    id.index < t.size ∧ t.name id ≠ Backquote.unquoteName ∧ t.name id ≠ Backquote.spliceName

/-- A symbol keeps its name, whatever names are added. -/
theorem SymbolTable.NoMarker.grows {t t' : SymbolTable} {v : Value} (h : t.Grows t') (hv : t.NoMarker v) :
    t'.NoMarker v := by
  intro id hid
  obtain ⟨hlt, hname⟩ := hv id hid
  rw [h.name id hlt]
  exact ⟨hlt.trans_le h.size, hname⟩

/-- The symbols that the reader and the compiler refer to are not called like the markers. -/
def SymbolTable.Standard (t : SymbolTable) : Prop :=
  ∀ id : SymbolId, id.index < SymbolId.wellKnown.length → t.NoMarker (.symbol id)

/-- A list without circles in its elements and its end has none. -/
theorem Heap.Line.unfolds {h : Heap} {vs : List Value} {v w : Value} (hv : h.Line w vs v)
    (hvs : ∀ x ∈ vs, ∃ t, h.Unfolds x t) (hw : ∃ t, h.Unfolds w t) : ∃ t, h.Unfolds v t := by
  induction hv with
  | nil => exact hw
  | cons valid _ ih =>
    obtain ⟨⟨a, ha⟩, hvs⟩ := List.forall_mem_cons.1 hvs
    obtain ⟨d, hd⟩ := ih hvs
    exact ⟨_, .node valid ha hd⟩

namespace Reading

variable {r r' r'' : Reading} {v w x : Value} {vs : List Value} {T : Template}

/-- The reader goes on in the text and leaves its image alone. -/
theorem grows_after (r : Reading) (cs rest : List Char) : r.Grows (r.stripped.after cs rest r.heap) :=
  ⟨.refl _, .refl _⟩

/-- The value has no cycles, and no markers in it. -/
inductive Clear (r : Reading) : Value → Prop
  | leaf {v : Value} (atom : v.isAtom = true) (plain : r.symbols.NoMarker v) : Clear r v
  | pair {id : PairId} (valid : id.index < r.heap.pairCount) (head : Clear r (r.heap.car id))
      (tail : Clear r (r.heap.cdr id)) : Clear r (.pair id)

namespace Clear

/-- Pairs that are read stay as they are. -/
theorem grows (h : r.Grows r') (hv : Clear r v) : Clear r' v := by
  induction hv with
  | leaf atom plain => exact .leaf atom (plain.grows h.symbols)
  | pair valid _ _ ihead itail =>
    rw [← h.heap.car _ valid] at ihead
    rw [← h.heap.cdr _ valid] at itail
    exact .pair (valid.trans_le h.heap.pairCount) ihead itail

/-- A list is clear if its elements and its end are. -/
theorem line (hv : r.heap.Line w vs v) (hvs : ∀ x ∈ vs, Clear r x) (hw : Clear r w) :
    Clear r v := by
  induction hv with
  | nil => exact hw
  | cons valid _ ih =>
    obtain ⟨hhead, hvs⟩ := List.forall_mem_cons.1 hvs
    exact .pair valid hhead (ih hvs)

theorem nil : Clear r .nil := .leaf rfl nofun

/-- Without circles it unfolds into a tree, and the leaves of that are the atoms it is made of. -/
theorem unfolds (hv : Clear r v) :
    ∃ t, r.heap.Unfolds v t ∧ ∀ leaf ∈ t.leaves, r.symbols.NoMarker leaf := by
  induction hv with
  | @leaf v atom plain => exact ⟨.leaf v, .leaf atom, by simpa [Tree.leaves] using plain⟩
  | pair valid _ _ ihead itail =>
    obtain ⟨a, ha, hplain⟩ := ihead
    obtain ⟨d, hd, hplain'⟩ := itail
    exact ⟨.node a d, .node valid ha hd, List.forall_mem_append.2 ⟨hplain, hplain'⟩⟩

end Clear

/-- The value is marked to be spliced. -/
def Spliced (r : Reading) (v x : Value) : Prop :=
  ∃ u, r.symbols.find? Backquote.spliceName = some u ∧ r.heap.Line .nil [.symbol u, x] v

/-- A marked form stays one. -/
theorem Spliced.grows (h : r.Grows r') (hv : Spliced r v x) : Spliced r' v x := by
  obtain ⟨u, hu, hline⟩ := hv
  exact ⟨u, h.symbols.find? hu, hline.extended h.heap⟩

/-- What has been read as a template: there are no markers but those of commas. -/
inductive Draft (r : Reading) : Value → Template → Prop
  | atom {v : Value} (atom : v.isAtom = true) (plain : r.symbols.NoMarker v) : Draft r v (.atom v)
  | unquote {u : SymbolId} {v x : Value} (marker : r.symbols.find? Backquote.unquoteName = some u)
      (form : r.heap.Line .nil [.symbol u, x] v) (clear : Clear r x) : Draft r v (.unquote x)
  | cons {id : PairId} {a d : Template} (valid : id.index < r.heap.pairCount)
      (head : Draft r (r.heap.car id) a) (tail : Draft r (r.heap.cdr id) d) :
      Draft r (.pair id) (.cons a d)
  | splice {id : PairId} {x : Value} {d : Template} (valid : id.index < r.heap.pairCount)
      (head : Spliced r (r.heap.car id) x) (clear : Clear r x)
      (tail : Draft r (r.heap.cdr id) d) : Draft r (.pair id) (.splice x d)

namespace Draft

/-- So does a template. -/
theorem grows (h : r.Grows r') (hv : Draft r v T) : Draft r' v T := by
  induction hv with
  | atom atom plain => exact .atom atom (plain.grows h.symbols)
  | unquote marker form clear =>
    exact .unquote (h.symbols.find? marker) (form.extended h.heap) (clear.grows h)
  | cons valid _ _ ihead itail =>
    rw [← h.heap.car _ valid] at ihead
    rw [← h.heap.cdr _ valid] at itail
    exact .cons (valid.trans_le h.heap.pairCount) ihead itail
  | splice valid head clear _ itail =>
    have head := head.grows h
    rw [← h.heap.car _ valid] at head
    rw [← h.heap.cdr _ valid] at itail
    exact .splice (valid.trans_le h.heap.pairCount) head (clear.grows h) itail

/-- A draft is marked as the expansion reads it: only commas count, since the symbols in it are no
    markers. -/
theorem marks (hv : Draft r v T) : Marks r.markers r.heap v T := by
  induction hv with
  | atom atom plain =>
    refine .atom atom fun id hid => ?_
    obtain ⟨-, hunquote, hsplice⟩ := plain id hid
    exact ⟨fun h => hunquote (SymbolTable.of_find?_eq_some h).2,
      fun h => hsplice (SymbolTable.of_find?_eq_some h).2⟩
  | unquote marker form => exact .unquote marker form
  | cons valid _ _ ihead itail => exact .cons valid ihead itail
  | splice valid head _ _ itail =>
    obtain ⟨u, hu, hline⟩ := head
    exact .splice valid hu hline itail

/-- A draft has no circles either. -/
theorem unfolds (hv : Draft r v T) : ∃ t, r.heap.Unfolds v t := by
  have hmarked {u : SymbolId} {x v : Value} (hx : Clear r x)
      (hv : r.heap.Line .nil [.symbol u, x] v) : ∃ t, r.heap.Unfolds v t := by
    obtain ⟨t, ht, -⟩ := hx.unfolds
    exact hv.unfolds (by simpa using ⟨⟨_, .leaf rfl⟩, t, ht⟩) ⟨_, .leaf rfl⟩
  induction hv with
  | atom atom => exact ⟨_, .leaf atom⟩
  | unquote _ form clear => exact hmarked clear form
  | cons valid _ _ ihead itail =>
    obtain ⟨a, ha⟩ := ihead
    obtain ⟨d, hd⟩ := itail
    exact ⟨_, .node valid ha hd⟩
  | splice valid head clear _ itail =>
    obtain ⟨u, -, hline⟩ := head
    obtain ⟨a, ha⟩ := hmarked clear hline
    obtain ⟨d, hd⟩ := itail
    exact ⟨_, .node valid ha hd⟩

end Draft

/-- Atoms and forms of the template have no markers in them. -/
def ClearIn (r : Reading) : Template → Prop
  | .atom v => r.symbols.NoMarker v
  | .unquote x => Clear r x
  | .cons a d => ClearIn r a ∧ ClearIn r d
  | .splice x d => Clear r x ∧ ClearIn r d

/-- What a draft is made of is clear. -/
theorem Draft.clearIn (hv : Draft r v T) : ClearIn r T := by
  induction hv with
  | atom _ plain => exact plain
  | unquote _ _ clear => exact clear
  | cons _ _ _ ihead itail => exact ⟨ihead, itail⟩
  | splice _ _ clear _ itail => exact ⟨clear, itail⟩

theorem ClearIn.grows (h : r.Grows r') : ∀ {T : Template}, ClearIn r T → ClearIn r' T
  | .atom _, hT => SymbolTable.NoMarker.grows h.symbols hT
  | .unquote _, hT => Clear.grows h hT
  | .cons _ _, hT => ⟨hT.1.grows h, hT.2.grows h⟩
  | .splice _ _, hT => ⟨hT.1.grows h, hT.2.grows h⟩

/-- The symbols that the expansion puts in are clear. -/
theorem clear_symbol (hr : r.symbols.Standard) (head : SymbolId)
    (hhead : head.index < SymbolId.wellKnown.length := by decide) : Clear r (.symbol head) :=
  .leaf rfl (hr head hhead)

end Reading

section

variable {r : Reading}

mutual

/-- A form that constructs a template has no markers in it. -/
theorem Constructs.clear (hr : r.symbols.Standard) : ∀ {f : Value} {T : Template},
    Constructs r.heap f T → ClearIn r T → Clear r f
  | _, _, .self atom _, hT => .leaf atom hT
  | _, _, .quoted call, hT => .line call (by simpa using ⟨clear_symbol hr .quote, .leaf rfl hT⟩) .nil
  | _, _, .unquoted, hT => hT
  | _, _, .list call each, hT =>
    .line call (List.forall_mem_cons.2 ⟨clear_symbol hr .list, each.clear hr hT⟩) .nil
  | _, _, .cons call head tail, hT =>
    .line call (by simpa using ⟨clear_symbol hr .cons, head.clear hr hT.1, tail.clear hr hT.2⟩) .nil
  | _, _, .append call tail, hT =>
    .line call (by simpa using ⟨clear_symbol hr .append, hT.1, tail.clear hr hT.2⟩) .nil
  | _, _, .last _, hT => hT.1

/-- So are the arguments that it makes. -/
theorem ConstructsItems.clear (hr : r.symbols.Standard) : ∀ {items : List Value} {T : Template},
    ConstructsItems r.heap items T → ClearIn r T → ∀ x ∈ items, Clear r x
  | _, _, .nil _, _ => List.forall_mem_nil _
  | _, _, .cons head tail, hT => List.forall_mem_cons.2 ⟨head.clear hr hT.1, tail.clear hr hT.2⟩

end

end

/-! ## Reading what a text spells -/

namespace Reading

variable {r r' : Reading} {v w : Value} {vs : List Value}

/-- What is read inside a backquote is a template, and elsewhere a form without markers. -/
def Shaped (r : Reading) : Bool → Value → Prop
  | true, v => ∃ T, Draft r v T
  | false, v => Clear r v

/-- What is read as an element of a list may be spliced inside a backquote. -/
def Fitting (r : Reading) (inside : Bool) (v : Value) : Prop :=
  Shaped r inside v ∨ inside = true ∧ ∃ x, Spliced r v x ∧ Clear r x

theorem Shaped.grows {inside : Bool} (h : r.Grows r') (hv : Shaped r inside v) :
    Shaped r' inside v := by
  cases inside with
  | true => exact hv.imp fun _ hT => hT.grows h
  | false => exact Clear.grows h hv

theorem Fitting.grows {inside : Bool} (h : r.Grows r') (hv : Fitting r inside v) :
    Fitting r' inside v :=
  hv.imp (Shaped.grows h) fun ⟨hin, x, hx, hclear⟩ => ⟨hin, x, hx.grows h, hclear.grows h⟩

/-- An atom is itself a template, as well as a form. -/
theorem Shaped.of_atom (inside : Bool) (atom : v.isAtom = true) (plain : r.symbols.NoMarker v) :
    Shaped r inside v := by
  cases inside with
  | true => exact ⟨_, .atom atom plain⟩
  | false => exact .leaf atom plain

/-- Elements that are spliced are taken as such inside a backquote, and there are none elsewhere. -/
theorem Shaped.line {inside : Bool} (hv : r.heap.Line w vs v) (hvs : ∀ x ∈ vs, Fitting r inside x)
    (hw : Shaped r inside w) : Shaped r inside v := by
  induction hv with
  | nil => exact hw
  | cons valid _ ih =>
    obtain ⟨hhead, hvs⟩ := List.forall_mem_cons.1 hvs
    have htail := ih hvs
    cases inside with
    | false => exact .pair valid (hhead.resolve_right nofun) htail
    | true =>
      obtain ⟨d, hd⟩ := htail
      rcases hhead with ⟨a, ha⟩ | ⟨-, x, hx, hclear⟩
      · exact ⟨_, .cons valid ha hd⟩
      · exact ⟨_, .splice valid hx hclear hd⟩

/-- What is read as the source. -/
def Meets (r : Reading) (inside : Bool) : Source → Value → Prop
  | .splice _, v => ∃ x, Spliced r v x ∧ Clear r x
  | _, v => Shaped r inside v

/-- A proper element may be spliced. -/
theorem Meets.fitting {inside : Bool} {src : Source} (hsrc : ProperElement inside src)
    (hv : Meets r inside src v) : Fitting r inside v := by
  cases hsrc with
  | splice => exact .inr ⟨rfl, hv⟩
  | form hsrc => cases hsrc <;> exact .inl hv

/-- A proper source that is not an element is not. -/
theorem Meets.shaped {inside : Bool} {src : Source} (hsrc : Proper inside src)
    (hv : Meets r inside src v) : Shaped r inside v := by
  cases hsrc <;> exact hv

/-! ### Words -/

/-- A name other than those of the markers gives a symbol that is no marker. -/
theorem leads_internValue {name : List Char} (r : Reading)
    (hname : String.ofList name ≠ Backquote.unquoteName ∧ String.ofList name ≠ Backquote.spliceName) :
    Leads (internValue name) r (fun v r' => r'.ahead = r.ahead ∧ r.Grows r' ∧ v.isAtom = true ∧
      r'.symbols.NoMarker v) fun _ _ => True := by
  unfold internValue
  rw [leads_bind, leads_symbols]
  refine (SymbolTable.leads_intern _ r.symbols).mono ?_ fun _ _ he => he.elim
  -- The symbol found or made has the name asked for, which is that of neither marker.
  rintro id t ⟨hgrows, hfind⟩
  obtain ⟨hinterned, hid⟩ := SymbolTable.of_find?_eq_some hfind
  refine ⟨rfl, ⟨.refl _, hgrows⟩, ?_, fun id' hid' => ?_⟩
  · unfold Value.ofSymbol
    split
    · rfl
    · split <;> rfl
  · unfold Value.ofSymbol at hid'
    split at hid'
    · cases hid'
    · split at hid' <;> cases hid'
      exact ⟨hinterned.1, hid ▸ hname⟩

/-- So does a word. A numeral is no symbol at all. -/
theorem leads_wordValue {word : List Char} (r : Reading)
    (hname : String.ofList word ≠ Backquote.unquoteName ∧ String.ofList word ≠ Backquote.spliceName) :
    Leads (wordValue word) r (fun v r' => r'.ahead = r.ahead ∧ r.Grows r' ∧ v.isAtom = true ∧
      r'.symbols.NoMarker v) fun _ _ => True := by
  unfold wordValue
  dsimp only
  split
  · trivial
  · split
    · exact leads_internValue r hname
    · split
      · exact ⟨rfl, .refl r, rfl, by rintro id ⟨⟩⟩
      · trivial

/-! ### Lists -/

/-- At its end, a list is made of what has been read before. -/
theorem leads_listEnd_shaped {inside : Bool} {before : List Value} (hgrows : r.Grows r')
    (hbefore : ∀ v ∈ before, Fitting r inside v) (hw : Shaped r inside w) :
    Leads (liftM (Heap.listWithTail before.reverse w) : ReadM Value) r'
      (fun v r'' => r''.ahead = r'.ahead ∧ r.Grows r'' ∧ Shaped r'' inside v) fun _ _ => True := by
  rw [leads_heap]
  refine (Heap.makes_listWithTail _ w r'.heap).mono ?_ fun _ _ _ => trivial
  rintro v h ⟨he, hline⟩
  have hgrows' : r.Grows { r' with heap := h } := hgrows.trans ⟨he, .refl _⟩
  exact ⟨rfl, hgrows', .line hline (fun x hx => (hbefore x (List.mem_reverse.1 hx)).grows hgrows')
    (hw.grows hgrows')⟩

/-- A form with a mark before it is read as a list of the mark and the form. -/
theorem leads_readMarked_line {P : Value → Reading → Prop} (fuel : Nat) (head : SymbolId)
    (hx : ∀ fuel, Leads (readForm fuel) r P fun _ _ => True) :
    Leads (readMarked fuel head) r
      (fun v r' => ∃ x r₁, P x r₁ ∧ r₁.Grows r' ∧ r'.ahead = r₁.ahead ∧
        r'.heap.Line .nil [.symbol head, x] v)
      fun _ _ => True := by
  cases fuel with
  | zero => trivial
  | succ fuel =>
    rw [readMarked, leads_bind]
    refine (hx fuel).mono ?_ fun _ _ _ => trivial
    intro x r₁ hx
    rw [leads_heap]
    refine (Heap.makes_listWithTail _ _ r₁.heap).mono ?_ fun _ _ _ => trivial
    rintro v h ⟨he, hline⟩
    exact ⟨x, r₁, hx, ⟨he, .refl _⟩, rfl, hline⟩

end Reading

theorem SymbolTable.Standard.grows {t t' : SymbolTable} (h : t.Grows t') (ht : t.Standard) :
    t'.Standard := fun id hid => (ht id hid).grows h

/-- A mark and a form are read as a list of two. -/
theorem Reading.leads_readMarked_shaped {r r₀ : Reading} {inside : Bool} {x : Source} {head : SymbolId}
    {rest : List Char} (fuel : Nat) (hsrc : ProperElement inside x) (hr : r.symbols.Standard)
    (hhead : head.index < SymbolId.wellKnown.length) (hgrows : r₀.Grows r)
    (hx : ∀ fuel, Leads (readForm fuel) r
      (fun v r' => r'.ahead = rest ∧ r.Grows r' ∧ Meets r' inside x v) fun _ _ => True) :
    Leads (readMarked fuel head) r
      (fun v r' => r'.ahead = rest ∧ r₀.Grows r' ∧ Shaped r' inside v) fun _ _ => True := by
  refine (leads_readMarked_line fuel head hx).mono ?_ fun _ _ _ => trivial
  rintro v r' ⟨x, r₁, ⟨hahead, hgrows₁, hx⟩, hgrows', hahead', hline⟩
  have hplain : r'.symbols.NoMarker (.symbol head) :=
    ((hr head hhead).grows hgrows₁.symbols).grows hgrows'.symbols
  refine ⟨hahead'.trans hahead, (hgrows.trans hgrows₁).trans hgrows', .line hline ?_ ?_⟩
  · simpa using ⟨.inl (.of_atom inside rfl hplain), (hx.fitting hsrc).grows hgrows'⟩
  · exact .of_atom inside rfl nofun

/-- A backquote and a template are read as the expansion of the template. -/
theorem Reading.leads_backquote {r : Reading} {x : Source} {cs rest : List Char} {fuel : Nat}
    (hahead : r.stripped.ahead = '\x60' :: cs) (template : Proper true x) (hr : r.symbols.Standard)
    (hx : ∀ {q : Reading}, q.symbols.Standard → q.ahead = cs → Leads (readForm fuel) q
      (fun v q' => q'.ahead = rest ∧ q.Grows q' ∧ Meets q' true x v) fun _ _ => True) :
    Leads (readForm (fuel + 1)) r
      (fun v r' => r'.ahead = rest ∧ r.Grows r' ∧ Shaped r' false v) fun _ _ => True := by
  rw [leads_readForm_backquote hahead]
  refine (hx (q := { r.stripped.after ['\x60'] cs r.heap with backquotes := r.backquotes + 1 }) hr
    rfl).mono ?_ fun _ _ _ => trivial
  rintro v r₁ ⟨hahead₁, hgrows₁, hv⟩
  -- The template is expanded outside of the backquote.
  obtain ⟨T, hT⟩ := hv.shaped template
  have hsame : r₁.Grows { r₁ with backquotes := r₁.backquotes - 1 } := ⟨.refl _, .refl _⟩
  have hT := hT.grows hsame
  obtain ⟨t, ht⟩ := hT.unfolds
  refine (leads_expandBackquote ht hT.marks).mono ?_ fun _ _ _ => trivial
  rintro f r₂ ⟨he, heq, hf⟩
  have hgrows₂ : Reading.Grows { r₁ with backquotes := r₁.backquotes - 1 } r₂ :=
    ⟨he, heq ▸ .refl _⟩
  have hsymbols := hgrows₁.symbols.trans hgrows₂.symbols
  refine ⟨by rw [heq]; exact hahead₁, ⟨hgrows₁.heap.trans he, hsymbols⟩, ?_⟩
  exact hf.clear (hr.grows hsymbols) (hT.clearIn.grows hgrows₂)

/-- A comma, with its sign if it has one, and a form are read as a list of the marker and the form. -/
theorem Reading.leads_comma {r : Reading} {marker : String} {x : Source} {passed cs rest : List Char}
    {fuel : Nat} (hahead : r.stripped.ahead = ',' :: (passed ++ cs))
    (hmarker : passed = [] ∧ cs.head? ≠ some '@' ∧ marker = Backquote.unquoteName ∨
      passed = ['@'] ∧ marker = Backquote.spliceName)
    (hsrc : Proper false x) (hr : r.symbols.Standard)
    (hx : ∀ (fuel : Nat) {q : Reading}, q.symbols.Standard → q.ahead = cs → Leads (readForm fuel) q
      (fun v q' => q'.ahead = rest ∧ q.Grows q' ∧ Meets q' false x v) fun _ _ => True) :
    Leads (readForm (fuel + 1)) r
      (fun v r' => r'.ahead = rest ∧ r.Grows r' ∧ ∃ u x, r'.symbols.find? marker = some u ∧
        r'.heap.Line .nil [.symbol u, x] v ∧ Clear r' x)
      fun _ _ => True := by
  refine (leads_readForm_comma hahead hmarker).2 fun _ => ?_
  refine (SymbolTable.leads_intern marker r.symbols).mono ?_ fun _ _ he => he.elim
  rintro head t ⟨ht, hfind⟩
  refine (leads_readMarked_line fuel head fun fuel => hx fuel (hr.grows ht) rfl).mono ?_
    fun _ _ _ => trivial
  rintro v r' ⟨x, r₁, ⟨hahead₁, hgrows₁, hx⟩, hgrows', hahead', hline⟩
  -- The marker has been interned before the form, and the backquote around is counted again after it.
  have hinterned : r.Grows { r.stripped.after (',' :: passed) cs r.heap with
      symbols := t, backquotes := r.backquotes - 1 } := ⟨.refl _, ht⟩
  have hsame : r'.Grows { r' with backquotes := r'.backquotes + 1 } := ⟨.refl _, .refl _⟩
  refine ⟨hahead'.trans hahead₁, (hinterned.trans hgrows₁).trans (hgrows'.trans hsame), head, x, ?_,
    hline, (Clear.grows hgrows' (hx.shaped hsrc)).grows hsame⟩
  exact hgrows'.symbols.find? (hgrows₁.symbols.find? hfind)

mutual

/-- By recursion on the way in which the text spells the source, with any bound for the nested
    calls. -/
theorem Spells.leads_readForm : ∀ {src : Source} {text rest : List Char}, Spells src text rest →
    ∀ {inside : Bool} {r : Reading} (fuel : Nat), ProperElement inside src → r.symbols.Standard →
      r.ahead = text → Leads (readForm fuel) r
        (fun v r' => r'.ahead = rest ∧ r.Grows r' ∧ Meets r' inside src v) fun _ _ => True
  | _, _, _, _, _, _, 0, _, _, _ => trivial
  -- A word that is no marker is read as an atom that is none.
  | _, _, _, .word start ends bar hash, inside, r, fuel + 1, hsrc, hr, hahead => by
    subst hahead
    cases hsrc with
    | form hsrc =>
    cases hsrc with
    | word other =>
    have hahead : r.stripped.ahead = _ := start
    rw [leads_readForm_stripped, Leads, readForm_word hahead ends bar hash]
    change Leads (wordValue (r.stripped.ahead.takeWhile (!endsWord ·)))
      (r.stripped.after (r.stripped.ahead.takeWhile (!endsWord ·))
        (r.stripped.ahead.dropWhile (!endsWord ·)) r.heap) _ _
    rw [hahead]
    refine (leads_wordValue _ other).mono ?_ fun _ _ _ => trivial
    rintro v r' ⟨hahead', hgrows, atom, plain⟩
    exact ⟨hahead', ⟨hgrows.heap, hgrows.symbols⟩, .of_atom inside atom plain⟩
  | _, _, _, .bars start plain, inside, r, fuel + 1, hsrc, hr, hahead => by
    subst hahead
    cases hsrc with
    | form hsrc =>
    cases hsrc with
    | word other =>
    have hahead : r.stripped.ahead = _ := start
    rw [leads_readForm_stripped, Leads, readForm_bar hahead, readBars_eq hahead plain]
    refine (leads_internValue _ other).mono ?_ fun _ _ _ => trivial
    rintro v r' ⟨hahead', hgrows, atom, plain⟩
    exact ⟨hahead', ⟨hgrows.heap, hgrows.symbols⟩, .of_atom inside atom plain⟩
  | _, _, _, .list start elements, inside, r, fuel + 1, hsrc, hr, hahead => by
    subst hahead
    cases hsrc with
    | form hsrc =>
    cases hsrc with
    | list hl =>
    rw [leads_readForm_list start]
    refine (elements.leads_readElements (r := r.stripped.after ['('] _ r.heap) fuel hl hr rfl
      (List.forall_mem_nil _)).mono ?_ fun _ _ _ => trivial
    rintro v r' ⟨hahead', hgrows, hv⟩
    exact ⟨hahead', ⟨hgrows.heap, hgrows.symbols⟩, hv⟩
  -- A short form is a list with a symbol in front that is no marker.
  | _, _, _, .quote start form, inside, r, fuel + 1, hsrc, hr, hahead => by
    subst hahead
    cases hsrc with
    | form hsrc =>
    cases hsrc with
    | short hsrc =>
    rw [leads_readForm_quote start]
    exact leads_readMarked_shaped fuel hsrc hr (by decide) ⟨.refl _, .refl _⟩
      fun fuel => form.leads_readForm fuel hsrc hr rfl
  | _, _, _, .function start form, inside, r, fuel + 1, hsrc, hr, hahead => by
    subst hahead
    cases hsrc with
    | form hsrc =>
    cases hsrc with
    | short hsrc =>
    rw [leads_readForm_function start]
    exact leads_readMarked_shaped fuel hsrc hr (by decide) ⟨.refl _, .refl _⟩
      fun fuel => form.leads_readForm fuel hsrc hr rfl
  -- A backquote leaves nothing of its template's markers behind.
  | _, _, _, .backquote start form, inside, r, fuel + 1, hsrc, hr, hahead => by
    subst hahead
    cases hsrc with
    | form hsrc =>
    cases hsrc with
    | backquote template =>
    exact leads_backquote start template hr fun hr' hahead' =>
      form.leads_readForm fuel (.form template) hr' hahead'
  -- A comma leaves its marker, for the backquote around.
  | _, _, _, .comma start plain form, inside, r, fuel + 1, hsrc, hr, hahead => by
    subst hahead
    cases hsrc with
    | form hsrc =>
    cases hsrc with
    | comma hsrc =>
    refine (leads_comma (show r.stripped.ahead = ',' :: ([] ++ _) from start)
      (.inl ⟨rfl, plain, rfl⟩) hsrc hr fun fuel _ hr' hahead' =>
      form.leads_readForm fuel (.form hsrc) hr' hahead').mono ?_ fun _ _ _ => trivial
    rintro v r' ⟨hahead', hgrows, u, x, hfind, hline, hclear⟩
    exact ⟨hahead', hgrows, _, .unquote hfind hline hclear⟩
  | _, _, _, .splice start form, inside, r, fuel + 1, hsrc, hr, hahead => by
    subst hahead
    cases hsrc with
    | form hsrc => cases hsrc
    | splice hsrc =>
    refine (leads_comma (show r.stripped.ahead = ',' :: (['@'] ++ _) from start)
      (.inr ⟨rfl, rfl⟩) hsrc hr fun fuel _ hr' hahead' =>
      form.leads_readForm fuel (.form hsrc) hr' hahead').mono ?_ fun _ _ _ => trivial
    rintro v r' ⟨hahead', hgrows, u, x, hfind, hline, hclear⟩
    exact ⟨hahead', hgrows, x, ⟨u, hfind, hline⟩, hclear⟩

/-- The elements that have been read before are handed along. -/
theorem SpellsElements.leads_readElements : ∀ {l : Elements} {text rest : List Char},
    SpellsElements l text rest → ∀ {inside : Bool} {r : Reading} {before : List Value} (fuel : Nat),
      ProperElements inside l → r.symbols.Standard → r.ahead = text →
      (∀ v ∈ before, Fitting r inside v) → Leads (readElements fuel before) r
        (fun v r' => r'.ahead = rest ∧ r.Grows r' ∧ Shaped r' inside v) fun _ _ => True
  | _, _, _, _, _, _, _, 0, _, _, _, _ => trivial
  | _, _, _, .nil close, inside, r, before, fuel + 1, hl, hr, hahead, hbefore => by
    subst hahead
    rw [leads_readElements_nil close]
    exact leads_listEnd_shaped (r.grows_after _ _) hbefore (.of_atom inside rfl nofun)
  -- The tail after a dot is read, and ends the list.
  | _, _, _, .dot start separator form close, inside, r, before, fuel + 1, hl, hr, hahead, hbefore => by
    subst hahead
    cases hl with
    | dot tail =>
    refine leads_readElements_dotted start separator ?_
    refine (form.leads_readForm (r := r.stripped.after ['.'] _ r.heap) fuel (.form tail) hr rfl).mono ?_
      fun _ _ _ => trivial
    rintro w r₁ ⟨hahead₁, hgrows₁, hw⟩
    replace hgrows₁ := (r.grows_after _ _).trans hgrows₁
    have hclose : closeDotted r₁ = .ok () (r₁.stripped.after [')'] _ r₁.heap) := closeDotted_at (hahead₁ ▸ close)
    rw [leads_bind, leads_of_ok hclose]
    refine (leads_listEnd_shaped (r₁.grows_after _ _) (fun v hv => (hbefore v hv).grows hgrows₁)
      (hw.shaped tail)).mono ?_ fun _ _ _ => trivial
    rintro v r₂ ⟨hahead₂, hgrows₂, hv⟩
    exact ⟨hahead₂, hgrows₁.trans hgrows₂, hv⟩
  | _, _, _, .cons start element form elements, inside, r, before, fuel + 1, hl, hr, hahead, hbefore => by
    subst hahead
    cases hl with
    | cons head rest =>
    refine leads_readElements_cons start element ?_
    refine (form.leads_readForm (r := r) fuel head hr rfl).mono ?_ fun _ _ _ => trivial
    rintro x r₁ ⟨hahead₁, hgrows₁, hx⟩
    have hbefore₁ : ∀ v ∈ x :: before, Fitting r₁ inside v :=
      List.forall_mem_cons.2 ⟨hx.fitting head, fun v hv => (hbefore v hv).grows hgrows₁⟩
    refine (elements.leads_readElements fuel rest (hr.grows hgrows₁.symbols) hahead₁ hbefore₁).mono ?_
      fun _ _ _ => trivial
    rintro v r₂ ⟨hahead₂, hgrows₂, hv⟩
    exact ⟨hahead₂, hgrows₁.trans hgrows₂, hv⟩

end

/-! ## Misplaced splices -/

namespace Reading

variable {r : Reading} {v x : Value}

/-- A form to be spliced is no template. -/
theorem leads_expandBackquote_spliced (hv : Spliced r v x) :
    Leads (expandBackquote v) r (fun _ _ => False) fun _ _ => True := by
  obtain ⟨u, hu, hline⟩ := hv
  obtain ⟨id, rfl, -, hhead, -⟩ := hline.cons_inv
  have hsplice : Backquote.marked? r.heap r.markers.splice (.pair id) = some x :=
    Marks.marked?_eq hu hline
  -- The head of the form is the marker of a splice, and the two markers differ.
  have hunquote : Backquote.marked? r.heap r.markers.unquote (.pair id) = none := by
    refine Marks.marked?_eq_none fun id' u' hid hu' hmarker => ?_
    cases hid
    rw [hhead] at hu'
    cases hu'
    exact r.distinct_markers u hmarker hu
  change Leads (get >>= fun r' => liftM (r'.markers.expand (.pair id)) : ReadM Value) r _ _
  rw [leads_bind, leads_get, leads_heap, Backquote.expand, StackLisp.leads_bind, StackLisp.leads_get,
    Backquote.expandFrom, StackLisp.leads_bind, StackLisp.leads_get, hunquote]
  change Leads (get >>= fun h' => _) r.heap _ _
  rw [StackLisp.leads_bind, StackLisp.leads_get, if_pos (by rw [hsplice]; rfl)]
  trivial

/-- An expansion does not go on in the text. -/
theorem leads_expandBackquote_ahead (v : Value) (r : Reading) :
    Leads (expandBackquote v) r (fun _ r' => r'.ahead = r.ahead) fun _ _ => True := by
  change Leads (get >>= fun r' => liftM (r'.markers.expand v) : ReadM Value) r _ _
  rw [leads_bind, leads_get, leads_heap]
  exact leads_trivial.mono (fun _ _ _ => rfl) fun _ _ _ => trivial

/-- Neither does interning a name. -/
theorem leads_internValue_ahead (name : List Char) (r : Reading) :
    Leads (internValue name) r (fun _ r' => r'.ahead = r.ahead) fun _ _ => True := by
  rw [internValue, leads_bind, leads_symbols]
  exact leads_trivial.mono (fun _ _ _ => rfl) fun _ _ _ => trivial

theorem leads_wordValue_ahead (word : List Char) (r : Reading) :
    Leads (wordValue word) r (fun _ r' => r'.ahead = r.ahead) fun _ _ => True := by
  unfold wordValue
  dsimp only
  split
  · trivial
  · split
    · exact leads_internValue_ahead _ r
    · split
      · exact rfl
      · trivial

end Reading

/-- After the sign `,@` a form is read and marked. -/
theorem Spells.leads_spliced {x : Source} {text rest : List Char} (h : Spells (.splice x) text rest)
    {r : Reading} (fuel : Nat) (hahead : r.ahead = text) :
    Leads (readForm fuel) r (fun v r' => ∃ x, Spliced r' v x) fun _ _ => True := by
  subst hahead
  cases fuel with
  | zero => trivial
  | succ fuel =>
  cases h with
  | splice start form =>
  refine (leads_readForm_comma (show r.stripped.ahead = ',' :: (['@'] ++ _) from start)
    (.inr ⟨rfl, rfl⟩)).2 fun _ => ?_
  refine (SymbolTable.leads_intern _ r.symbols).mono ?_ fun _ _ he => he.elim
  rintro head t ⟨-, hfind⟩
  refine (leads_readMarked_line fuel head fun fuel =>
    ((Tidy.read fuel).1 _).mono (fun _ _ h => h.symbols) fun _ _ _ => trivial).mono ?_ fun _ _ _ => trivial
  rintro v r' ⟨x, r₁, hgrows₁, hgrows', -, hline⟩
  exact ⟨x, head, hgrows'.symbols.find? (hgrows₁.find? hfind), hline⟩

mutual

/-- What a text spells is read up to where it ends, unless a `,@` stands directly under a
    backquote. -/
theorem Spells.leads_unbroken : ∀ {src : Source} {text rest : List Char}, Spells src text rest →
    ∀ {r : Reading} (fuel : Nat), r.ahead = text → Leads (readForm fuel) r
      (fun _ r' => r'.ahead = rest ∧ ¬Broken src) fun _ _ => True
  | _, _, _, _, _, 0, _ => trivial
  -- A word, with or without bars, has nothing in it that could be broken.
  | _, _, _, .word start ends bar hash, r, fuel + 1, hahead => by
    subst hahead
    have hahead : r.stripped.ahead = _ := start
    rw [leads_readForm_stripped, Leads, readForm_word hahead ends bar hash]
    change Leads (wordValue (r.stripped.ahead.takeWhile (!endsWord ·)))
      (r.stripped.after (r.stripped.ahead.takeWhile (!endsWord ·))
        (r.stripped.ahead.dropWhile (!endsWord ·)) r.heap) _ _
    rw [hahead]
    exact (leads_wordValue_ahead _ _).mono (fun _ _ h => ⟨h, nofun⟩) fun _ _ _ => trivial
  | _, _, _, .bars start plain, r, fuel + 1, hahead => by
    subst hahead
    have hahead : r.stripped.ahead = _ := start
    rw [leads_readForm_stripped, Leads, readForm_bar hahead, readBars_eq hahead plain]
    exact (leads_internValue_ahead _ _).mono (fun _ _ h => ⟨h, nofun⟩) fun _ _ _ => trivial
  -- Whatever breaks a list, a short form or a comma breaks a part of it, and that has been read.
  | _, _, _, .list start elements, r, fuel + 1, hahead => by
    subst hahead
    rw [leads_readForm_list start]
    refine (elements.leads_unbroken fuel rfl).mono ?_ fun _ _ _ => trivial
    rintro v r' ⟨hahead', hunbroken⟩
    exact ⟨hahead', fun | .list h => hunbroken h⟩
  | _, _, _, .quote start form, r, fuel + 1, hahead => by
    subst hahead
    rw [leads_readForm_quote start]
    refine (leads_readMarked_line fuel _ fun fuel => form.leads_unbroken fuel rfl).mono ?_
      fun _ _ _ => trivial
    rintro v r' ⟨x, r₁, ⟨hahead₁, hunbroken⟩, -, hahead', -⟩
    exact ⟨hahead'.trans hahead₁, fun | .short h => hunbroken h⟩
  | _, _, _, .function start form, r, fuel + 1, hahead => by
    subst hahead
    rw [leads_readForm_function start]
    refine (leads_readMarked_line fuel _ fun fuel => form.leads_unbroken fuel rfl).mono ?_
      fun _ _ _ => trivial
    rintro v r' ⟨x, r₁, ⟨hahead₁, hunbroken⟩, -, hahead', -⟩
    exact ⟨hahead'.trans hahead₁, fun | .short h => hunbroken h⟩
  | _, _, _, .backquote (x := src) start form, r, fuel + 1, hahead => by
    subst hahead
    rw [leads_readForm_backquote start]
    -- A template that is a splice itself is the broken one: its expansion fails. What comes of any
    -- other template does not matter here, as what was broken in it would have been so before.
    by_cases hsplice : ∃ y, Source.splice y = src
    · obtain ⟨y, rfl⟩ := hsplice
      refine (form.leads_spliced fuel rfl).mono ?_ fun _ _ _ => trivial
      rintro v r₁ ⟨x, hx⟩
      have hsame : r₁.Grows { r₁ with backquotes := r₁.backquotes - 1 } := ⟨.refl _, .refl _⟩
      exact (leads_expandBackquote_spliced (hx.grows hsame)).mono (fun _ _ h => h.elim)
        fun _ _ _ => trivial
    · refine (form.leads_unbroken fuel rfl).mono ?_ fun _ _ _ => trivial
      rintro v r₁ ⟨hahead₁, hunbroken⟩
      refine (leads_expandBackquote_ahead v _).mono (fun f r₂ hahead₂ => ⟨hahead₂.trans hahead₁, ?_⟩)
        fun _ _ _ => trivial
      rintro (_ | _ | _ | h)
      · exact hsplice ⟨_, rfl⟩
      · exact hunbroken h
  -- The reader has counted a backquote around, or it has failed at the comma.
  | _, _, _, .comma start plain form, r, fuel + 1, hahead => by
    subst hahead
    refine (leads_readForm_comma (show r.stripped.ahead = ',' :: ([] ++ _) from start)
      (.inl ⟨rfl, plain, rfl⟩)).2 fun _ => ?_
    refine leads_trivial.mono (fun head t _ => ?_) fun _ _ _ => trivial
    refine (leads_readMarked_line fuel head fun fuel => form.leads_unbroken fuel rfl).mono ?_
      fun _ _ _ => trivial
    rintro v r' ⟨x, r₁, ⟨hahead₁, hunbroken⟩, -, hahead', -⟩
    exact ⟨hahead'.trans hahead₁, fun | .comma h => hunbroken h⟩
  | _, _, _, .splice start form, r, fuel + 1, hahead => by
    subst hahead
    refine (leads_readForm_comma (show r.stripped.ahead = ',' :: (['@'] ++ _) from start)
      (.inr ⟨rfl, rfl⟩)).2 fun _ => ?_
    refine leads_trivial.mono (fun head t _ => ?_) fun _ _ _ => trivial
    refine (leads_readMarked_line fuel head fun fuel => form.leads_unbroken fuel rfl).mono ?_
      fun _ _ _ => trivial
    rintro v r' ⟨x, r₁, ⟨hahead₁, hunbroken⟩, -, hahead', -⟩
    exact ⟨hahead'.trans hahead₁, fun | .splice h => hunbroken h⟩

/-- The same for the elements of a list. -/
theorem SpellsElements.leads_unbroken : ∀ {l : Elements} {text rest : List Char},
    SpellsElements l text rest → ∀ {r : Reading} {before : List Value} (fuel : Nat),
      r.ahead = text → Leads (readElements fuel before) r
        (fun _ r' => r'.ahead = rest ∧ ¬BrokenElements l) fun _ _ => True
  | _, _, _, _, _, _, 0, _ => trivial
  | _, _, _, .nil close, r, before, fuel + 1, hahead => by
    subst hahead
    rw [leads_readElements_nil close, Reading.leads_heap]
    exact leads_trivial.mono (fun _ _ _ => ⟨rfl, nofun⟩) fun _ _ _ => trivial
  -- A form behind the dot is the last one before the list is closed.
  | _, _, _, .dot start separator form close, r, before, fuel + 1, hahead => by
    subst hahead
    refine leads_readElements_dotted start separator ?_
    refine (form.leads_unbroken (r := r.stripped.after ['.'] _ r.heap) fuel rfl).mono ?_
      fun _ _ _ => trivial
    rintro w r₁ ⟨hahead₁, hunbroken⟩
    rw [leads_bind, leads_of_ok (closeDotted_at (hahead₁ ▸ close)), Reading.leads_heap]
    exact leads_trivial.mono (fun _ _ _ => ⟨rfl, fun | .dot h => hunbroken h⟩) fun _ _ _ => trivial
  | _, _, _, .cons start element form elements, r, before, fuel + 1, hahead => by
    subst hahead
    refine leads_readElements_cons start element ?_
    refine (form.leads_unbroken (r := r) fuel rfl).mono ?_ fun _ _ _ => trivial
    rintro x r₁ ⟨hahead₁, hunbroken⟩
    refine (elements.leads_unbroken fuel hahead₁).mono ?_ fun _ _ _ => trivial
    rintro v r₂ ⟨hahead₂, hunbroken'⟩
    exact ⟨hahead₂, fun | .head h => hunbroken h | .rest h => hunbroken' h⟩

end

/-! ## Whole texts -/

/-- A text that spells a form holds one to be read. -/
theorem Spells.leads_next {src : Source} {text rest : List Char} (h : Spells src text rest)
    {r : Reading} (hahead : r.ahead = text) (fuel : Nat) {ok : Option Value → Reading → Prop}
    {err : Failure → Reading → Prop} :
    Leads (next? (fuel + 1)) r ok err ↔
      Leads (readForm (fuel + 1)) r (fun v r' => ok (some v) r') err := by
  have hne : r.stripped.ahead.isEmpty = false := by
    subst hahead
    rw [List.isEmpty_eq_false_iff]
    change Text.strip r.ahead ≠ []
    cases h <;> simp_all
  rw [next?, leads_bind, leads_of_ok r.skip_stripped.1, leads_bind, leads_get, hne,
    leads_readForm_stripped]
  simp only [Bool.false_eq_true, if_false, leads_bind, leads_pure]

/-- Where a `,@` stands directly under a backquote, reading the text fails, and the text is at
    fault if there is room. Nothing but what the text spells is read of it, and no markers are
    left in what is read, if the markers are not named and every `,@` is an element of a
    list. -/
theorem readNext_spelled {src : Source} {text rest : List Char} (h : Spells src text rest)
    (image : Image) :
    Leads (Image.readNext text) image
      (fun result image' => ¬Broken src ∧ ∃ v n, result = some (v, rest, n) ∧
        (image.symbols.Standard → Proper false src →
          ∃ t, image'.heap.Unfolds v t ∧ ∀ leaf ∈ t.leaves, image'.symbols.NoMarker leaf))
      fun e _ => e = .error .heapOverflow ∨
        ∃ fault offset, e = .error (.read (.malformed fault offset)) := by
  have hends := (Image.alongside_next_reader (d := 0) image (Nat.le_refl (2 * text.length + 1))).leads
  rw [Image.readNext, Image.readWithin, leads_bind, Image.leads_reading]
  change Leads (next? (2 * text.length + 1)) (image.reader text) _ _
  change Leads (next? (2 * text.length + 1)) (image.reader text) _ _ at hends
  rw [h.leads_next rfl] at hends ⊢
  have hread := (h.leads_unbroken (r := image.reader text) (2 * text.length + 1) rfl).and
    ((Tidy.read (2 * text.length + 1)).1 (image.reader text))
  have hclear : Leads (readForm (2 * text.length + 1)) (image.reader text)
      (fun v r' => image.symbols.Standard → Proper false src → Clear r' v) fun _ _ => True := by
    -- What is said of the value needs both the standard markers and a text that is spelled
    -- properly.
    by_cases hsrc : image.symbols.Standard ∧ Proper false src
    · refine (h.leads_readForm (r := image.reader text) _ (.form hsrc.2) hsrc.1 rfl).mono ?_
        fun _ _ _ => trivial
      exact fun v r' hv _ _ => hv.2.2.shaped hsrc.2
    · exact leads_trivial.mono (fun v r' _ hstandard hproper => absurd ⟨hstandard, hproper⟩ hsrc)
        fun _ _ _ => trivial
  refine ((hread.and hclear).and hends).mono ?_ ?_
  · rintro v r' ⟨⟨⟨⟨hahead, hunbroken⟩, -⟩, hclear⟩, -⟩
    refine ⟨hunbroken, v, r'.offset, ?_, fun hstandard hproper => (hclear hstandard hproper).unfolds⟩
    rw [hahead]
    rfl
  · rintro e r' ⟨⟨⟨-, hfails, -⟩, -⟩, hne⟩
    cases hfails with
    | text fault offset => exact .inr ⟨fault, offset, rfl⟩
    | room => exact .inl rfl
    | bound => exact absurd rfl hne

/-! ### Splices in their place and out of it -/

/-- An image that only knows the symbols that the reader and the compiler refer to. -/
def standardImage : Image := { heap := .empty 100 }

/-- The table of symbols begins with the symbols that are referred to. -/
theorem standard_initial : SymbolTable.initial.Standard := by
  rintro ⟨i⟩ hi _ ⟨⟩
  revert i
  decide +kernel

section

variable {cs rest : List Char}

/-- A letter followed by a blank. -/
theorem spells_a : Spells (.word ['a']) ('a' :: ' ' :: cs) (' ' :: cs) :=
  @Spells.word _ (' ' :: cs) 'a' rfl rfl (by decide) (by decide)

/-- The text `,@b` before a closing parenthesis. -/
theorem spells_splice_b : Spells (.splice (.word ['b'])) (' ' :: ',' :: '@' :: 'b' :: ')' :: cs) (')' :: cs) :=
  .splice rfl (@Spells.word _ (')' :: cs) 'b' rfl rfl (by decide) (by decide))

end

/-- A splice that is an element of a list is read, and no marker is left. A splice directly
    under a backquote is not read. -/
theorem readNext_spelled_splice :
    Leads (Image.readNext "`(a ,@b)".toList) standardImage
      (fun result image' => ∃ v n t, result = some (v, [], n) ∧ image'.heap.Unfolds v t ∧
        ∀ leaf ∈ t.leaves, image'.symbols.NoMarker leaf)
      (fun e _ => e = .error .heapOverflow ∨
        ∃ fault offset, e = .error (.read (.malformed fault offset))) ∧
    Leads (Image.readNext "`,@b".toList) standardImage (fun _ _ => False)
      fun e _ => e = .error .heapOverflow ∨
        ∃ fault offset, e = .error (.read (.malformed fault offset)) := by
  constructor
  · have hspells : Spells (.backquote (.list (.cons (.word ['a']) (.cons (.splice (.word ['b'])) .nil))))
        "`(a ,@b)".toList [] :=
      .backquote rfl (.list rfl (.cons (c := 'a') rfl (by decide) spells_a
        (.cons (c := ',') rfl (by decide) spells_splice_b (.nil rfl))))
    have hproper : Proper false (.backquote (.list (.cons (.word ['a']) (.cons (.splice (.word ['b'])) .nil)))) :=
      .backquote (.list (.cons (.form (.word (by decide))) (.cons (.splice (.word (by decide))) .nil)))
    generalize "`(a ,@b)".toList = text at hspells ⊢
    refine (readNext_spelled hspells standardImage).mono ?_ fun _ _ he => he
    rintro result image' ⟨-, v, n, rfl, hclear⟩
    obtain ⟨t, ht, hleaves⟩ := hclear standard_initial hproper
    exact ⟨v, n, t, rfl, ht, hleaves⟩
  · have hspells : Spells (.backquote (.splice (.word ['b']))) "`,@b".toList [] :=
      .backquote rfl (.splice rfl (@Spells.word _ [] 'b' rfl rfl (by decide) (by decide)))
    generalize "`,@b".toList = text at hspells ⊢
    exact (readNext_spelled hspells standardImage).mono (fun _ _ h => h.1 .here) fun _ _ he => he

/-- A splice after a dot is read as if its marker and its form were two more elements. -/
theorem dotted_splice_read :
    Spells (.backquote (.list (.cons (.word ['a']) (.dot (.splice (.word ['b']))))))
      "`(a . ,@b)".toList [] ∧
    Leads (Image.readNext "`(a . ,@b)".toList) standardImage
      (fun result image' => result.map (fun p => (image'.print p.1, p.2.1)) =
        some ("(list 'a 'unquote-splicing 'b)", []))
      fun _ _ => False := by
  constructor
  · have hdot : SpellsElements (.dot (.splice (.word ['b']))) " . ,@b)".toList [] :=
      .dot rfl rfl spells_splice_b rfl
    exact .backquote rfl (.list rfl (.cons (c := 'a') rfl (by decide) spells_a hdot))
  · decide +kernel

end StackLisp
