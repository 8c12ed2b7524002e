import StackLisp.Proofs.Safety.Sound
import StackLisp.Reading.Form

/-!
# Reading in order

A reader makes new data and interns symbols, and does nothing else to the
interpreter it reads into (`Reads`). So what it reads is data that programs may
see (`safe_readWithin`), whatever the text.
-/

namespace StackLisp

open Interpreter Layout

section

variable {n : Nat} {L : Layout} {h : Heap}

/-! ## Templates -/

/-- The only element of a visible list is visible. -/
theorem Layout.Fits.onlyElement? (hL : L.Fits h) {v w : Value} (hv : L.Visible v)
    (hw : h.onlyElement? v = some w) : L.Visible w := by
  cases v with
  | pair id =>
    simp only [Heap.onlyElement?] at hw
    split at hw <;> cases hw
    exact (hL.data id hv).2.1
  | _ => cases hw

/-- So is the form under a marker. -/
theorem Layout.Fits.marked? (hL : L.Fits h) {marker : Option SymbolId} {v w : Value}
    (hv : L.Visible v) (hw : Backquote.marked? h marker v = some w) : L.Visible w := by
  unfold Backquote.marked? at hw
  split at hw
  · next id =>
    split at hw
    · split at hw
      · exact hL.onlyElement? (hL.data id hv).2.2 hw
      · cases hw
    · cases hw
  · cases hw

/-- A list of two values is new data. -/
theorem safe_listOfTwo {v w : Value} (hL : L.Fits h) (hv : L.Visible v) (hw : L.Visible w) :
    Safe (Extends n) L (Heap.listOfTwo v w) h fun L' x _ => L'.Visible x := by
  refine (safe_cons (d := .nil) hL hw trivial).bind fun L' x h' e hx => ?_
  exact safe_cons e.fits (hv.within e.grows.within) hx

/-- A call that makes a list of segments is new data. -/
theorem safe_assembleItems {segments : List Segment} (hL : L.Fits h)
    (hs : ∀ x ∈ segments, L.Visible x.form) :
    Safe (Extends n) L (Backquote.assembleItems segments) h fun L' v _ => L'.Visible v := by
  refine (Safe.foldlM (b := .nil) (I := fun L' v _ => L'.Visible v) hL.extends trivial
    fun x hx L' v h' e hv => ?_).bind fun L' v h' e hv =>
      safe_cons e.fits (visible_symbol L' .list (by decide)) hv
  exact safe_cons e.fits ((hs x hx).within e.grows.within) hv

/-- So is a call that puts such a list in front of a tail. -/
theorem safe_assemble {segments : List Segment} {tail : Value} (hL : L.Fits h)
    (hs : ∀ x ∈ segments, L.Visible x.form) (htail : L.Visible tail) :
    Safe (Extends n) L (Backquote.assemble segments tail) h fun L' v _ => L'.Visible v := by
  unfold Backquote.assemble
  split
  · exact safe_assembleItems hL hs
  · refine Safe.foldlM (I := fun L' v _ => L'.Visible v) hL.extends htail
      fun x hx L' v h' e hv => ?_
    have hform : L'.Visible x.form := (hs x hx).within e.grows.within
    -- Each segment is one more call of `cons` or `append` around what was assembled from the
    -- segments behind it.
    have hlist (head : SymbolId) (hhead : 2 ≤ head.index) :
        Safe (Extends n) L' (Heap.list [.symbol head, x.form, v]) h' fun L' v _ => L'.Visible v :=
      safe_list e.fits (by simpa using ⟨visible_symbol L' head hhead, hform, hv⟩)
    cases x with
    | item form => exact hlist .cons (by decide)
    | splice form =>
      change Safe _ _ (if v.isNil then pure form else _) _ _
      split
      · exact Safe.pure e.fits.extends hform
      · exact hlist .append (by decide)

/-- Templates and the segments of template lists turn into forms that are data. -/
theorem safe_expandTemplate (b : Backquote) (fuel : Nat) :
    (∀ {L : Layout} {h : Heap} {v : Value}, L.Fits h → L.Visible v →
      Safe (Extends n) L (b.expandFrom fuel v) h fun L' w _ => L'.Visible w) ∧
    ∀ {L : Layout} {h : Heap} {before : List Segment} {v : Value}, L.Fits h → L.Visible v →
      (∀ x ∈ before, L.Visible x.form) →
      Safe (Extends n) L (b.segmentsFrom fuel before v) h fun L' p _ =>
        (∀ x ∈ p.1, L'.Visible x.form) ∧ L'.Visible p.2 := by
  -- Both walks at once: expanding a template splits it into segments, and a segment is expanded in
  -- turn.
  induction fuel with
  | zero => exact ⟨fun hL _ => Safe.throw hL.extends trivial, fun hL _ _ => Safe.throw hL.extends trivial⟩
  | succ fuel ih =>
    obtain ⟨hexpand, hsegments⟩ := ih
    refine ⟨fun {L h v} hL hv => ?_, fun {L h before v} hL hv hbefore => ?_⟩
    · unfold Backquote.expandFrom
      rw [safe_get_bind]
      cases hmarked : Backquote.marked? h b.unquote v with
      | some x => exact Safe.pure hL.extends (hL.marked? hv hmarked)
      | none =>
        simp only [safe_get_bind]
        split
        · exact safe_raise_bind hL.extends trivial
        · cases v with
          | pair id =>
            refine Safe.bind (hsegments hL hv (List.forall_mem_nil _)) ?_
            rintro L₁ ⟨segments, rest⟩ h₁ e₁ ⟨hs, hrest⟩
            simp only
            split
            · exact safe_assemble e₁.fits hs trivial
            · refine Safe.bind (hexpand e₁.fits hrest) fun L₂ tail h₂ e₂ htail => ?_
              exact safe_assemble e₂.fits (fun x hx => (hs x hx).within e₂.grows.within) htail
          | symbol id => exact safe_listOfTwo hL (visible_symbol L .quote (by decide)) hv
          | _ => exact Safe.pure hL.extends hv
    -- The heap has grown with what has been expanded, so what is left to do is looked up in the new
    -- one.
    · unfold Backquote.segmentsFrom
      cases v with
      | pair id =>
        obtain ⟨-, hcar, hcdr⟩ := hL.data id hv
        simp only [safe_get_bind]
        split
        · exact Safe.pure hL.extends ⟨hbefore, hv⟩
        · simp only [safe_get_bind]
          cases hmarked : Backquote.marked? h b.splice (h.car id) with
          | some x =>
            simp only [safe_get_bind]
            refine hsegments hL hcdr fun y hy => ?_
            rcases List.mem_cons.1 hy with rfl | hy
            · exact hL.marked? hcar hmarked
            · exact hbefore y hy
          | none =>
            refine Safe.bind (hexpand hL hcar) fun L₁ x h₁ e₁ hx => ?_
            simp only [safe_get_bind]
            refine hsegments e₁.fits (e₁.fits.data id (e₁.grows.within.data id hv)).2.2 fun y hy => ?_
            rcases List.mem_cons.1 hy with rfl | hy
            · exact hx
            · exact (hbefore y hy).within e₁.grows.within
      | _ => exact Safe.pure hL.extends ⟨hbefore, hv⟩

end

/-! ## Readers -/

/-- The interpreter with the heap and the symbols of a reader. -/
def Reading.into (r : Reading) (s : Interpreter) : Interpreter :=
  { s with image := { s.image with heap := r.heap, symbols := r.symbols } }

/-- The reader has changed in an orderly way the interpreter that it reads into. -/
def Reads (s : Interpreter) (L : Layout) (r : Reading) (L' : Layout) (r' : Reading) : Prop :=
  Evolves L (r.into s) L' (r'.into s)

instance {s : Interpreter} : Evolution (Reads s) where
  refl e := Evolution.refl (R := Evolves) e
  trans e e' := Evolution.trans (R := Evolves) e e'

section

variable {s : Interpreter} {L : Layout} {r : Reading} {α β : Type}

/-- A reader that is in order is so without reading anything. -/
theorem Sound.reads (hs : Sound L (r.into s)) : Reads s L r L r := hs.evolves

/-- Reading keeps the reader in order. -/
theorem Reads.sound {L' : Layout} {r' : Reading} (e : Reads s L r L' r') : Sound L' (r'.into s) :=
  Evolves.sound e

/-- What was visible to programs is so after reading. -/
theorem Reads.visible {L' : Layout} {r' : Reading} (e : Reads s L r L' r') {v : Value}
    (hv : L.Visible v) : L'.Visible v := Evolves.visible e hv

namespace Reading

/-- What an action on the heap leads to in a reader. -/
theorem leads_heap (x : HeapM α) {ok : α → Reading → Prop} {err : Failure → Reading → Prop} :
    Leads (liftM x : ReadM α) r ok err ↔
      Leads x r.heap (fun a heap => ok a { r with heap }) fun e heap => err e { r with heap } := by
  change Leads (onHeap x) r ok err ↔ _
  simp only [Leads, onHeap]
  cases x r.heap <;> rfl

/-- What an action on the symbols leads to in a reader. -/
theorem leads_symbols (x : SymbolM α) {ok : α → Reading → Prop} {err : Failure → Reading → Prop} :
    Leads (liftM x : ReadM α) r ok err ↔ Leads x r.symbols
      (fun a symbols => ok a { r with symbols }) fun e symbols => err e { r with symbols } := by
  change Leads (onSymbols x) r ok err ↔ _
  simp only [Leads, onSymbols]
  cases x r.symbols <;> rfl

/-- What is safe for the heap of a reader is safe for the reader. -/
theorem safe_heap {x : HeapM α} {P : Layout → α → Heap → Prop} (hs : Sound L (r.into s))
    (hx : Safe (Extends r.heap.frames.size) L x r.heap P) :
    Safe (Reads s) L (liftM x : ReadM α) r fun L' a r' => P L' a r'.heap := by
  have hheap := StackLisp.safe_heap hs hx
  unfold Safe at hheap ⊢
  rw [StackLisp.leads_heap] at hheap
  rw [leads_heap]
  exact hheap

/-- Interning keeps the table in order. Only `nil` and `t` have the symbols of these two. -/
theorem safe_intern (hs : Sound L (r.into s)) (name : String) :
    Safe (Reads s) L (liftM (SymbolTable.intern name) : ReadM SymbolId) r fun _ id _ =>
      name ≠ "nil" → name ≠ "t" → id ≠ .nil ∧ id ≠ .t := by
  have hintern := (StackLisp.safe_intern hs name).mono fun _ _ _ _ hid => hid.2.1
  unfold Safe at hintern ⊢
  rw [StackLisp.leads_symbols] at hintern
  rw [leads_symbols]
  exact hintern

/-- The action only goes on in the text. -/
def Moves (x : ReadM α) : Prop :=
  ∀ r, ∃ a r', x r = .ok a r' ∧ ∀ s : Interpreter, r'.into s = r.into s

/-- Moving along the text, before another action. -/
theorem Moves.safe_bind {x : ReadM α} {f : α → ReadM β} {post : Layout → β → Reading → Prop}
    (hx : Moves x) (hs : Sound L (r.into s))
    (hf : ∀ a r', Sound L (r'.into s) → Safe (Reads s) L (f a) r' post) :
    Safe (Reads s) L (x >>= f) r post := by
  obtain ⟨a, r', heq, hinto⟩ := hx r
  have hf' := hf a r' (hinto s ▸ hs)
  unfold Safe Reads at hf' ⊢
  rw [leads_bind, leads_of_ok heq]
  rwa [hinto s] at hf'

/-- Moving along the text breaks no rule. -/
theorem Moves.safe {x : ReadM α} (hx : Moves x) (hs : Sound L (r.into s)) :
    Safe (Reads s) L x r fun _ _ _ => True := by
  obtain ⟨a, r', heq, hinto⟩ := hx r
  unfold Safe Reads
  rw [leads_of_ok heq, hinto s]
  exact ⟨L, hs.evolves, trivial⟩

/-- Looking at the reader moves nothing. -/
theorem moves_get : Moves get := fun r => ⟨r, r, rfl, fun _ => rfl⟩

/-- Looking at the next character moves nothing. -/
theorem moves_peek : Moves peek? := fun r => ⟨_, r, rfl, fun _ => rfl⟩

/-- Passing spaces and comments is a move. -/
theorem moves_skip : Moves skip := fun _ => ⟨_, _, rfl, fun _ => rfl⟩

/-- So is passing characters, -/
theorem moves_passTo (cs rest : List Char) : Moves (passTo cs rest) :=
  fun _ => ⟨_, _, rfl, fun _ => rfl⟩

/-- passing a single one, -/
theorem moves_advance : Moves advance := fun r => by
  unfold advance
  cases r.ahead with
  | nil => exact ⟨_, _, rfl, fun _ => rfl⟩
  | cons c cs => exact ⟨_, _, rfl, fun _ => rfl⟩

/-- and going into a template or out of it. -/
theorem moves_backquotes (f : Nat → Nat) :
    Moves (modify fun r => { r with backquotes := f r.backquotes }) :=
  fun _ => ⟨_, _, rfl, fun _ => rfl⟩

/-- A syntax error at an offset is no broken rule. -/
theorem safe_failAt {offset : Nat} {fault : SyntaxFault} {post : Layout → α → Reading → Prop}
    (hs : Sound L (r.into s)) : Safe (Reads s) L (failAt offset fault : ReadM α) r post :=
  safe_raise hs.reads trivial

/-- Nor is one where the reader is, -/
theorem safe_fail {fault : SyntaxFault} {P : Layout → α → Reading → Prop}
    (hs : Sound L (r.into s)) : Safe (Reads s) L (fail fault : ReadM α) r P :=
  safe_get_bind.2 (safe_failAt hs)

/-- whatever would follow. -/
theorem safe_fail_bind {fault : SyntaxFault} {f : α → ReadM β} {post : Layout → β → Reading → Prop}
    (hs : Sound L (r.into s)) : Safe (Reads s) L (fail fault >>= f) r post :=
  Safe.bind (safe_fail (P := fun _ _ _ => False) hs) fun _ _ _ _ hf => hf.elim

/-- Something that is read is data. -/
abbrev Gives (s : Interpreter) (L : Layout) (x : ReadM Value) (r : Reading) : Prop :=
  Safe (Reads s) L x r fun L' v _ => L'.Visible v

/-- A name gives a symbol, or one of the values `nil` and `t`. -/
theorem gives_internValue (hs : Sound L (r.into s)) (name : List Char) :
    Gives s L (internValue name) r := by
  refine Safe.bind (safe_intern hs _) fun L' id r' e _ => Safe.pure e.sound.reads ?_
  exact visible_ofSymbol L' id

/-- A word gives a number or a symbol. -/
theorem gives_readWord (hs : Sound L (r.into s)) : Gives s L readWord r := by
  refine moves_get.safe_bind hs fun r₀ r hs => ?_
  refine (moves_passTo _ _).safe_bind hs fun _ r hs => ?_
  generalize r₀.ahead.takeWhile (!endsWord ·) = word
  by_cases hdot : word = ['.']
  · simp only [hdot, if_true]
    exact safe_fail_bind hs
  · simp only [hdot, if_false]
    split
    · exact gives_internValue hs _
    · split
      · exact Safe.pure hs.reads trivial
      · exact safe_fail hs

/-- A name between bars gives a symbol. -/
theorem gives_readBars (hs : Sound L (r.into s)) : Gives s L readBars r := by
  refine moves_advance.safe_bind hs fun _ r hs => ?_
  refine moves_get.safe_bind hs fun r₀ r hs => ?_
  refine (moves_passTo _ _).safe_bind hs fun _ r hs => ?_
  refine moves_peek.safe_bind hs fun c r hs => ?_
  cases c with
  | none => exact safe_fail hs
  | some c => exact moves_advance.safe_bind hs fun _ r hs => gives_internValue hs _

/-- The parenthesis after a dotted tail is passed, or missed. -/
theorem safe_closeDotted (hs : Sound L (r.into s)) :
    Safe (Reads s) L closeDotted r fun _ _ _ => True := by
  refine moves_skip.safe_bind hs fun _ r hs => ?_
  refine moves_peek.safe_bind hs fun c r hs => ?_
  split
  · exact moves_advance.safe hs
  · exact moves_get.safe_bind hs fun _ r hs => safe_failAt hs
  · exact safe_fail hs

/-- A template of data gives code that is data. -/
theorem gives_expandBackquote (hs : Sound L (r.into s)) {v : Value} (hv : L.Visible v) :
    Gives s L (expandBackquote v) r := by
  refine safe_get_bind.2 (safe_heap (P := fun L' w _ => L'.Visible w) hs ?_)
  exact safe_get_bind.2 ((safe_expandTemplate _ _).1 hs.fits hv)

/-! ### Forms inside of others -/

section

variable {form : ReadM Value} {marked : SymbolId → ReadM Value}
  (hform : ∀ {L : Layout} {r : Reading}, Sound L (r.into s) → Gives s L form r)
  (hmarked : ∀ {L : Layout} {r : Reading} {head : SymbolId}, L.Visible (.symbol head) →
    Sound L (r.into s) → Gives s L (marked head) r)

include hform in
/-- A template gives the code of its form. -/
theorem gives_readTemplate (hs : Sound L (r.into s)) : Gives s L (readTemplate form) r := by
  refine moves_advance.safe_bind hs fun _ r hs => ?_
  refine (moves_backquotes (· + 1)).safe_bind hs fun _ r hs => ?_
  refine Safe.bind (hform hs) fun L₁ template r₁ e₁ htemplate => ?_
  refine (moves_backquotes (· - 1)).safe_bind e₁.sound fun _ r hs => ?_
  exact gives_expandBackquote hs htemplate

/-- The markers of unquoted forms are neither `nil` nor `t`. -/
theorem safe_readMarker (hs : Sound L (r.into s)) :
    Safe (Reads s) L readMarker r fun _ marker _ => marker ≠ "nil" ∧ marker ≠ "t" := by
  refine moves_peek.safe_bind hs fun c r hs => ?_
  split
  · exact moves_advance.safe_bind hs fun _ r hs => Safe.pure hs.reads (by decide)
  · exact Safe.pure hs.reads (by decide)

include hmarked in
/-- A form after a comma is given under its marker. -/
theorem gives_readUnquoted (hs : Sound L (r.into s)) : Gives s L (readUnquoted marked) r := by
  refine moves_get.safe_bind hs fun r₀ r hs => ?_
  by_cases hzero : r₀.backquotes = 0
  · simp only [hzero, if_true]
    exact safe_fail_bind hs
  · simp only [hzero, if_false]
    refine moves_advance.safe_bind hs fun _ r hs => ?_
    refine Safe.bind (safe_readMarker hs) fun L₁ marker r₁ e₁ hmarker => ?_
    refine Safe.bind (safe_intern e₁.sound marker) fun L₂ head r₂ e₂ hhead => ?_
    refine (moves_backquotes (· - 1)).safe_bind e₂.sound fun _ r hs => ?_
    refine Safe.bind (hmarked (hhead hmarker.1 hmarker.2) hs) fun L₃ v r₃ e₃ hv => ?_
    refine (moves_backquotes (· + 1)).safe_bind e₃.sound fun _ r hs => ?_
    exact Safe.pure hs.reads hv

include hmarked in
/-- A hash sign gives a form under `function`. -/
theorem gives_readDispatch (hs : Sound L (r.into s)) : Gives s L (readDispatch marked) r := by
  refine moves_advance.safe_bind hs fun _ r hs => ?_
  refine moves_peek.safe_bind hs fun c r hs => ?_
  split
  · exact moves_advance.safe_bind hs fun _ r hs =>
      hmarked (visible_symbol L .function (by decide)) hs
  · exact moves_get.safe_bind hs fun _ r hs => safe_failAt hs
  · exact safe_fail hs

include hform in
/-- A dot gives the list of what came before it, in front of the tail. -/
theorem gives_readTail {before : List Value} (hs : Sound L (r.into s))
    (hbefore : ∀ v ∈ before, L.Visible v) : Gives s L (readTail form before) r := by
  unfold readTail
  cases before.isEmpty with
  | true => exact safe_fail_bind hs
  | false =>
    refine moves_advance.safe_bind hs fun _ r hs => ?_
    refine Safe.bind (hform hs) fun L₁ tail r₁ e₁ htail => ?_
    refine Safe.bind (safe_closeDotted e₁.sound) fun L₂ _ r₂ e₂ _ => ?_
    refine safe_heap (P := fun L' w _ => L'.Visible w) e₂.sound
      (safe_listWithTail e₂.sound.fits (fun v hv => ?_) (e₂.visible htail))
    exact e₂.visible (e₁.visible (hbefore v (List.mem_reverse.1 hv)))

end

/-- Forms, marked forms and the elements of lists are data. -/
theorem gives_read (fuel : Nat) :
    (∀ {L : Layout} {r : Reading}, Sound L (r.into s) → Gives s L (readForm fuel) r) ∧
    (∀ {L : Layout} {r : Reading} {head : SymbolId}, L.Visible (.symbol head) →
      Sound L (r.into s) → Gives s L (readMarked fuel head) r) ∧
    ∀ {L : Layout} {r : Reading} {before : List Value}, Sound L (r.into s) →
      (∀ v ∈ before, L.Visible v) → Gives s L (readElements fuel before) r := by
  induction fuel with
  | zero =>
    exact ⟨fun hs => Safe.throw hs.reads trivial, fun _ hs => Safe.throw hs.reads trivial,
      fun hs _ => Safe.throw hs.reads trivial⟩
  | succ fuel ih =>
    obtain ⟨hform, hmarked, helements⟩ := ih
    refine ⟨fun {L r} hs => ?_, fun {L r head} hhead hs => ?_, fun {L r before} hs hbefore => ?_⟩
    · unfold readForm
      refine moves_skip.safe_bind hs fun _ r hs => ?_
      refine moves_peek.safe_bind hs fun c r hs => ?_
      -- The first character says what kind of form it is.
      split
      · exact safe_fail hs
      · exact moves_advance.safe_bind hs fun _ r hs => helements hs (by simp)
      · exact safe_fail hs
      · exact moves_advance.safe_bind hs fun _ r hs =>
          hmarked (visible_symbol L .quote (by decide)) hs
      · exact gives_readTemplate hform hs
      · exact gives_readUnquoted hmarked hs
      · exact safe_fail hs
      · exact gives_readBars hs
      · exact gives_readDispatch hmarked hs
      · exact gives_readWord hs
    · unfold readMarked
      refine Safe.bind (hform hs) fun L₁ x r₁ e₁ hx => ?_
      exact safe_heap (P := fun L' w _ => L'.Visible w) e₁.sound
        (safe_list e₁.sound.fits (by simpa using ⟨show L₁.Visible (.symbol head) from hhead, hx⟩))
    · unfold readElements
      refine moves_skip.safe_bind hs fun _ r hs => ?_
      refine moves_get.safe_bind hs fun r₀ r hs => ?_
      split
      · exact safe_fail hs
      · refine moves_advance.safe_bind hs fun _ r hs => ?_
        exact safe_heap (P := fun L' w _ => L'.Visible w) hs
          (safe_list hs.fits (by simpa using hbefore))
      · split
        · exact gives_readTail hform hs hbefore
        · refine Safe.bind (hform hs) fun L₁ x r₁ e₁ hx => ?_
          refine helements e₁.sound fun v hv => ?_
          rcases List.mem_cons.1 hv with rfl | hv
          · exact hx
          · exact e₁.visible (hbefore v hv)

/-- The next form of a text is data. -/
theorem safe_next (hs : Sound L (r.into s)) (fuel : Nat) :
    Safe (Reads s) L (next? fuel) r fun L' v? _ => ∀ v, v? = some v → L'.Visible v := by
  refine moves_skip.safe_bind hs fun _ r hs => ?_
  refine moves_get.safe_bind hs fun r₀ r hs => ?_
  cases r₀.ahead.isEmpty with
  | true => exact Safe.pure hs.reads nofun
  | false =>
    refine Safe.bind ((gives_read fuel).1 hs) fun L₁ v r₁ e₁ hv => Safe.pure e₁.sound.reads ?_
    rintro w ⟨⟩
    exact hv

end Reading

/-! ## Reading into an interpreter -/

/-- A reader reads into an interpreter. -/
theorem safe_reading {x : ReadM α} {text : List Char} {P : Layout → α → Prop}
    (hx : Safe (Reads s) L x { ahead := text, heap := s.image.heap, symbols := s.image.symbols }
      fun L' a _ => P L' a) :
    Safe Evolves L (liftM (Image.reading text x) : LispM (α × List Char × Nat)) s fun L' p _ =>
      P L' p.1 := by
  unfold Safe at hx ⊢
  rw [leads_image]
  simp only [Leads, Image.reading] at hx ⊢
  split at hx
  · next a r heq =>
    rw [heq]
    exact hx
  · next e r heq =>
    rw [heq]
    exact hx

/-- What is read from a text, if anything, is data. -/
theorem safe_readWithin (hs : Sound L s) (fuel : Nat) (text : List Char) :
    Safe Evolves L (liftM (Image.readWithin fuel text) : LispM (Option (Value × List Char × Nat))) s
      fun L' p _ => ∀ q, p = some q → L'.Visible q.1 := by
  have hread := safe_reading (P := fun L' v? => ∀ v, v? = some v → L'.Visible v)
    (Reading.safe_next (s := s)
      (r := { ahead := text, heap := s.image.heap, symbols := s.image.symbols }) hs fuel)
  unfold Safe at hread ⊢
  rw [leads_image] at hread ⊢
  unfold Image.readWithin
  rw [leads_bind]
  refine hread.mono ?_ fun _ _ he => he
  rintro ⟨v?, rest, count⟩ image ⟨L', e, hv⟩
  refine ⟨L', e, fun q hq => ?_⟩
  obtain ⟨v, rfl, rfl⟩ := Option.map_eq_some_iff.1 hq
  exact hv v rfl

/-- The first form of a text is data, when it is read into an interpreter. -/
theorem safe_readOne (hs : Sound L s) (text : String) :
    Safe Evolves L (liftM (Image.readOne text) : LispM Value) s fun L' v _ => L'.Visible v := by
  have hread := safe_readWithin hs (Reading.bound text.toList) text.toList
  unfold Safe at hread ⊢
  rw [leads_image] at hread ⊢
  unfold Image.readOne
  rw [leads_bind]
  refine hread.mono ?_ fun _ _ he => he
  rintro (_ | ⟨v, rest, count⟩) image ⟨L', e, hv⟩
  · exact ⟨trivial, L', e⟩
  · exact ⟨L', e, hv _ rfl⟩

end

end StackLisp
