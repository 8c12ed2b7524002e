import StackLisp.Proofs.Actions.Congruence
import StackLisp.Proofs.Safety.Symbols
import StackLisp.Proofs.Text.Word

/-!
# How reading may fail

Reading fails where the text is at fault, where the heap has no room, or where the bound on
its nested calls is too small (`ReadFails`). Whether or not it fails, no pair that there is
changes; the symbols that are known keep their names, and names go on leading to them
(`SymbolTable.Grows`). All this holds of every single action of the reader, and so of all of it
(`Reading.Tidy.read`).
-/

namespace StackLisp

/-- The table `t'` knows the symbols of `t` by their names. -/
structure SymbolTable.Grows (t t' : SymbolTable) : Prop where
  size : t.size ≤ t'.size
  name : ∀ id : SymbolId, id.index < t.size → t'.name id = t.name id
  find? : ∀ {name : String} {id : SymbolId}, t.find? name = some id → t'.find? name = some id

namespace SymbolTable

variable {t t' t'' : SymbolTable}

/-- A table has all its own symbols. -/
theorem Grows.refl (t : SymbolTable) : t.Grows t := ⟨Nat.le_refl _, fun _ _ => rfl, id⟩

/-- Symbols are kept from one table to the next. -/
theorem Grows.trans (h : t.Grows t') (h' : t'.Grows t'') : t.Grows t'' where
  size := h.size.trans h'.size
  name id hid := (h'.name id (hid.trans_le h.size)).trans (h.name id hid)
  find? hid := h'.find? (h.find? hid)

/-- A symbol is found under the name that it is interned by, and nothing else is changed. -/
theorem leads_intern (name : String) (t : SymbolTable) :
    Leads (intern name) t (fun id t' => t.Grows t' ∧ t'.find? name = some id) fun _ _ => False := by
  unfold Leads intern
  cases hfind : t.find? name with
  | some id => exact ⟨.refl t, hfind⟩
  | none =>
    refine ⟨⟨by simp [insert, SymbolTable.size], fun id hid => name_insert hid, fun hid => ?_⟩, ?_⟩
    · rw [find?_insert, hid, Option.some_or]
    · rw [find?_insert, hfind, if_pos rfl]
      rfl

end SymbolTable

/-- How reading may fail: the text is at fault, there is no room, or a bound is too small. -/
inductive ReadFails : Failure → Prop
  | text (fault : SyntaxFault) (offset : Nat) : ReadFails (.error (.read (.malformed fault offset)))
  | room : ReadFails (.error .heapOverflow)
  | bound : ReadFails .endless

/-- An action of the heap that adds pairs, and fails in such a way only. -/
def Heap.Faulty {α : Type} (x : HeapM α) : Prop :=
  ∀ h, Leads x h (fun _ h' => h.Extended h') fun e h' => ReadFails e ∧ h.Extended h'

namespace Heap.Faulty

variable {α β : Type} {x : HeapM α}

/-- Giving a value makes no pairs. -/
theorem pure (a : α) : Faulty (Pure.pure a : HeapM α) := .refl

/-- Looking at the heap leaves it alone. -/
theorem get : Faulty (MonadState.get : HeapM Heap) := .refl

/-- Failing as readers may fail leaves the heap alone. -/
theorem fails {e : Failure} (he : ReadFails e) : Faulty (throw e : HeapM α) := fun h => ⟨he, .refl h⟩

/-- One such action after the other. -/
theorem bind {f : α → HeapM β} (hx : Faulty x) (hf : ∀ a, Faulty (f a)) : Faulty (x >>= f) := by
  refine fun h => (leads_bind f).2 ((hx h).mono (fun a h' hh => ?_) fun _ _ he => he)
  exact (hf a h').mono (fun b h'' hh' => hh.trans hh') fun _ _ he => ⟨he.1, hh.trans he.2⟩

/-- What fails for want of room only, and makes pairs otherwise, is faulty as readers are. -/
theorem of_gains {n : Nat} (hx : ∀ h : Heap, Leads x h (fun _ h' => h.Gains n h')
    fun e h' => h.OutOfRoom n e h') : Faulty x :=
  fun h => (hx h).mono (fun _ _ g => g.extended) fun _ _ he => ⟨he.overflows.1 ▸ .room, he.extended⟩

/-- A pair is made, or there is no room for it. -/
theorem cons (a d : Value) : Faulty (Heap.cons a d) := of_gains (leads_cons_gains a d)

/-- A list is made, or there is no room for it. -/
theorem listWithTail (vs : List Value) (w : Value) : Faulty (Heap.listWithTail vs w) :=
  of_gains (leads_listWithTail_gains vs w)

/-- Such actions along a list. -/
theorem foldlM {f : β → α → HeapM β} (hf : ∀ b a, Faulty (f b a)) (l : List α) (b : β) :
    Faulty (l.foldlM f b) := by
  refine fun h => ?_
  refine Leads.foldlM (.refl h) fun a _ b h' hh => ?_
  exact (hf b a h').mono (fun b h'' hh' => hh.trans hh') fun _ _ he => ⟨he.1, hh.trans he.2⟩

/-- The calls of a template are put together from its segments. -/
theorem assemble (segments : List Segment) (tail : Value) :
    Faulty (Backquote.assemble segments tail) := by
  unfold Backquote.assemble
  split
  · exact (foldlM (fun _ _ => cons _ _) _ _).bind fun _ => cons _ _
  · refine foldlM (fun result segment => ?_) _ _
    cases segment with
    | item x => exact listWithTail _ _
    | splice x =>
      change Faulty (if result.isNil then Pure.pure x else _)
      split
      · exact pure x
      · exact listWithTail _ _

/-- By induction on the fuel: a template and its segments take turns. -/
theorem expandFrom (b : Backquote) (fuel : Nat) : (∀ v, Faulty (b.expandFrom fuel v)) ∧
    ∀ before v, Faulty (b.segmentsFrom fuel before v) := by
  -- Both walks over a template at once, as each calls the other.
  induction fuel with
  | zero => exact ⟨fun _ => fails .bound, fun _ _ => fails .bound⟩
  | succ fuel ih =>
    obtain ⟨hexpand, hsegments⟩ := ih
    refine ⟨fun v => ?_, fun before v => ?_⟩
    · unfold Backquote.expandFrom
      refine get.bind fun h => ?_
      split
      · exact pure _
      · refine get.bind fun h' => ?_
        dsimp only
        split
        · exact fails (.text _ _)
        · split
          · refine (hsegments _ _).bind fun p => ?_
            split
            · exact assemble _ _
            · exact (hexpand _).bind fun _ => assemble _ _
          · exact (cons _ _).bind fun _ => cons _ _
          · exact pure _
    · unfold Backquote.segmentsFrom
      split
      · refine get.bind fun h => ?_
        split
        · exact pure _
        · refine get.bind fun h₁ => ?_
          refine get.bind fun h₂ => ?_
          split
          · exact get.bind fun _ => hsegments _ _
          · exact (hexpand _).bind fun _ => get.bind fun _ => hsegments _ _
      · exact pure _

/-- A template becomes code that builds what it shows. -/
theorem expand (b : Backquote) (v : Value) : Faulty (b.expand v) :=
  get.bind fun _ => (expandFrom b _).1 v

end Heap.Faulty

namespace Reading

/-- The reader has made pairs and met symbols. -/
structure Grows (r r' : Reading) : Prop where
  heap : r.heap.Extended r'.heap
  symbols : r.symbols.Grows r'.symbols

/-- A reader has all that it has. -/
theorem Grows.refl (r : Reading) : r.Grows r := ⟨.refl _, .refl _⟩

/-- What a reader has is kept from one state to the next. -/
theorem Grows.trans {r r' r'' : Reading} (h : r.Grows r') (h' : r'.Grows r'') : r.Grows r'' :=
  ⟨h.heap.trans h'.heap, h.symbols.trans h'.symbols⟩

/-- The action only makes pairs and meets symbols, and fails as reading may fail. -/
def Tidy {α : Type} (x : ReadM α) : Prop :=
  ∀ r, Leads x r (fun _ r' => r.Grows r') fun e r' => ReadFails e ∧ r.Grows r'

namespace Tidy

variable {α β : Type} {x : ReadM α}

/-- Giving a value reads nothing. -/
theorem pure (a : α) : Tidy (Pure.pure a : ReadM α) := .refl

/-- Looking at the reader leaves it alone. -/
theorem get : Tidy (MonadState.get : ReadM Reading) := .refl

/-- Failing as readers may fail leaves the reader alone. -/
theorem fails {e : Failure} (he : ReadFails e) : Tidy (throw e : ReadM α) := fun r => ⟨he, .refl r⟩

/-- One such action after the other. -/
theorem bind {f : α → ReadM β} (hx : Tidy x) (hf : ∀ a, Tidy (f a)) : Tidy (x >>= f) := by
  refine fun r => (leads_bind f).2 ((hx r).mono (fun a r' hr => ?_) fun _ _ he => he)
  exact (hf a r').mono (fun b r'' hr' => hr.trans hr') fun _ _ he => ⟨he.1, hr.trans he.2⟩

/-- A syntax error at an offset. -/
theorem failAt (offset : Nat) (fault : SyntaxFault) : Tidy (Reading.failAt offset fault : ReadM α) :=
  fails (.text _ _)

/-- A syntax error where the reader is. -/
theorem fail (fault : SyntaxFault) : Tidy (Reading.fail fault : ReadM α) :=
  get.bind fun _ => failAt _ _

/-- Nothing is done after a syntax error. -/
theorem fail_bind {f : α → ReadM β} (fault : SyntaxFault) : Tidy (Reading.fail fault >>= f) :=
  fun r => ⟨.text _ _, .refl r⟩

/-- What only goes on in the text. -/
theorem of_eq (hx : ∀ r, ∃ a r', x r = .ok a r' ∧ r'.heap = r.heap ∧ r'.symbols = r.symbols) : Tidy x := by
  intro r
  obtain ⟨a, r', heq, hheap, hsymbols⟩ := hx r
  rw [leads_of_ok heq]
  exact ⟨hheap ▸ .refl _, hsymbols ▸ .refl _⟩

/-- Looking at the next character. -/
theorem peek : Tidy peek? := of_eq fun r => ⟨_, r, rfl, rfl, rfl⟩

/-- Passing characters. -/
theorem passTo (cs rest : List Char) : Tidy (Reading.passTo cs rest) :=
  of_eq fun _ => ⟨_, _, rfl, rfl, rfl⟩

/-- Passing one character, or finding the end of the text. -/
theorem advance : Tidy Reading.advance := of_eq fun r => by
  unfold Reading.advance
  split <;> exact ⟨_, _, rfl, rfl, rfl⟩

/-- Passing spaces and comments. -/
theorem skip : Tidy Reading.skip := of_eq fun _ => ⟨_, _, rfl, rfl, rfl⟩

/-- Going into a template or out of it. -/
theorem backquotes (f : Nat → Nat) :
    Tidy (modify fun r => { r with backquotes := f r.backquotes } : ReadM Unit) :=
  of_eq fun _ => ⟨_, _, rfl, rfl, rfl⟩

/-- What is done to the heap only. -/
theorem heap {x : HeapM α} (hx : Heap.Faulty x) : Tidy (liftM x : ReadM α) := fun r =>
  (leads_heap x).2 ((hx r.heap).mono (fun _ _ h => ⟨h, .refl _⟩) fun _ _ he => ⟨he.1, he.2, .refl _⟩)

/-- Interning a symbol. -/
theorem intern (name : String) : Tidy (liftM (SymbolTable.intern name) : ReadM SymbolId) := fun r =>
  (leads_symbols _).2 ((SymbolTable.leads_intern name r.symbols).mono (fun _ _ h => ⟨.refl _, h.1⟩)
    fun _ _ he => he.elim)

/-- The value that a name stands for. -/
theorem internValue (name : List Char) : Tidy (Reading.internValue name) :=
  (intern _).bind fun _ => pure _

/-- The number or the symbol that a word stands for. -/
theorem wordValue (word : List Char) : Tidy (Reading.wordValue word) := by
  unfold Reading.wordValue
  dsimp only
  split
  · exact fail_bind _
  · split
    · exact internValue _
    · split
      · exact pure _
      · exact fail _

/-- A word up to its end. -/
theorem readWord : Tidy Reading.readWord :=
  get.bind fun _ => (passTo _ _).bind fun _ => wordValue _

/-- A name between bars. The end of the text before the second bar is a fault. -/
theorem readBars : Tidy Reading.readBars := by
  unfold Reading.readBars
  refine advance.bind fun _ => ?_
  refine get.bind fun _ => ?_
  refine (passTo _ _).bind fun _ => ?_
  refine peek.bind fun _ => ?_
  split
  · exact fail _
  · exact advance.bind fun _ => internValue _

/-- The parenthesis after a dotted tail. -/
theorem closeDotted : Tidy Reading.closeDotted := by
  unfold Reading.closeDotted
  refine skip.bind fun _ => ?_
  refine peek.bind fun _ => ?_
  split
  · exact advance
  · exact get.bind fun _ => failAt _ _
  · exact fail _

/-- The template of a form, made into code. -/
theorem expandBackquote (v : Value) : Tidy (Reading.expandBackquote v) :=
  get.bind fun _ => heap (Heap.Faulty.expand _ _)

/-- The marker after a comma. -/
theorem readMarker : Tidy Reading.readMarker := by
  unfold Reading.readMarker
  refine peek.bind fun _ => ?_
  split
  · exact advance.bind fun _ => pure _
  · exact pure _

section

variable {form : ReadM Value} {marked : SymbolId → ReadM Value}

/-- A template, if its form is read tidily. -/
theorem readTemplate (hform : Tidy form) : Tidy (Reading.readTemplate form) :=
  advance.bind fun _ => (backquotes (· + 1)).bind fun _ => hform.bind fun _ =>
    (backquotes (· - 1)).bind fun _ => expandBackquote _

/-- A form after a comma, if marked forms are read tidily. -/
theorem readUnquoted (hmarked : ∀ head, Tidy (marked head)) : Tidy (Reading.readUnquoted marked) := by
  unfold Reading.readUnquoted
  refine get.bind fun _ => ?_
  dsimp only
  split
  · exact fail_bind _
  · refine advance.bind fun _ => ?_
    refine readMarker.bind fun marker => ?_
    refine (intern marker).bind fun head => ?_
    refine (backquotes (· - 1)).bind fun _ => ?_
    refine (hmarked head).bind fun _ => ?_
    exact (backquotes (· + 1)).bind fun _ => pure _

/-- What follows a hash sign. -/
theorem readDispatch (hmarked : ∀ head, Tidy (marked head)) : Tidy (Reading.readDispatch marked) := by
  unfold Reading.readDispatch
  refine advance.bind fun _ => ?_
  refine peek.bind fun _ => ?_
  split
  · exact advance.bind fun _ => hmarked _
  · exact get.bind fun _ => failAt _ _
  · exact fail _

/-- What follows a dot in a list. -/
theorem readTail (hform : Tidy form) (before : List Value) : Tidy (Reading.readTail form before) := by
  unfold Reading.readTail
  dsimp only
  split
  · exact fail_bind _
  · exact advance.bind fun _ => hform.bind fun _ => closeDotted.bind fun _ =>
      heap (Heap.Faulty.listWithTail _ _)

end

/-- By induction on the fuel, for forms, marked forms and elements together, as each of them may
    contain the others. -/
theorem read (fuel : Nat) : Tidy (readForm fuel) ∧ (∀ head, Tidy (readMarked fuel head)) ∧
    ∀ before, Tidy (readElements fuel before) := by
  -- The induction is on the fuel, for forms, marked forms and elements of lists together.
  induction fuel with
  | zero => exact ⟨fails .bound, fun _ => fails .bound, fun _ => fails .bound⟩
  | succ fuel ih =>
    obtain ⟨hform, hmarked, helements⟩ := ih
    refine ⟨?_, fun head => ?_, fun before => ?_⟩
    · unfold readForm
      refine skip.bind fun _ => ?_
      refine peek.bind fun _ => ?_
      split
      · exact fail _
      · exact advance.bind fun _ => helements _
      · exact fail _
      · exact advance.bind fun _ => hmarked _
      · exact readTemplate hform
      · exact readUnquoted hmarked
      · exact fail _
      · exact readBars
      · exact readDispatch hmarked
      · exact readWord
    · unfold readMarked
      exact hform.bind fun _ => heap (Heap.Faulty.listWithTail _ _)
    · unfold readElements
      refine skip.bind fun _ => ?_
      refine get.bind fun _ => ?_
      split
      · exact fail _
      · exact advance.bind fun _ => heap (Heap.Faulty.listWithTail _ _)
      · split
        · exact readTail hform _
        · exact hform.bind fun _ => helements _

/-- The next form of a text, or its end. -/
theorem next (fuel : Nat) : Tidy (next? fuel) := by
  unfold next?
  refine skip.bind fun _ => ?_
  refine get.bind fun _ => ?_
  split
  · exact pure _
  · exact (read fuel).1.bind fun _ => pure _

end Tidy

end Reading

end StackLisp
