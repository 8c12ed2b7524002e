import Mathlib.Data.Nat.Digits.Defs
import StackLisp.Proofs.Safety.Reading
import StackLisp.Proofs.Text.Printing

/-!
# Reading words

How the reader goes past one word or one name between bars, and what it takes
them for: neither the heap nor what stands behind matters, only the symbols that
are known.

So a leaf that reads back in an image (`Image.ReadsBack`) is read in the same way
wherever it stands in a text (`Image.ReadsBack.readsAs`), and reading it makes no
symbol and no pair.
-/

namespace StackLisp

namespace Reading

/-- The reader after it has gone past `cs` and made the pairs of `heap`, with `rest`
    ahead of it. -/
def after (r : Reading) (cs rest : List Char) (heap : Heap) : Reading :=
  { r with ahead := rest, offset := r.offset + byteCount cs, heap }

/-- Going on twice in the text is going on once by both parts. -/
@[simp]
theorem after_after (r : Reading) (cs cs' rest rest' : List Char) (h h' : Heap) :
    (r.after cs rest' h).after cs' rest h' = r.after (cs ++ cs') rest h' := by
  simp [after, Nat.add_assoc]

/-- What may follow a form: nothing, a space or the end of a list. -/
def Stops : List Char → Prop
  | [] => True
  | c :: _ => c = ' ' ∨ c = ')'

/-- A text that starts with a form: not with layout, a comment, the end of a list or
    the dot before its tail. -/
def Begins : List Char → Prop
  | [] => False
  | c :: cs => Text.isLayout c = false ∧ c ≠ ';' ∧ c ≠ ')' ∧ ¬(c = '.' ∧ isDotSeparator cs = true)

/-- A text that is read as one word, or as a sharp sign that starts no form. -/
def IsWord (cs : List Char) : Prop := cs ≠ [] ∧ ∀ c ∈ cs, endsWord c = false ∧ c ≠ '|'

instance (cs : List Char) : Decidable (IsWord cs) :=
  @instDecidableAnd _ _ inferInstance (List.decidableBAll _ cs)

variable {r r' : Reading} {cs rest word name : List Char} {fuel : Nat} {v : Value}

theorem advance_eq {c : Char} (hahead : r.ahead = c :: cs) :
    advance r = .ok () (r.after [c] cs r.heap) := by
  rw [advance, hahead]
  rfl

theorem peek?_eq : peek? r = .ok r.ahead.head? r := rfl

/-- In front of a form nothing is skipped. -/
theorem skip_eq {c : Char} (hahead : r.ahead = c :: cs) (hlayout : Text.isLayout c = false)
    (hcomment : c ≠ ';') : skip r = .ok () r := by
  obtain ⟨ahead, offset, backquotes, heap, symbols⟩ := r
  cases hahead
  simp [skip, skipped, hlayout, hcomment]

/-- A blank is skipped, and it is the same as if the text began behind it. -/
theorem skip_space (hahead : r.ahead = ' ' :: cs) : skip r = skip (r.after [' '] cs r.heap) := by
  obtain ⟨ahead, offset, backquotes, heap, symbols⟩ := r
  cases hahead
  rfl

/-- So a form is read as it is behind the blank. -/
theorem leads_readForm_space {ok : Value → Reading → Prop} {err : Failure → Reading → Prop}
    (hahead : r.ahead = ' ' :: cs) :
    Leads (readForm (fuel + 1)) r ok err ↔
      Leads (readForm (fuel + 1)) (r.after [' '] cs r.heap) ok err := by
  rw [readForm]
  simp only [Leads, bind, EStateM.bind, skip_space hahead]

/-- The same for the elements of a list. -/
theorem leads_readElements_space {before : List Value} {ok : Value → Reading → Prop}
    {err : Failure → Reading → Prop} (hahead : r.ahead = ' ' :: cs) :
    Leads (readElements (fuel + 1) before) r ok err ↔
      Leads (readElements (fuel + 1) before) (r.after [' '] cs r.heap) ok err := by
  rw [readElements]
  simp only [Leads, bind, EStateM.bind, skip_space hahead]

/-- What a word stands for, once the reader has gone past it. -/
def wordValue (word : List Char) : ReadM Value := do
  if word = ['.'] then
    fail .loneDot
  match Text.integer? word with
  | none => internValue word
  | some n =>
    match Fixnum.ofInt? n with
    | some m => return .int m
    | none => fail (.integerOutOfRange (String.ofList word))

/-- What may follow a form ends a word. -/
theorem takeWhile_stops (hstops : Stops rest) :
    rest.takeWhile (!endsWord ·) = [] ∧ rest.dropWhile (!endsWord ·) = rest := by
  cases rest with
  | nil => exact ⟨rfl, rfl⟩
  | cons c rest => rcases hstops with rfl | rfl <;> simp [endsWord, Text.isLayout]

/-- A word is taken for what it stands for, and the reader is behind it. -/
theorem readWord_eq (hahead : r.ahead = word ++ rest) (hword : IsWord word)
    (hstops : Stops rest) : readWord r = wordValue word (r.after word rest r.heap) := by
  have hpos : ∀ c ∈ word, (!endsWord c) = true := fun c hc => by
    rw [(hword.2 c hc).1]
    rfl
  have htake : r.ahead.takeWhile (!endsWord ·) = word := by
    rw [hahead, List.takeWhile_append_of_pos hpos, (takeWhile_stops hstops).1, List.append_nil]
  have hdrop : r.ahead.dropWhile (!endsWord ·) = rest := by
    rw [hahead, List.dropWhile_append_of_pos hpos, (takeWhile_stops hstops).2]
  change wordValue (r.ahead.takeWhile (!endsWord ·)) (r.after (r.ahead.takeWhile (!endsWord ·))
    (r.ahead.dropWhile (!endsWord ·)) r.heap) = _
  rw [htake, hdrop]

/-- A name between bars is taken for its symbol. -/
theorem readBars_eq (hahead : r.ahead = '|' :: (name ++ '|' :: rest)) (hname : '|' ∉ name) :
    readBars r = internValue name (r.after ('|' :: (name ++ ['|'])) rest r.heap) := by
  have hpos : ∀ c ∈ name, decide (c ≠ '|') = true := fun c hc =>
    decide_eq_true fun h => hname (h ▸ hc)
  have htake : (name ++ '|' :: rest).takeWhile (· ≠ '|') = name := by
    rw [List.takeWhile_append_of_pos hpos, List.takeWhile_cons_of_neg (by simp), List.append_nil]
  have hdrop : (name ++ '|' :: rest).dropWhile (· ≠ '|') = '|' :: rest := by
    rw [List.dropWhile_append_of_pos hpos, List.dropWhile_cons_of_neg (by simp)]
  obtain ⟨ahead, offset, backquotes, heap, symbols⟩ := r
  cases hahead
  simp only [readBars, bind, EStateM.bind, advance, get_apply,
    htake, hdrop, passTo, peek?, List.head?_cons, after]
  simp [Nat.add_assoc]

/-- A name leads to a symbol, or becomes that of a new one. -/
theorem internValue_eq (name : List Char) (r : Reading) :
    internValue name r =
      match r.symbols.find? (String.ofList name) with
      | some id => .ok (.ofSymbol id) r
      | none => .ok (.ofSymbol ⟨r.symbols.size⟩)
        { r with symbols := r.symbols.insert (String.ofList name) } := by
  rw [eq_iff_leads, internValue, leads_bind, leads_symbols]
  simp only [Leads, SymbolTable.intern]
  cases r.symbols.find? (String.ofList name) <;> rfl

/-- A name whose symbol is not new is read the same way whenever the same symbols
    are known. -/
theorem internValue_known (hknown : v ≠ .ofSymbol ⟨r.symbols.size⟩)
    (hr : internValue name r = .ok v r') :
    r' = r ∧ ∀ r₁ : Reading, r₁.symbols = r.symbols → internValue name r₁ = .ok v r₁ := by
  rw [internValue_eq] at hr
  split at hr
  · next id hid =>
    cases hr
    refine ⟨rfl, fun r₁ hr₁ => ?_⟩
    rw [internValue_eq, hr₁, hid]
  · cases hr
    exact absurd rfl hknown

/-- The same for a word that is no new symbol. -/
theorem wordValue_known (hknown : v ≠ .ofSymbol ⟨r.symbols.size⟩)
    (hr : wordValue word r = .ok v r') :
    word ≠ ['.'] ∧ ∀ r₁ : Reading, r₁.symbols = r.symbols → wordValue word r₁ = .ok v r₁ := by
  unfold wordValue at *
  split at hr
  · cases hr
  · next hdot =>
    refine ⟨hdot, ?_⟩
    simp only [if_neg hdot]
    cases hint : Text.integer? word with
    | none =>
      rw [hint] at hr
      exact (internValue_known hknown hr).2
    | some n =>
      rw [hint] at hr
      cases hfix : Fixnum.ofInt? n with
      | some m =>
        simp only [hfix] at hr ⊢
        cases hr
        exact fun _ _ => rfl
      | none =>
        simp only [hfix] at hr
        cases hr

/-- A word that is no numeral and no dot is the name of its symbol. -/
theorem wordValue_symbol {symbols : SymbolTable} {word : List Char} {id : SymbolId}
    (hdot : word ≠ ['.']) (hint : Text.integer? word = none)
    (hid : symbols.find? (String.ofList word) = some id) (r : Reading) (hr : r.symbols = symbols) :
    wordValue word r = .ok (.ofSymbol id) r := by
  simp only [wordValue, if_neg hdot, hint]
  rw [internValue_eq, hr, hid]

/-! ### The first character of a form -/

/-- A character that does not end a word begins one. -/
theorem readForm_word {c : Char} (hahead : r.ahead = c :: cs) (hends : endsWord c = false)
    (hbar : c ≠ '|') (hhash : c ≠ '#') : readForm (fuel + 1) r = readWord r := by
  simp only [endsWord, Bool.or_eq_false_iff, decide_eq_false_iff_not] at hends
  rw [eq_iff_leads, readForm, leads_bind, leads_of_ok (skip_eq hahead hends.1.1.1.1.1.1.1 hends.2),
    leads_bind, leads_of_ok peek?_eq, hahead, List.head?_cons]
  split <;> simp_all only [Option.some.injEq, reduceCtorEq]
  exact eq_iff_leads.1 rfl

/-- A bar begins a name. -/
theorem readForm_bar (hahead : r.ahead = '|' :: cs) : readForm (fuel + 1) r = readBars r := by
  rw [eq_iff_leads, readForm, leads_bind, leads_of_ok (skip_eq hahead rfl (by decide)), leads_bind,
    leads_of_ok peek?_eq, hahead]
  exact eq_iff_leads.1 rfl

/-- After a sharp sign only a quote is read. -/
theorem readForm_hash (hahead : r.ahead = '#' :: cs) (hquote : cs.head? ≠ some '\x27') :
    readForm (fuel + 1) r ≠ .ok v r' := by
  intro hok
  have hfails : Leads (readForm (fuel + 1)) r (fun _ _ => False) fun _ _ => True := by
    rw [readForm, leads_bind, leads_of_ok (skip_eq hahead rfl (by decide)), leads_bind,
      leads_of_ok peek?_eq, hahead]
    simp only [List.head?_cons]
    rw [readDispatch, leads_bind, leads_of_ok (advance_eq hahead), leads_bind, leads_of_ok peek?_eq]
    split
    · next h => exact absurd h hquote
    · trivial
    · trivial
  rwa [leads_of_ok hok] at hfails

/-- A word other than the dot can be the beginning of a form. -/
theorem IsWord.begins (hword : IsWord word) (hdot : word ≠ ['.']) (rest : List Char) :
    Begins (word ++ rest) := by
  obtain ⟨hne, hplain⟩ := hword
  simp only [endsWord, Bool.or_eq_false_iff, decide_eq_false_iff_not] at hplain
  obtain ⟨c, cs, rfl⟩ := List.exists_cons_of_ne_nil hne
  have hc := (hplain c List.mem_cons_self).1
  refine ⟨hc.1.1.1.1.1.1.1, hc.2, hc.1.1.1.1.1.2, fun ⟨hcdot, hseparator⟩ => ?_⟩
  match cs with
  | [] => exact hdot (by rw [hcdot])
  | c' :: cs =>
    have hc' := (hplain c' (by simp)).1
    simp [isDotSeparator, hc'] at hseparator

/-! ### Texts that are read whatever follows -/

/-- The text is read as the value in every reader that knows the same symbols. -/
structure ReadsAs (symbols : SymbolTable) (text : List Char) (v : Value) : Prop where
  begins (rest : List Char) : Begins (text ++ rest)
  reads {r : Reading} {rest : List Char} (fuel : Nat) (known : r.symbols = symbols)
    (ahead : r.ahead = text ++ rest) (stops : Stops rest) :
    readForm (fuel + 1) r = .ok v (r.after text rest r.heap)

/-- A name between bars that is read to its end has no bar in it. -/
theorem readsAs_bars (hknown : v ≠ .ofSymbol ⟨r.symbols.size⟩)
    (hahead : r.ahead = '|' :: (name ++ ['|'])) (hr : readForm (fuel + 1) r = .ok v r')
    (hend : r'.ahead = []) : ReadsAs r.symbols ('|' :: (name ++ ['|'])) v := by
  rw [readForm_bar hahead] at hr
  have hname : '|' ∉ name := by
    intro hmem
    obtain ⟨front, back, rfl, hfront⟩ := List.eq_append_cons_of_mem hmem
    have hahead' : r.ahead = '|' :: (front ++ '|' :: (back ++ ['|'])) := by simpa using hahead
    rw [readBars_eq hahead' hfront] at hr
    rw [(internValue_known (r := r.after _ _ _) hknown hr).1] at hend
    simp [after] at hend
  rw [readBars_eq hahead hname] at hr
  refine ⟨fun rest => ⟨rfl, by decide, by decide, fun h => absurd h.1 (by decide)⟩, ?_⟩
  intro r₁ rest fuel hsymbols hahead₁ _
  rw [List.cons_append, List.append_assoc] at hahead₁
  rw [readForm_bar hahead₁, readBars_eq hahead₁ hname]
  exact (internValue_known (r := r.after _ _ _) hknown hr).2 _ hsymbols

/-- A word that is read is no lone dot and does not start with a sharp sign. -/
theorem readsAs_word (hknown : v ≠ .ofSymbol ⟨r.symbols.size⟩) (hword : IsWord word)
    (hahead : r.ahead = word) (hr : readForm (fuel + 1) r = .ok v r') :
    ReadsAs r.symbols word v := by
  obtain ⟨c, cs, rfl⟩ := List.exists_cons_of_ne_nil hword.1
  obtain ⟨hends, hbar⟩ := hword.2 c List.mem_cons_self
  have hhash : c ≠ '#' := by
    rintro rfl
    refine readForm_hash hahead (fun hquote => ?_) hr
    have hmem := List.mem_cons_of_mem '#' (List.mem_of_mem_head? hquote)
    exact absurd (hword.2 _ hmem).1 (by decide)
  have hstops : Stops [] := trivial
  have hwhole : r.ahead = c :: cs ++ [] := by rw [List.append_nil, hahead]
  rw [readForm_word hahead hends hbar hhash, readWord_eq hwhole hword hstops] at hr
  obtain ⟨hdot, hsame⟩ := wordValue_known (r := r.after _ _ _) hknown hr
  refine ⟨hword.begins hdot, fun {r₁ rest} fuel hsymbols hahead₁ hstops => ?_⟩
  rw [readForm_word hahead₁ hends hbar hhash, readWord_eq hahead₁ hword hstops]
  exact hsame _ hsymbols

end Reading

namespace Image

open Reading

/-- Integers and interned symbols, `nil` and `t` among them. -/
def IsLeaf (image : Image) (v : Value) : Prop :=
  (∃ n, v = .int n) ∨ ∃ id, image.symbols.Interned id ∧ v = .ofSymbol id

/-- The text of the value is read as the value, up to its end, whatever may follow a
    form in a list or at the end of a text. -/
def ReadsBack (image : Image) (v : Value) : Prop :=
  let text := (image.atomText v).toList
  ∀ rest, Stops rest → ∃ image',
    readNext (text ++ rest) image = .ok (some (v, rest, byteCount text)) image'

variable {image : Image} {v : Value}

/-- A leaf that is a symbol is one of the table. -/
theorem IsLeaf.known (hv : image.IsLeaf v) : v ≠ .ofSymbol ⟨image.symbols.size⟩ := by
  rintro heq
  rcases hv with ⟨n, rfl⟩ | ⟨id, hid, rfl⟩
  · have hsymbol := congrArg Value.isSymbol heq
    rw [Value.isSymbol_ofSymbol] at hsymbol
    cases hsymbol
  · have hsymbol := congrArg Value.symbol? heq
    rw [Value.symbol?_ofSymbol, Value.symbol?_ofSymbol, Option.some.injEq] at hsymbol
    rw [hsymbol] at hid
    exact Nat.lt_irrefl _ hid.1

theorem IsLeaf.isAtom (hv : image.IsLeaf v) : v.isAtom = true := by
  rcases hv with ⟨n, rfl⟩ | ⟨id, -, rfl⟩
  · rfl
  · unfold Value.ofSymbol
    split
    · rfl
    · split <;> rfl

/-- Digits neither end a word nor begin anything else. -/
theorem isWord_digits (n : Nat) : IsWord (Nat.toDigits 10 n) := by
  refine ⟨Nat.toDigits_ne_nil, fun c hc => ?_⟩
  have hdigit := Nat.isDigit_of_mem_toDigits (by decide) (by decide) hc
  constructor
  · cases hends : endsWord c with
    | false => rfl
    | true =>
      simp only [endsWord, Text.isLayout, Bool.or_eq_true, decide_eq_true_eq, or_assoc] at hends
      rcases hends with rfl | rfl | rfl | rfl | rfl | rfl | rfl | rfl | rfl | rfl | rfl | rfl <;>
        cases hdigit
  · rintro rfl
    cases hdigit

/-- Neither does the sign in front of them. -/
theorem isWord_integer (n : Int) : IsWord (toString n).toList := by
  cases n with
  | ofNat n =>
    change IsWord (String.ofList (Nat.toDigits 10 n)).toList
    rw [String.toList_ofList]
    exact isWord_digits n
  | negSucc n =>
    change IsWord ("-" ++ String.ofList (Nat.toDigits 10 (n + 1))).toList
    rw [String.toList_append, String.toList_ofList (l := Nat.toDigits 10 (n + 1))]
    refine ⟨List.append_ne_nil_of_left_ne_nil (List.cons_ne_nil _ _) _, fun c hc => ?_⟩
    rcases List.mem_append.1 hc with hc | hc
    · obtain rfl : c = '-' := List.mem_singleton.1 hc
      decide
    · exact (isWord_digits (n + 1)).2 c hc

/-- A name that needs no bars is a word. -/
theorem isWord_name {name : String} (hbars : needsBars name = false) : IsWord name.toList := by
  simp only [needsBars, Bool.or_eq_false_iff, List.any_eq_false, Bool.or_eq_true, not_or] at hbars
  refine ⟨by simpa using hbars.1.1, fun c hc => ?_⟩
  obtain ⟨hblank, hdelimiter⟩ := hbars.2 c hc
  have hlayout : Text.isLayout c = false :=
    Bool.eq_false_iff.2 fun h => hblank (Text.isBlank_of_isLayout h)
  simp only [isDelimiterChar, Bool.or_eq_true, decide_eq_true_eq, not_or] at hdelimiter
  simp [endsWord, hlayout, hdelimiter]

/-- The text of a leaf is a word or stands between bars. -/
theorem IsLeaf.text (hv : image.IsLeaf v) :
    (∃ name, (image.atomText v).toList = '|' :: (name ++ ['|'])) ∨
      IsWord (image.atomText v).toList := by
  rcases hv with ⟨n, rfl⟩ | ⟨id, hid, rfl⟩
  · exact .inr (isWord_integer n.toInt)
  · unfold Value.ofSymbol
    split
    · exact .inr (by simp [IsWord, atomText, endsWord, Text.isLayout])
    · split
      · exact .inr (by simp [IsWord, atomText, endsWord, Text.isLayout])
      · simp only [atomText, symbolText, hid.2, if_true, nameText]
        split
        · exact .inl ⟨(image.symbols.get id).name.toList, by simp⟩
        · next hbars => exact .inr (isWord_name (Bool.eq_false_iff.2 hbars))

/-- A text is read from its first character, and what is left of it is part of the result. -/
theorem leads_reading {α : Type} {cs : List Char} {x : ReadM α} {ok : α × List Char × Nat → Image → Prop}
    {err : Failure → Image → Prop} :
    Leads (reading cs x) image ok err ↔
      Leads x { ahead := cs, heap := image.heap, symbols := image.symbols }
        (fun a r => ok (a, r.ahead, r.offset) { image with heap := r.heap, symbols := r.symbols })
        fun e r => err e { image with heap := r.heap, symbols := r.symbols } := by
  simp only [Leads, reading]
  cases x { ahead := cs, heap := image.heap, symbols := image.symbols } <;> rfl

/-- Reading a text that does not start with layout or a comment reads a form. -/
theorem leads_readNext {c : Char} {cs : List Char}
    {ok : Option (Value × List Char × Nat) → Image → Prop} {err : Failure → Image → Prop}
    (hlayout : Text.isLayout c = false) (hcomment : c ≠ ';') :
    Leads (readNext (c :: cs)) image ok err ↔
      Leads (readForm (bound (c :: cs)))
        { ahead := c :: cs, heap := image.heap, symbols := image.symbols }
        (fun v r => ok (some (v, r.ahead, r.offset))
          { image with heap := r.heap, symbols := r.symbols })
        fun e r => err e { image with heap := r.heap, symbols := r.symbols } := by
  rw [readNext, readWithin, leads_bind, leads_reading, next?, leads_bind,
    leads_of_ok (skip_eq rfl hlayout hcomment), leads_bind, leads_get]
  simp only [List.isEmpty_cons, Bool.false_eq_true, if_false, leads_bind, leads_pure,
    Option.map_some]

/-- A leaf that reads back does so in every reader that knows the same symbols. -/
theorem ReadsBack.readsAs (hback : image.ReadsBack v) (hv : image.IsLeaf v) :
    ReadsAs image.symbols (image.atomText v).toList v := by
  obtain ⟨image', hok⟩ := hback [] trivial
  rw [List.append_nil] at hok
  -- The text of the atom, on its own, is read as the atom with nothing left.
  have hread {c : Char} {cs : List Char} (htext : (image.atomText v).toList = c :: cs)
      (hlayout : Text.isLayout c = false) (hcomment : c ≠ ';') :
      ∃ r', readForm (bound (c :: cs))
        { ahead := c :: cs, heap := image.heap, symbols := image.symbols } = .ok v r' ∧
        r'.ahead = [] := by
    have hleads : Leads (readNext (c :: cs)) image
        (fun x _ => ∃ n, x = some (v, [], n)) fun _ _ => False := by
      rw [← htext, leads_of_ok hok]
      exact ⟨_, rfl⟩
    rw [leads_readNext hlayout hcomment] at hleads
    unfold Leads at hleads
    split at hleads
    · next v' r' hr' =>
      obtain ⟨n, heq⟩ := hleads
      simp only [Option.some.injEq, Prod.mk.injEq] at heq
      exact ⟨r', heq.1 ▸ hr', heq.2.1⟩
    · exact hleads.elim
  -- It stands between bars or is a word.
  rcases hv.text with ⟨name, htext⟩ | hword
  · obtain ⟨r', hr', hend⟩ := hread htext rfl (by decide)
    rw [htext]
    exact readsAs_bars (r := { ahead := _, heap := image.heap, symbols := image.symbols })
      hv.known rfl hr' hend
  · obtain ⟨c, cs, htext⟩ := List.exists_cons_of_ne_nil hword.1
    have hends := (hword.2 c (by rw [htext]; exact List.mem_cons_self)).1
    simp only [endsWord, Bool.or_eq_false_iff, decide_eq_false_iff_not] at hends
    obtain ⟨r', hr', -⟩ := hread htext hends.1.1.1.1.1.1.1 hends.2
    rw [← htext] at hr'
    exact readsAs_word (r := { ahead := _, heap := image.heap, symbols := image.symbols })
      hv.known hword rfl hr'

/-- A value whose text is a word that stands for it reads back. -/
theorem readsBack_of_word (hword : IsWord (image.atomText v).toList)
    (hhash : (image.atomText v).toList.head? ≠ some '#')
    (hvalue : ∀ r : Reading, r.symbols = image.symbols →
      wordValue (image.atomText v).toList r = .ok v r) : image.ReadsBack v := by
  intro rest hstops
  generalize (image.atomText v).toList = text at *
  obtain ⟨c, cs, rfl⟩ := List.exists_cons_of_ne_nil hword.1
  obtain ⟨hends, hbar⟩ := hword.2 c List.mem_cons_self
  have hread : readForm (bound (c :: (cs ++ rest)))
      { ahead := c :: (cs ++ rest), heap := image.heap, symbols := image.symbols } = _ :=
    (readForm_word rfl hends hbar fun h => hhash (by rw [h]; rfl)).trans
      ((readWord_eq rfl hword hstops).trans (hvalue _ rfl))
  simp only [endsWord, Bool.or_eq_false_iff, decide_eq_false_iff_not] at hends
  refine ⟨image, ?_⟩
  rw [eq_iff_leads, List.cons_append, Image.leads_readNext hends.1.1.1.1.1.1.1 hends.2,
    leads_of_ok hread]
  simp [after]

/-- The symbol is interned under a word that is no number, dot or sharp sign. -/
def NamedByWord (image : Image) (id : SymbolId) : Prop :=
  let word := (image.atomText (.ofSymbol id)).toList
  IsWord word ∧ word.head? ≠ some '#' ∧ word ≠ ['.'] ∧ Text.integer? word = none ∧
    image.symbols.find? (String.ofList word) = some id ∧ image.symbols.Interned id

instance (image : Image) (id : SymbolId) : Decidable (image.NamedByWord id) :=
  inferInstanceAs (Decidable (_ ∧ _ ∧ _ ∧ _ ∧ _ ∧ _))

/-- Such a symbol is a leaf, and its name is read as it. -/
theorem NamedByWord.leaf {id : SymbolId} (hid : image.NamedByWord id) :
    image.IsLeaf (.ofSymbol id) ∧ image.ReadsBack (.ofSymbol id) := by
  obtain ⟨hword, hhash, hdot, hint, hfind, hinterned⟩ := hid
  exact ⟨.inr ⟨id, hinterned, rfl⟩,
    readsBack_of_word hword hhash (wordValue_symbol hdot hint hfind)⟩

end Image
end StackLisp
