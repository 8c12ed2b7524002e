import StackLisp.Proofs.Text.RoundTrip

/-!
# Names in text

A symbol that its name leads to (`SymbolTable.Named`) is printed by that name, between
bars if need be. Different symbols are printed differently (`nameText_injective`), but not
every text is read as the symbol it stands for: the printer sets no bars around a lone
dot, around a word that starts with a sharp sign, or around a number that is out of range, and
bars do not protect a bar inside the name. All other names are *legible*, and just those are
read back (`readOne_print_iff`).

All symbols that are read, as a word or between bars, are such symbols
(`named_of_readWord`, `named_of_readBars`).
-/

namespace StackLisp

theorem Value.ofSymbol_injective {id id' : SymbolId} (h : Value.ofSymbol id = .ofSymbol id') :
    id = id' := by
  have hsymbol := congrArg Value.symbol? h
  rwa [Value.symbol?_ofSymbol, Value.symbol?_ofSymbol, Option.some.injEq] at hsymbol

namespace Reading

/-- The reader takes a symbol from the text, as a word or between bars. -/
def Takes (r : Reading) (id : SymbolId) (r' : Reading) : Prop :=
  readWord r = .ok (.ofSymbol id) r' ∨ readBars r = .ok (.ofSymbol id) r'

variable {r r' : Reading} {name : List Char} {id : SymbolId}

theorem internValue_named (h : internValue name r = .ok (.ofSymbol id) r') :
    r'.symbols.Named id ∧ (∀ id', r.symbols.Named id' → r'.symbols.Named id') ∧
      (r.symbols.Headed → r'.symbols.Headed) := by
  rw [internValue_eq] at h
  split at h
  · next id' hid =>
    injection h with hvalue hr
    subst hr
    exact ⟨Value.ofSymbol_injective hvalue ▸ SymbolTable.named_of_find? hid, fun _ h => h, fun h => h⟩
  · next hnone =>
    injection h with hvalue hr
    subst hr
    exact ⟨Value.ofSymbol_injective hvalue ▸ SymbolTable.named_insert hnone, fun _ h => h.insert _,
      fun h => h.push _ _⟩

/-- Only by interning a name is a symbol taken from the text. -/
theorem Takes.interns (h : r.Takes id r') :
    ∃ name r₁, r₁.symbols = r.symbols ∧ internValue name r₁ = .ok (.ofSymbol id) r' := by
  -- h | A word that is a symbol has been interned, once it is neither a dot nor a number.
  rcases h with h | h
  · change wordValue (r.ahead.takeWhile (!endsWord ·)) (r.after (r.ahead.takeWhile (!endsWord ·))
      (r.ahead.dropWhile (!endsWord ·)) r.heap) = _ at h
    refine ⟨r.ahead.takeWhile (!endsWord ·), r.after (r.ahead.takeWhile (!endsWord ·))
      (r.ahead.dropWhile (!endsWord ·)) r.heap, rfl, ?_⟩
    unfold wordValue at h
    split at h
    · cases h
    · split at h
      · exact h
      · split at h
        · injection h with hvalue
          have hsymbol := congrArg Value.isSymbol hvalue
          rw [Value.isSymbol_ofSymbol] at hsymbol
          cases hsymbol
        · cases h
  · -- The name between the bars is interned when the second bar has been passed.
    have hleads : Leads readBars r
        (fun v r' => ∃ name r₁, r₁.symbols = r.symbols ∧ internValue name r₁ = .ok v r')
        fun _ _ => True := by
      obtain ⟨r₀, hr₀, hsame⟩ : ∃ r₀, advance r = .ok () r₀ ∧ r₀.symbols = r.symbols := by
        unfold advance
        cases r.ahead <;> exact ⟨_, rfl, rfl⟩
      have hpass (cs rest : List Char) : passTo cs rest r₀ = .ok () (r₀.after cs rest r₀.heap) := rfl
      rw [readBars, leads_bind, leads_of_ok hr₀, leads_bind, leads_get, leads_bind,
        leads_of_ok (hpass ..), leads_bind, leads_of_ok peek?_eq]
      simp only [after]
      cases hrest : r₀.ahead.dropWhile (· ≠ '|') with
      | nil => trivial
      | cons c rest =>
        rw [List.head?_cons]
        dsimp only
        rw [leads_bind, leads_of_ok (advance_eq rfl)]
        refine (eq_iff_leads.1 (Eq.refl (internValue _ _))).mono (fun v r' heq => ?_)
          fun _ _ _ => trivial
        refine ⟨_, _, ?_, heq.symm⟩
        exact hsame
    rwa [leads_of_ok h] at hleads

end Reading

/-! ## What is printed -/

namespace Image

open Reading

variable {image image' : Image} {name name' : String} {id id' : SymbolId}

/-- The name stands between bars exactly if its text starts with one. -/
theorem head?_nameText : (nameText name).toList.head? = some '|' ↔ needsBars name = true := by
  unfold nameText
  cases hbars : needsBars name with
  | true => simp
  | false =>
    obtain ⟨c, cs, hname⟩ := List.exists_cons_of_ne_nil (isWord_name hbars).1
    have hc := ((isWord_name hbars).2 c (by rw [hname]; exact List.mem_cons_self)).2
    simp [hname, hc]

/-- Different names have different texts. -/
theorem nameText_injective (h : nameText name = nameText name') : name = name' := by
  have hbars : needsBars name = needsBars name' := by
    rw [Bool.eq_iff_iff, ← head?_nameText, ← head?_nameText, h]
  unfold nameText at h
  rw [hbars] at h
  split at h
  · have hlist := congrArg String.toList h
    simp only [String.toList_append, List.append_cancel_right_eq, List.append_cancel_left_eq] at hlist
    exact String.toList_injective hlist
  · exact h

/-- A symbol that its name leads to is printed by its name. -/
theorem atomText_ofSymbol (hheaded : image.symbols.Headed) (hid : image.symbols.Named id) :
    image.atomText (.ofSymbol id) = nameText (image.symbols.name id) := by
  unfold Value.ofSymbol
  split
  · next hnil =>
    rw [hnil, hheaded.nil]
    rfl
  · split
    · next ht =>
      rw [ht, hheaded.t]
      rfl
    · rw [atomText, symbolText, if_pos hid.interned.2]
      rfl

theorem print_ofSymbol (image : Image) (id : SymbolId) :
    image.print (.ofSymbol id) = image.atomText (.ofSymbol id) := by
  rw [print, ← String.empty_append (s := image.atomText _)]
  unfold Value.ofSymbol
  split
  · rfl
  · split <;> rfl

/-! ## What is read back -/

/-- Names that are read as themselves once they are printed. -/
def Legible (name : String) : Prop :=
  if needsBars name then
    '|' ∉ name.toList
  else
    name.toList ≠ ['.'] ∧ name.toList.head? ≠ some '#' ∧ Text.integer? name.toList = none

instance (name : String) : Decidable (Legible name) :=
  inferInstanceAs (Decidable (if needsBars name then '|' ∉ name.toList else _ ∧ _ ∧ _))

/-- A name between bars reads back if it has no bar in it. -/
theorem readsBack_of_bars (hid : image.symbols.Named id)
    (htext : (image.atomText (.ofSymbol id)).toList = '|' :: ((image.symbols.name id).toList ++ ['|']))
    (hbar : '|' ∉ (image.symbols.name id).toList) : image.ReadsBack (.ofSymbol id) := by
  intro rest _
  rw [htext]
  have hsplit : '|' :: ((image.symbols.name id).toList ++ ['|'] ++ rest) =
      '|' :: ((image.symbols.name id).toList ++ '|' :: rest) := by
    simp
  have hread : readForm (bound ('|' :: ((image.symbols.name id).toList ++ ['|'] ++ rest)))
      { ahead := '|' :: ((image.symbols.name id).toList ++ ['|'] ++ rest)
        heap := image.heap, symbols := image.symbols } = _ :=
    (readForm_bar rfl).trans ((readBars_eq hsplit hbar).trans (internValue_eq _ _))
  simp only [after, String.ofList_toList, show image.symbols.find? _ = some id from hid] at hread
  refine ⟨image, ?_⟩
  rw [eq_iff_leads, List.cons_append, leads_readNext rfl (by decide), leads_of_ok hread]
  simp

/-- Legible names read back, whatever follows. -/
theorem readsBack_of_legible (hheaded : image.symbols.Headed) (hid : image.symbols.Named id)
    (h : Legible (image.symbols.name id)) : image.ReadsBack (.ofSymbol id) := by
  have htext := atomText_ofSymbol hheaded hid
  unfold Legible at h
  unfold nameText at htext
  split at h
  · next hbars =>
    rw [if_pos hbars] at htext
    exact readsBack_of_bars hid (by simp [htext]) h
  · next hbars =>
    rw [if_neg hbars] at htext
    obtain ⟨hdot, hhash, hint⟩ := h
    rw [← htext] at hdot hhash hint hbars
    refine readsBack_of_word (isWord_name (Bool.eq_false_iff.2 hbars)) hhash ?_
    refine wordValue_symbol hdot hint ?_
    rw [htext, String.ofList_toList]
    exact hid

/-- What reading the first form of a text leads to, if the text starts with no layout and no
    comment. -/
theorem leads_readOne {text : String} {c : Char} {cs : List Char} {ok : Value → Image → Prop}
    {err : Failure → Image → Prop} (htext : text.toList = c :: cs)
    (hlayout : Text.isLayout c = false) (hcomment : c ≠ ';') :
    Leads (readOne text) image ok err ↔
      Leads (readForm (bound (c :: cs)))
        { ahead := c :: cs, heap := image.heap, symbols := image.symbols }
        (fun v r => ok v { image with heap := r.heap, symbols := r.symbols })
        fun e r => err e { image with heap := r.heap, symbols := r.symbols } := by
  rw [readOne, htext, leads_bind, leads_readNext hlayout hcomment]
  exact Iff.rfl

/-- Reading a name with a bar in it ends at that bar. -/
theorem not_readOne_bars {text : String} (hid : image.symbols.Named id)
    (htext : text.toList = '|' :: ((image.symbols.name id).toList ++ ['|']))
    (hbar : '|' ∈ (image.symbols.name id).toList) :
    readOne text image ≠ .ok (.ofSymbol id) image' := by
  intro hread
  obtain ⟨front, back, hname, hfront⟩ := List.eq_append_cons_of_mem hbar
  rw [hname, List.append_assoc, List.cons_append] at htext
  -- What is interned is the name before the bar, which is another one.
  have hother {id' : SymbolId} (hid' : image.symbols.find? (String.ofList front) = some id') :
      id' ≠ id := by
    rintro rfl
    have hfront := congrArg String.toList (SymbolTable.of_find?_eq_some hid').2
    rw [hname, String.toList_ofList] at hfront
    simpa using congrArg List.length hfront
  have hleads : Leads (readOne text) image (fun v _ => v ≠ .ofSymbol id) fun _ _ => True := by
    rw [leads_readOne htext rfl (by decide)]
    have hform : readForm (bound ('|' :: (front ++ '|' :: (back ++ ['|']))))
        { ahead := '|' :: (front ++ '|' :: (back ++ ['|'])), heap := image.heap,
          symbols := image.symbols } = _ :=
      (readForm_bar rfl).trans ((readBars_eq rfl hfront).trans (internValue_eq _ _))
    simp only [after] at hform
    split at hform
    · next id' hid' =>
      rw [leads_of_ok hform]
      exact fun heq => hother hid' (Value.ofSymbol_injective heq)
    · rw [leads_of_ok hform]
      intro heq
      exact Nat.lt_irrefl _ (Value.ofSymbol_injective heq ▸ hid.interned.1)
  rw [leads_of_ok hread] at hleads
  exact hleads rfl

/-- A word is not read as a symbol if it is a lone dot, starts with a sharp sign or is a
    number. -/
theorem not_readOne_word {text : String} (hword : IsWord text.toList)
    (hillegible : ¬(text.toList ≠ ['.'] ∧ text.toList.head? ≠ some '#' ∧
      Text.integer? text.toList = none)) :
    readOne text image ≠ .ok (.ofSymbol id) image' := by
  intro hread
  obtain ⟨c, cs, htext⟩ := List.exists_cons_of_ne_nil hword.1
  obtain ⟨hends, hbar⟩ := hword.2 c (by rw [htext]; exact List.mem_cons_self)
  have hc := hends
  simp only [endsWord, Bool.or_eq_false_iff, decide_eq_false_iff_not] at hc
  -- Whatever is read of such a word, it is no symbol: it is refused, or a number.
  have hleads : Leads (readOne text) image (fun v _ => v.isSymbol = false) fun _ _ => True := by
    rw [leads_readOne htext hc.1.1.1.1.1.1.1 hc.2]
    by_cases hhash : c = '#'
    · subst hhash
      have hquote : cs.head? ≠ some '\x27' := fun hquote => by
        have hmem := List.mem_cons_of_mem '#' (List.mem_of_mem_head? hquote)
        exact absurd (hword.2 _ (htext ▸ hmem)).1 (by decide)
      unfold Leads
      split
      · next v r hform => exact absurd hform (readForm_hash rfl hquote)
      · trivial
    · have hform : readForm (bound (c :: cs))
          { ahead := c :: cs, heap := image.heap, symbols := image.symbols } = _ :=
        (readForm_word rfl hends hbar hhash).trans
          (readWord_eq (List.append_nil _).symm (htext ▸ hword) trivial)
      unfold Leads
      rw [hform, ← Leads, wordValue]
      split
      · trivial
      · next hdot =>
        split
        · next hint =>
          refine (hillegible ⟨htext ▸ hdot, fun h => hhash ?_, htext ▸ hint⟩).elim
          rw [htext] at h
          exact Option.some.inj h
        · split
          · rfl
          · trivial
  rw [leads_of_ok hread, Value.isSymbol_ofSymbol] at hleads
  cases hleads

/-- Just the legible names are read back. -/
theorem readOne_print_iff (hheaded : image.symbols.Headed) (hid : image.symbols.Named id) :
    (∃ image', readOne (image.print (.ofSymbol id)) image = .ok (.ofSymbol id) image') ↔
      Legible (image.symbols.name id) := by
  have htext := (print_ofSymbol image id).trans (atomText_ofSymbol hheaded hid)
  -- A name that reads back is legible, by the two ways a name is written: between bars and bare.
  refine ⟨fun ⟨image', hread⟩ => ?_, fun h => ?_⟩
  · rw [htext] at hread
    unfold Legible
    unfold nameText at hread
    split at hread
    · next hbars =>
      rw [if_pos hbars]
      exact fun hbar => not_readOne_bars hid (by simp) hbar hread
    · next hbars =>
      rw [if_neg hbars]
      exact not_not.1 fun h => not_readOne_word (isWord_name (Bool.eq_false_iff.2 hbars)) h hread
  · obtain ⟨image', hread⟩ := readsBack_of_legible hheaded hid h [] trivial
    rw [List.append_nil] at hread
    refine ⟨image', ?_⟩
    rw [eq_iff_leads, print_ofSymbol, readOne, leads_bind, leads_of_ok hread]
    rfl

/-- Symbols in text. What is read as a word or between bars, at any place of any text, is a
    symbol that its name leads to, and the symbols that their names led to before stay such.
    Of these, just the ones with legible names are read back from what is printed, and these
    wherever the text stands and up to its end. No two of them are printed alike. -/
theorem symbols_in_text (image : Image) (hheaded : image.symbols.Headed) :
    (∀ r r' id, r.symbols = image.symbols → Takes r id r' →
      r'.symbols.Headed ∧ r'.symbols.Named id ∧
        ∀ id', image.symbols.Named id' → r'.symbols.Named id') ∧
    (∀ id, image.symbols.Named id →
      ((∃ image', readOne (image.print (.ofSymbol id)) image = .ok (.ofSymbol id) image') ↔
        Legible (image.symbols.name id)) ∧
      (Legible (image.symbols.name id) → image.ReadsBack (.ofSymbol id))) ∧
    ∀ id id', image.symbols.Named id → image.symbols.Named id' →
      image.print (.ofSymbol id) = image.print (.ofSymbol id') → id = id' := by
  refine ⟨fun r r' id hr htakes => ?_, fun id hid => ?_, fun id id' hid hid' hprint => ?_⟩
  · obtain ⟨name, r₁, hr₁, hintern⟩ := htakes.interns
    have hsame : r₁.symbols = image.symbols := hr₁.trans hr
    obtain ⟨hnamed, hkept, hheaded'⟩ := internValue_named hintern
    exact ⟨hheaded' (hsame ▸ hheaded), hnamed, fun id' hid' => hkept id' (hsame ▸ hid')⟩
  · exact ⟨readOne_print_iff hheaded hid, readsBack_of_legible hheaded hid⟩
  -- The text of a name determines the name, and the name its symbol.
  · rw [print_ofSymbol, print_ofSymbol, atomText_ofSymbol hheaded hid,
      atomText_ofSymbol hheaded hid'] at hprint
    rw [SymbolTable.Named, nameText_injective hprint] at hid
    exact Option.some.inj (hid.symm.trans hid')

/-- An image that knows the symbols `|a b|`, `a|b` and `#a`, besides `nil` and `t`. -/
def oddNames : Image where
  heap := .empty 0
  symbols.symbols :=
    #[{ name := "nil" }, { name := "t" }, { name := "a b" }, { name := "a|b" }, { name := "#a" }]

theorem symbols_in_text_oddNames : oddNames.symbols.Headed ∧
    (∃ image', readOne (oddNames.print (.ofSymbol ⟨2⟩)) oddNames = .ok (.ofSymbol ⟨2⟩) image') ∧
    (¬∃ image', readOne (oddNames.print (.ofSymbol ⟨3⟩)) oddNames = .ok (.ofSymbol ⟨3⟩) image') ∧
    ¬∃ image', readOne (oddNames.print (.ofSymbol ⟨4⟩)) oddNames = .ok (.ofSymbol ⟨4⟩) image' := by
  have hheaded : oddNames.symbols.Headed := ⟨by decide, by decide +kernel, by decide +kernel⟩
  obtain ⟨-, hiff, -⟩ := symbols_in_text oddNames hheaded
  refine ⟨hheaded, (hiff ⟨2⟩ (by decide +kernel)).1.2 (by decide +kernel), ?_, ?_⟩
  · exact (hiff ⟨3⟩ (by decide +kernel)).1.not.2 (by decide +kernel)
  · exact (hiff ⟨4⟩ (by decide +kernel)).1.not.2 (by decide +kernel)

/-- The symbol that is read from `|.|` is printed as a lone dot, which is the text of no
    symbol. -/
theorem dot_not_read_back :
    Leads (readOne "|.|") { heap := .empty 0 }
      (fun v image => v.isSymbol = true ∧ image.print v = "." ∧
        Leads (readOne ".") image (fun _ _ => False)
          fun e _ => e = .error (.read (.malformed .loneDot 1)))
      fun _ _ => False := by
  decide +kernel

end Image

end StackLisp
