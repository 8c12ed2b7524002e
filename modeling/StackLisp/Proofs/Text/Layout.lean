import StackLisp.Proofs.Text.FormByForm

/-!
# Layout between words

Where layout may stand, it does not matter how much of it there is, nor whether there are
comments in it. That is so everywhere outside names between bars and outside comments
(`TextPlace.takesLayout`): any character of layout there can be replaced by layout and comments,
as long as layout comes first (`Filler`). Texts that differ in this only (`Relaid`) are read
as the same values, with the same pairs and symbols, or fail alike (`Image.readAll_filler`).

Two readers go through such texts side by side (`Reading.Abreast`). Wherever one of them
looks at the text, the other one sees the same: in skipping layout (`Relaid.skipped`), at
the end of a word (`Relaid.takeWhile_word`) and of a name (`Relaid.takeWhile_name`), and in
looking for what follows a dot, a comma or a `#` (`inStep_read`).
-/

namespace StackLisp

open Reading

variable {α β σ : Type}

/-! ## Places in a text -/

/-- What a reader has come past last. -/
inductive TextPlace where
  /-- Nothing that goes on with the next character. -/
  | between
  | word
  /-- The start of a name between bars. -/
  | name
  | comment
  /-- A comma, to which an at sign belongs. -/
  | comma
  /-- A `#`, which needs a quote. -/
  | hash
  /-- Something that no form starts with. -/
  | fault
deriving DecidableEq, Repr

namespace TextPlace

/-- The place past a character that does not belong to what is before it. -/
def start (c : Char) : TextPlace :=
  if c = ';' then .comment
  else if c = '|' then .name
  else if c = ',' then .comma
  else if c = '#' then .hash
  else if c = '"' then .fault
  else if endsWord c then .between
  else .word

/-- The place past a character. -/
def past : TextPlace → Char → TextPlace
  | .between, c => start c
  | .word, c => if endsWord c then start c else .word
  | .name, c => if c = '|' then .between else .name
  | .comment, c => if c = '\n' then .between else .comment
  | .comma, c => if c = '@' then .between else start c
  | .hash, c => if c = '\x27' then .between else .fault
  | .fault, _ => .fault

/-- Whether layout at this place is layout to the reader. -/
def takesLayout : TextPlace → Bool
  | .name | .comment => false
  | _ => true

/-- After layout anything may begin. -/
theorem start_layout {c : Char} (hc : Text.isLayout c = true) : start c = .between := by
  simp only [Text.isLayout, Bool.or_eq_true, decide_eq_true_eq] at hc
  rcases hc with (((rfl | rfl) | rfl) | rfl) | rfl <;> rfl

/-- Other characters begin a word. -/
theorem start_word {c : Char} (hends : endsWord c = false) (hbar : c ≠ '|') (hhash : c ≠ '#') :
    start c = .word := by
  simp only [endsWord, Bool.or_eq_false_iff, decide_eq_false_iff_not] at hends
  simp_all [start, endsWord]

end TextPlace

/-- Layout, and comments up to the ends of their lines. -/
inductive Gap : List Char → Prop
  | nil : Gap []
  | layout {c : Char} {cs : List Char} (hc : Text.isLayout c = true) (rest : Gap cs) : Gap (c :: cs)
  | comment {text cs : List Char} (line : '\n' ∉ text) (rest : Gap cs) :
      Gap (';' :: (text ++ '\n' :: cs))

/-- Layout and comments that come after layout. -/
inductive Filler : List Char → Prop
  | intro {c : Char} {cs : List Char} (hc : Text.isLayout c = true) (rest : Gap cs) : Filler (c :: cs)

/-- The second text is the first one with some of its layout replaced. Both are ahead of a
    reader at this place. -/
inductive Relaid : TextPlace → List Char → List Char → Prop
  | nil {p : TextPlace} : Relaid p [] []
  | kept {p : TextPlace} {c : Char} {cs cs' : List Char} (rest : Relaid (p.past c) cs cs') :
      Relaid p (c :: cs) (c :: cs')
  | filled {p : TextPlace} {c : Char} {cs cs' filler : List Char} (hp : p.takesLayout = true)
      (hc : Text.isLayout c = true) (hfiller : Filler filler) (rest : Relaid (p.past c) cs cs') :
      Relaid p (c :: cs) (filler ++ cs')

theorem Relaid.refl (p : TextPlace) : ∀ text : List Char, Relaid p text text
  | [] => .nil
  | c :: cs => .kept (refl (p.past c) cs)

/-- One character of layout is replaced. -/
theorem Relaid.of_filler {before after filler : List Char} {c : Char} {p : TextPlace}
    (hp : (before.foldl TextPlace.past p).takesLayout = true) (hc : Text.isLayout c = true)
    (hfiller : Filler filler) : Relaid p (before ++ c :: after) (before ++ (filler ++ after)) := by
  induction before generalizing p with
  | nil =>
    rw [List.nil_append, List.nil_append]
    exact .filled hp hc hfiller (.refl _ after)
  | cons b before ih => exact .kept (ih hp)

/-! ## What is seen of both texts -/

/-- What is left after layout and comments does not depend on where the text stands. -/
theorem skipped_fst (inComment : Bool) (text : List Char) (offset offset' : Nat) :
    (skipped inComment text offset).1 = (skipped inComment text offset').1 := by
  obtain ⟨_, _, -, heq, -⟩ := skipped_eq inComment text
  rw [heq, heq]

/-- A character of layout is skipped. -/
theorem skipped_layout {c : Char} (hc : Text.isLayout c = true) (cs : List Char) (offset : Nat) :
    skipped false (c :: cs) offset = skipped false cs (offset + 1) := by
  rw [skipped, if_neg (by decide), if_pos hc]

/-- A semicolon begins a comment. -/
theorem skipped_comment (cs : List Char) (offset : Nat) :
    skipped false (';' :: cs) offset = skipped true cs (offset + 1) := rfl

/-- In front of anything else nothing is skipped. -/
theorem skipped_other {c : Char} (hc : Text.isLayout c = false) (hcomment : c ≠ ';')
    (cs : List Char) (offset : Nat) : skipped false (c :: cs) offset = (c :: cs, offset) := by
  rw [skipped, if_neg (by decide), hc, if_neg (by decide), if_neg hcomment]

/-- A comment is skipped up to the end of its line. -/
theorem skipped_line {line : List Char} (hline : '\n' ∉ line) (cs : List Char) (offset offset' : Nat) :
    (skipped true (line ++ '\n' :: cs) offset).1 = (skipped false cs offset').1 := by
  induction line generalizing offset with
  | nil =>
    rw [List.nil_append, skipped, if_pos rfl]
    exact skipped_fst _ _ _ _
  | cons c line ih =>
    have hc : c ≠ '\n' := fun heq => hline (heq ▸ List.mem_cons_self)
    rw [List.cons_append, skipped, if_pos rfl, decide_eq_true hc]
    exact ih (fun hmem => hline (List.mem_cons_of_mem _ hmem)) _

/-- Layout and comments are skipped altogether. -/
theorem Gap.skipped {gap : List Char} (hgap : Gap gap) (cs : List Char) (offset offset' : Nat) :
    (skipped false (gap ++ cs) offset).1 = (skipped false cs offset').1 := by
  induction hgap generalizing offset with
  | nil => exact skipped_fst _ _ _ _
  | layout hc _ ih =>
    rw [List.cons_append, skipped_layout hc]
    exact ih _
  | comment hline _ ih =>
    rw [List.cons_append, List.append_assoc, skipped_comment, List.cons_append, skipped_line hline _ _ 0]
    exact ih _

/-- Layout ends a word. -/
theorem endsWord_of_isLayout {c : Char} (hc : Text.isLayout c = true) : endsWord c = true := by
  simp [endsWord, hc]

theorem takeWhile_cons_of_ends {c : Char} (hends : endsWord c = true) (cs : List Char) :
    (c :: cs).takeWhile (!endsWord ·) = [] := by
  simp [hends]

theorem dropWhile_cons_of_ends {c : Char} (hends : endsWord c = true) (cs : List Char) :
    (c :: cs).dropWhile (!endsWord ·) = c :: cs := by
  simp [hends]

namespace Relaid

variable {p : TextPlace} {text text' : List Char}

/-- Layout and comments are skipped up to the same character. -/
theorem skipped (h : Relaid p text text') (hp : p = .between ∨ p = .comment) (offset offset' : Nat) :
    Relaid .between (skipped (p == .comment) text offset).1
      (Reading.skipped (p == .comment) text' offset').1 := by
  -- The induction is along the two texts. Characters that are kept are passed in both, and a filler
  -- is passed in one.
  induction h generalizing offset offset' with
  | nil => exact .nil
  | @kept p c cs cs' rest ih =>
    -- rfl | Between forms, layout and comments are passed, and anything else stops both.
    rcases hp with rfl | rfl
    · change Relaid _ (Reading.skipped false _ _).1 (Reading.skipped false _ _).1
      by_cases hlayout : Text.isLayout c = true
      · rw [skipped_layout hlayout, skipped_layout hlayout]
        rw [TextPlace.past, TextPlace.start_layout hlayout] at ih
        exact ih (.inl rfl) _ _
      · by_cases hcomment : c = ';'
        · subst hcomment
          rw [skipped_comment, skipped_comment]
          exact ih (.inr rfl) _ _
        · have hother := skipped_other (Bool.eq_false_iff.2 hlayout) hcomment
          rw [hother, hother]
          exact .kept rest
    · change Relaid _ (Reading.skipped true _ _).1 (Reading.skipped true _ _).1
      rw [Reading.skipped, if_pos rfl, Reading.skipped, if_pos rfl]
      -- A comment goes up to the end of its line.
      by_cases hline : c = '\n'
      · subst hline
        exact ih (.inl rfl) _ _
      · rw [TextPlace.past, if_neg hline] at ih
        rw [decide_eq_true hline]
        exact ih (.inr rfl) _ _
  | @filled p c cs cs' filler hp' hc hfiller rest ih =>
    rcases hp with rfl | rfl
    · obtain ⟨hc', hgap⟩ := hfiller
      change Relaid _ (Reading.skipped false _ _).1 (Reading.skipped false _ _).1
      rw [skipped_layout hc, List.cons_append, skipped_layout hc', hgap.skipped _ _ 0]
      rw [TextPlace.past, TextPlace.start_layout hc] at ih
      exact ih (.inl rfl) _ _
    · cases hp'

/-- The texts go on with the same character, if the first one does not go on with layout. -/
theorem cases_head (h : Relaid p text text') (hhead : ∀ c ∈ text.head?, Text.isLayout c = false) :
    text = [] ∧ text' = [] ∨
      ∃ c cs cs', text = c :: cs ∧ text' = c :: cs' ∧ Relaid (p.past c) cs cs' := by
  cases h with
  | nil => exact .inl ⟨rfl, rfl⟩
  | kept rest => exact .inr ⟨_, _, _, rfl, rfl, rest⟩
  | filled _ hc _ _ => exact absurd hc (by simp [hhead _ rfl])

/-- The end of a word is between words. -/
theorem between_of_word (h : Relaid .word text text')
    (hhead : ∀ c ∈ text.head?, endsWord c = true) : Relaid .between text text' := by
  cases h with
  | nil => exact .nil
  | kept rest =>
    rw [TextPlace.past, if_pos (hhead _ rfl)] at rest
    exact .kept rest
  | filled _ hc hfiller rest =>
    rw [TextPlace.past, if_pos (hhead _ rfl)] at rest
    exact .filled rfl hc hfiller rest

/-- A word ends at the same character. -/
theorem takeWhile_word (h : Relaid .word text text') :
    text'.takeWhile (!endsWord ·) = text.takeWhile (!endsWord ·) ∧
      Relaid .between (text.dropWhile (!endsWord ·)) (text'.dropWhile (!endsWord ·)) := by
  generalize hp : TextPlace.word = p at h
  induction h with
  | nil => exact ⟨rfl, .nil⟩
  | @kept p c cs cs' rest ih =>
    subst hp
    -- Within a word the texts are the same, character by character.
    by_cases hends : endsWord c = true
    · rw [takeWhile_cons_of_ends hends, takeWhile_cons_of_ends hends, dropWhile_cons_of_ends hends,
        dropWhile_cons_of_ends hends]
      refine ⟨rfl, between_of_word (.kept rest) ?_⟩
      rintro _ ⟨⟩
      exact hends
    · simp only [List.takeWhile_cons, List.dropWhile_cons, hends, Bool.not_false, if_true]
      obtain ⟨htake, hdrop⟩ := ih (by rw [TextPlace.past, if_neg hends])
      exact ⟨by rw [htake], hdrop⟩
  | @filled p c cs cs' filler hp' hc hfiller rest ih =>
    subst hp
    obtain ⟨hc', hgap⟩ := hfiller
    -- A filler stands after the word in both.
    have hends := endsWord_of_isLayout hc
    have hends' := endsWord_of_isLayout hc'
    rw [List.cons_append, takeWhile_cons_of_ends hends, takeWhile_cons_of_ends hends',
      dropWhile_cons_of_ends hends, dropWhile_cons_of_ends hends']
    refine ⟨rfl, between_of_word (.filled rfl hc (.intro hc' hgap) rest) ?_⟩
    rintro _ ⟨⟩
    exact hends

/-- A name ends at the same bar. -/
theorem takeWhile_name (h : Relaid .name text text') :
    text'.takeWhile (· ≠ '|') = text.takeWhile (· ≠ '|') ∧
      (text.dropWhile (· ≠ '|') = [] ∧ text'.dropWhile (· ≠ '|') = [] ∨
        ∃ cs cs', text.dropWhile (· ≠ '|') = '|' :: cs ∧ text'.dropWhile (· ≠ '|') = '|' :: cs' ∧
          Relaid .between cs cs') := by
  generalize hp : TextPlace.name = p at h
  induction h with
  | nil => exact ⟨rfl, .inl ⟨rfl, rfl⟩⟩
  | @kept p c cs cs' rest ih =>
    subst hp
    by_cases hbar : c = '|'
    · subst hbar
      exact ⟨rfl, .inr ⟨cs, cs', rfl, rfl, rest⟩⟩
    · simp only [List.takeWhile_cons, List.dropWhile_cons, decide_eq_true hbar, if_true]
      obtain ⟨htake, hdrop⟩ := ih (by rw [TextPlace.past, if_neg hbar])
      exact ⟨by rw [htake], hdrop⟩
  | filled hp' =>
    subst hp
    cases hp'

/-- A dot announces the tail of a list in both texts, or in none of them. -/
theorem isDotSeparator_eq (h : Relaid .word text text') :
    isDotSeparator text' = isDotSeparator text := by
  cases h with
  | nil => rfl
  | kept => rfl
  | filled _ hc hfiller _ =>
    obtain ⟨hc', -⟩ := hfiller
    simp [isDotSeparator, hc, hc']

/-- A dot with a separator behind it is a word by itself. -/
theorem between_of_separator (h : Relaid .word text text') (hdot : isDotSeparator text = true) :
    Relaid .between text text' := by
  refine h.between_of_word ?_
  intro c hc
  obtain ⟨cs, rfl⟩ := List.head?_eq_some_iff.1 hc
  simp only [isDotSeparator, Bool.or_eq_true, decide_eq_true_eq] at hdot
  rcases hdot with hlayout | rfl
  · exact endsWord_of_isLayout hlayout
  · rfl

/-- An at sign belongs to a comma in both texts, or in none of them. -/
theorem comma_cases (h : Relaid .comma text text') :
    (∃ cs cs', text = '@' :: cs ∧ text' = '@' :: cs' ∧ Relaid .between cs cs') ∨
      text.head? ≠ some '@' ∧ text'.head? ≠ some '@' ∧ Relaid .between text text' := by
  cases h with
  | nil => exact .inr ⟨nofun, nofun, .nil⟩
  | @kept _ c cs cs' rest =>
    by_cases hat : c = '@'
    · subst hat
      exact .inl ⟨cs, cs', rfl, rfl, rest⟩
    · rw [TextPlace.past, if_neg hat] at rest
      have hne : some c ≠ some '@' := fun heq => hat (Option.some.inj heq)
      exact .inr ⟨hne, hne, .kept rest⟩
  | @filled _ c cs cs' filler _ hc hfiller rest =>
    have hne {c : Char} (hc : Text.isLayout c = true) : some c ≠ some '@' := by
      rintro ⟨⟩
      cases hc
    rw [TextPlace.past, if_neg fun heq => hne hc (congrArg some heq)] at rest
    refine .inr ⟨hne hc, ?_, .filled rfl hc hfiller rest⟩
    obtain ⟨hc', -⟩ := hfiller
    exact hne hc'

/-- A quote belongs to a `#` in both texts, or in none of them. -/
theorem hash_cases (h : Relaid .hash text text') :
    (∃ cs cs', text = '\x27' :: cs ∧ text' = '\x27' :: cs' ∧ Relaid .between cs cs') ∨
      text = [] ∧ text' = [] ∨
      ∃ c c', text.head? = some c ∧ text'.head? = some c' ∧ c ≠ '\x27' ∧ c' ≠ '\x27' := by
  cases h with
  | nil => exact .inr (.inl ⟨rfl, rfl⟩)
  | @kept _ c cs cs' rest =>
    by_cases hquote : c = '\x27'
    · subst hquote
      exact .inl ⟨cs, cs', rfl, rfl, rest⟩
    · exact .inr (.inr ⟨c, c, rfl, rfl, hquote, hquote⟩)
  | @filled _ c cs cs' filler _ hc hfiller rest =>
    have hne {c : Char} (hc : Text.isLayout c = true) : c ≠ '\x27' := by
      rintro rfl
      cases hc
    obtain ⟨hc', -⟩ := hfiller
    exact .inr (.inr ⟨_, _, rfl, rfl, hne hc, hne hc'⟩)

end Relaid

/-! ## Failures that are alike -/

/-- The faults are the same, but for the character that comes after a `#`. -/
inductive SyntaxFault.Alike : SyntaxFault → SyntaxFault → Prop
  | same (fault : SyntaxFault) : Alike fault fault
  | dispatch (c c' : Char) : Alike (.unknownDispatch c) (.unknownDispatch c')

/-- The failures are the same, but for where in the text a fault is and for the character that
    comes after a `#`. -/
inductive Failure.Alike : Failure → Failure → Prop
  | same (e : Failure) : Alike e e
  | malformed {fault fault' : SyntaxFault} (h : fault.Alike fault') (offset offset' : Nat) :
      Alike (.error (.read (.malformed fault offset))) (.error (.read (.malformed fault' offset')))

/-- Both ends are the same result, in states that `R` relates, or failures that are alike, in
    states that `S` relates. -/
inductive EndsAlike (R S : σ → σ → Prop) :
    EStateM.Result Failure σ α → EStateM.Result Failure σ α → Prop
  | ok {a : α} {s s' : σ} (h : R s s') : EndsAlike R S (.ok a s) (.ok a s')
  | error {e e' : Failure} {s s' : σ} (he : e.Alike e') (h : S s s') :
      EndsAlike R S (.error e s) (.error e' s')

/-- The actions end alike, in states that `R` relates or, if they fail, in ones that `S` relates. -/
abbrev InStep (S : σ → σ → Prop) (x y : EStateM Failure σ α) (s s' : σ) (R : σ → σ → Prop) : Prop :=
  EndsAlike R S (x s) (y s')

section

variable {R Q S : σ → σ → Prop} {x y : EStateM Failure σ α} {s s' : σ}

/-- Where the first actions fail alike, so do both together. -/
theorem InStep.bind {f g : α → EStateM Failure σ β} (hx : InStep S x y s s' R)
    (hf : ∀ a t t', R t t' → InStep S (f a) (g a) t t' Q) :
    InStep S (x >>= f) (y >>= g) s s' Q := by
  unfold InStep at hx ⊢
  simp only [Bind.bind, EStateM.bind]
  generalize x s = r, y s' = r' at hx
  cases hx with
  | ok h => exact hf _ _ _ h
  | error he h => exact .error he h

theorem inStep_pure (a : α) (h : R s s') : InStep S (pure a) (pure a) s s' R := .ok h

theorem inStep_get_bind {f g : σ → EStateM Failure σ α} (h : InStep S (f s) (g s') s s' R) :
    InStep S (get >>= f) (get >>= g) s s' R := h

/-- One action, twice in the same state. -/
theorem inStep_self (x : EStateM Failure σ α) (s : σ) : InStep Eq x x s s Eq := by
  unfold InStep
  cases x s with
  | ok a t => exact .ok rfl
  | error e t => exact .error (.same e) rfl

end

/-- Where a misplaced splice is reported matters for its offset only. -/
theorem inStep_expandFrom (b : Backquote) (offset fuel : Nat) :
    (∀ v h, InStep Eq (b.expandFrom fuel v) (Backquote.expandFrom { b with offset } fuel v) h h Eq) ∧
    ∀ before v h, InStep Eq (b.segmentsFrom fuel before v)
      (Backquote.segmentsFrom { b with offset } fuel before v) h h Eq := by
  -- The two only differ in the offset, which is for messages.
  induction fuel with
  | zero => exact ⟨fun _ _ => .error (.same _) rfl, fun _ _ _ => .error (.same _) rfl⟩
  | succ fuel ih =>
    obtain ⟨hexpand, hsegments⟩ := ih
    refine ⟨fun v h => ?_, fun before v h => ?_⟩
    · unfold Backquote.expandFrom
      refine inStep_get_bind ?_
      cases Backquote.marked? h b.unquote v with
      | some x => exact inStep_pure x rfl
      | none =>
        refine inStep_get_bind ?_
        dsimp only
        split
        · exact .error (.malformed (.same _) _ _) rfl
        · cases v with
          | pair id =>
            refine (hsegments [] _ h).bind ?_
            rintro ⟨segments, rest⟩ h₁ _ rfl
            dsimp only
            split
            · exact inStep_self _ h₁
            · refine (hexpand rest h₁).bind ?_
              rintro tail h₂ _ rfl
              exact inStep_self _ h₂
          | _ => exact inStep_self _ h
    · unfold Backquote.segmentsFrom
      cases v with
      | pair id =>
        refine inStep_get_bind ?_
        dsimp only
        split
        · exact inStep_pure _ rfl
        · refine inStep_get_bind (inStep_get_bind ?_)
          cases Backquote.marked? h b.splice (h.car id) with
          | some x => exact inStep_get_bind (hsegments _ _ h)
          | none =>
            refine (hexpand _ h).bind ?_
            rintro x h₁ _ rfl
            exact inStep_get_bind (hsegments _ _ h₁)
      | _ => exact inStep_pure _ rfl

/-! ## Two readers abreast -/

namespace Reading

/-- The readers have the same pairs and symbols. -/
structure SameStore (r r' : Reading) : Prop where
  heap : r'.heap = r.heap
  symbols : r'.symbols = r.symbols

/-- The readers have the same behind them, but for what of the layout is replaced, and the same
    ahead. -/
structure Abreast (p : TextPlace) (r r' : Reading) : Prop extends SameStore r r' where
  backquotes : r'.backquotes = r.backquotes
  ahead : Relaid p r.ahead r'.ahead

section

variable {p : TextPlace} {r r' : Reading} {R : Reading → Reading → Prop}

/-- Where in the text the fault is reported may differ. -/
theorem inStep_fail (h : SameStore r r') (fault : SyntaxFault) :
    InStep SameStore (fail fault : ReadM α) (fail fault) r r' R :=
  .error (.malformed (.same fault) _ _) h

theorem inStep_fail_bind {f g : β → ReadM α} (h : SameStore r r') (fault : SyntaxFault) :
    InStep SameStore (fail fault >>= f) (fail fault >>= g) r r' R :=
  .error (.malformed (.same fault) _ _) h

/-- Both readers look at their next characters. -/
theorem inStep_peek_bind {f g : Option Char → ReadM α}
    (h : InStep SameStore (f r.ahead.head?) (g r'.ahead.head?) r r' R) :
    InStep SameStore (peek? >>= f) (peek? >>= g) r r' R := h

/-- Both skip to the next form, which begins with the same character. -/
theorem inStep_skip (h : Abreast .between r r') : InStep SameStore skip skip r r' fun s s' =>
    Abreast .between s s' ∧ ∀ c ∈ s.ahead.head?, Text.isLayout c = false ∧ c ≠ ';' := by
  obtain ⟨_, rest, -, heq, hrest⟩ := skipped_eq false r.ahead
  have hahead := h.ahead.skipped (.inl rfl) r.offset r'.offset
  refine .ok ⟨⟨⟨h.heap, h.symbols⟩, h.backquotes, hahead⟩, ?_⟩
  change ∀ c ∈ (skipped false r.ahead r.offset).1.head?, _
  rw [heq]
  exact hrest

/-- Both go past a character, and the texts behind it have to fit. -/
theorem inStep_advance {c c' : Char} {cs cs' : List Char} (h : Abreast p r r')
    (hahead : r.ahead = c :: cs) (hahead' : r'.ahead = c' :: cs') {q : TextPlace}
    (rest : Relaid q cs cs') : InStep SameStore advance advance r r' (Abreast q) := by
  unfold InStep
  rw [advance_eq hahead, advance_eq hahead']
  exact .ok ⟨⟨h.heap, h.symbols⟩, h.backquotes, rest⟩

/-- The same is done on the same heap. -/
theorem inStep_heap {x y : HeapM α} (h : Abreast p r r') (hxy : InStep Eq x y r.heap r.heap Eq) :
    InStep SameStore (liftM x : ReadM α) (liftM y) r r' (Abreast p) := by
  change EndsAlike _ _ (onHeap x r) (onHeap y r')
  unfold InStep at hxy
  simp only [onHeap, h.heap]
  generalize x r.heap = a, y r.heap = b at hxy
  cases hxy with
  | ok heq => exact .ok ⟨⟨heq.symm, h.symbols⟩, h.backquotes, h.ahead⟩
  | error he heq => exact .error he ⟨heq.symm, h.symbols⟩

/-- Or with the same symbols. -/
theorem inStep_symbols (x : SymbolM α) (h : Abreast p r r') :
    InStep SameStore (liftM x : ReadM α) (liftM x) r r' (Abreast p) := by
  change EndsAlike _ _ (onSymbols x r) (onSymbols x r')
  simp only [onSymbols, h.symbols]
  cases x r.symbols with
  | ok => exact .ok ⟨⟨h.heap, rfl⟩, h.backquotes, h.ahead⟩
  | error => exact .error (.same _) ⟨h.heap, rfl⟩

theorem inStep_backquotes (f : Nat → Nat) (h : Abreast p r r') :
    InStep SameStore (modify fun r => { r with backquotes := f r.backquotes })
      (modify fun r => { r with backquotes := f r.backquotes }) r r' (Abreast p) :=
  .ok ⟨⟨h.heap, h.symbols⟩, congrArg f h.backquotes, h.ahead⟩

/-- A name is the same in both texts. -/
theorem inStep_internValue (name : List Char) (h : Abreast p r r') :
    InStep SameStore (internValue name) (internValue name) r r' (Abreast p) :=
  (inStep_symbols _ h).bind fun _ _ _ h => inStep_pure _ h

/-- So is a word, and a fault in it is the same. -/
theorem inStep_wordValue (word : List Char) (h : Abreast p r r') :
    InStep SameStore (wordValue word) (wordValue word) r r' (Abreast p) := by
  unfold wordValue
  by_cases hdot : word = ['.']
  · simp only [hdot, if_true]
    exact inStep_fail_bind h.toSameStore _
  · simp only [hdot, if_false]
    split
    · exact inStep_internValue word h
    · split
      · exact inStep_pure _ h
      · exact inStep_fail h.toSameStore _

/-- A word is read up to the same end. -/
theorem inStep_readWord {c : Char} {cs cs' : List Char} (h : Abreast p r r')
    (hahead : r.ahead = c :: cs) (hahead' : r'.ahead = c :: cs') (hends : endsWord c = false)
    (rest : Relaid .word cs cs') :
    InStep SameStore readWord readWord r r' (Abreast .between) := by
  have hword {text : List Char} : (c :: text).takeWhile (!endsWord ·) =
      c :: text.takeWhile (!endsWord ·) := by simp [hends]
  have hrest {text : List Char} : (c :: text).dropWhile (!endsWord ·) =
      text.dropWhile (!endsWord ·) := by simp [hends]
  obtain ⟨htake, hdrop⟩ := rest.takeWhile_word
  have hword' : r'.ahead.takeWhile (!endsWord ·) = r.ahead.takeWhile (!endsWord ·) := by
    rw [hahead, hahead', hword, hword, htake]
  have habreast : Relaid .between (r.ahead.dropWhile (!endsWord ·)) (r'.ahead.dropWhile (!endsWord ·)) := by
    rwa [hahead, hahead', hrest, hrest]
  change InStep _ (wordValue _) (wordValue _) (r.after _ _ r.heap) (r'.after _ _ r'.heap) _
  rw [hword']
  exact inStep_wordValue _ ⟨⟨h.heap, h.symbols⟩, h.backquotes, habreast⟩

/-- A name is read up to the same bar. -/
theorem inStep_readBars {cs cs' : List Char} (h : Abreast p r r') (hahead : r.ahead = '|' :: cs)
    (hahead' : r'.ahead = '|' :: cs') (rest : Relaid .name cs cs') :
    InStep SameStore readBars readBars r r' (Abreast .between) := by
  refine (inStep_advance h hahead hahead' rest).bind ?_
  intro _ s s' hs
  refine inStep_get_bind ?_
  -- Between the bars nothing is filled in, so both take the same name.
  obtain ⟨htake, hdrop⟩ := hs.ahead.takeWhile_name
  have hpass : InStep SameStore (passTo (s.ahead.takeWhile (· ≠ '|')) (s.ahead.dropWhile (· ≠ '|')))
      (passTo (s'.ahead.takeWhile (· ≠ '|')) (s'.ahead.dropWhile (· ≠ '|'))) s s'
      fun t t' => SameStore t t' ∧ t'.backquotes = t.backquotes ∧
        t.ahead = s.ahead.dropWhile (· ≠ '|') ∧ t'.ahead = s'.ahead.dropWhile (· ≠ '|') :=
    .ok ⟨⟨hs.heap, hs.symbols⟩, hs.backquotes, rfl, rfl⟩
  refine hpass.bind ?_
  intro _ t t' ht
  obtain ⟨hstore, hbackquotes, htext, htext'⟩ := ht
  refine inStep_peek_bind ?_
  rcases hdrop with ⟨hnil, hnil'⟩ | ⟨rest, rest', hcons, hcons', hrest⟩
  · rw [htext, htext', hnil, hnil']
    exact inStep_fail hstore _
  · rw [hcons] at htext
    rw [hcons'] at htext'
    rw [htext, htext']
    have hnext : Abreast .name t t' := ⟨hstore, hbackquotes, by rw [htext, htext']; exact .kept hrest⟩
    refine (inStep_advance hnext htext htext' hrest).bind ?_
    intro _ u u' hu
    rw [htake]
    exact inStep_internValue _ hu

/-- After a dotted tail, both lists end or none of them does. -/
theorem inStep_closeDotted (h : Abreast .between r r') :
    InStep SameStore closeDotted closeDotted r r' (Abreast .between) := by
  refine (inStep_skip h).bind ?_
  intro _ s s' hs
  obtain ⟨hs, hhead⟩ := hs
  refine inStep_peek_bind ?_
  rcases hs.ahead.cases_head fun c hc => (hhead c hc).1 with
    ⟨hnil, hnil'⟩ | ⟨c, cs, cs', hcons, hcons', rest⟩
  · rw [hnil, hnil']
    exact inStep_fail hs.toSameStore _
  · rw [hcons, hcons', List.head?_cons, List.head?_cons]
    by_cases hclose : c = ')'
    · subst hclose
      exact inStep_advance hs hcons hcons' rest
    · split
      · next heq => exact absurd (Option.some.inj heq) hclose
      · exact .error (.malformed (.same _) _ _) hs.toSameStore
      · exact inStep_fail hs.toSameStore _

/-- A template is expanded in the same way, and a misplaced splice is reported by both. -/
theorem inStep_expandBackquote (template : Value) (h : Abreast p r r') :
    InStep SameStore (expandBackquote template) (expandBackquote template) r r' (Abreast p) := by
  refine inStep_get_bind ?_
  rw [h.symbols]
  refine inStep_heap h ?_
  refine InStep.bind (R := fun t t' => t = t') (.ok rfl) ?_
  rintro heap t _ rfl
  exact (inStep_expandFrom _ _ _).1 _ _

/-! ### Forms inside of others -/

/-- The action reads alike wherever texts differ in layout only. -/
def ReadsAlike (x : ReadM Value) : Prop :=
  ∀ {r r' : Reading}, Abreast .between r r' → InStep SameStore x x r r' (Abreast .between)

section

variable {form : ReadM Value} {marked : SymbolId → ReadM Value} {c : Char} {cs cs' : List Char}

/-- A form is read in both texts, with one backquote more around it. -/
theorem inStep_readTemplate (hform : ReadsAlike form) (h : Abreast p r r') (hahead : r.ahead = c :: cs)
    (hahead' : r'.ahead = c :: cs') (rest : Relaid .between cs cs') :
    InStep SameStore (readTemplate form) (readTemplate form) r r' (Abreast .between) := by
  refine (inStep_advance h hahead hahead' rest).bind ?_
  intro _ s s' hs
  refine (inStep_backquotes (· + 1) hs).bind ?_
  intro _ t t' ht
  refine (hform ht).bind ?_
  intro template u u' hu
  refine (inStep_backquotes (· - 1) hu).bind ?_
  intro _ v v' hv
  exact inStep_expandBackquote template hv

/-- Layout behind a comma does not hide the sign that goes with it. -/
theorem inStep_readMarker (h : Abreast .comma r r') :
    InStep SameStore readMarker readMarker r r' (Abreast .between) := by
  refine inStep_peek_bind ?_
  rcases h.ahead.comma_cases with ⟨text, text', hat, hat', rest⟩ | ⟨hat, hat', rest⟩
  · rw [hat, hat', List.head?_cons, List.head?_cons, if_pos rfl]
    refine (inStep_advance h hat hat' rest).bind ?_
    intro _ s s' hs
    exact inStep_pure _ hs
  · rw [if_neg hat, if_neg hat']
    exact inStep_pure _ ⟨h.toSameStore, h.backquotes, rest⟩

/-- The form behind a comma is read outside the backquote. -/
theorem inStep_readUnquoted (hmarked : ∀ head, ReadsAlike (marked head)) (h : Abreast p r r')
    (hahead : r.ahead = c :: cs) (hahead' : r'.ahead = c :: cs') (rest : Relaid .comma cs cs') :
    InStep SameStore (readUnquoted marked) (readUnquoted marked) r r' (Abreast .between) := by
  refine inStep_get_bind ?_
  rw [h.backquotes]
  by_cases hzero : r.backquotes = 0
  · simp only [hzero, if_true]
    exact inStep_fail_bind h.toSameStore _
  · simp only [hzero, if_false]
    refine (inStep_advance h hahead hahead' rest).bind ?_
    intro _ s s' hs
    refine (inStep_readMarker hs).bind ?_
    intro marker t t' ht
    refine (inStep_symbols _ ht).bind ?_
    intro head u u' hu
    refine (inStep_backquotes (· - 1) hu).bind ?_
    intro _ v v' hv
    refine (hmarked head hv).bind ?_
    intro form w w' hw
    refine (inStep_backquotes (· + 1) hw).bind ?_
    intro _ x x' hx
    exact inStep_pure form hx

/-- Layout behind a hash is no more known than any other character there. -/
theorem inStep_readDispatch (hmarked : ∀ head, ReadsAlike (marked head)) (h : Abreast p r r')
    (hahead : r.ahead = c :: cs) (hahead' : r'.ahead = c :: cs') (rest : Relaid .hash cs cs') :
    InStep SameStore (readDispatch marked) (readDispatch marked) r r' (Abreast .between) := by
  refine (inStep_advance h hahead hahead' rest).bind ?_
  intro _ s s' hs
  refine inStep_peek_bind ?_
  -- Behind the hash, both texts go on with a quote, both end, or both go on with something else.
  rcases hs.ahead.hash_cases with
    ⟨text, text', hquote, hquote', rest⟩ | ⟨hnil, hnil'⟩ | ⟨b, b', hb, hb', hne, hne'⟩
  · rw [hquote, hquote']
    refine (inStep_advance hs hquote hquote' rest).bind ?_
    intro _ t t' ht
    exact hmarked .function ht
  · rw [hnil, hnil']
    exact inStep_fail hs.toSameStore _
  · rw [hb, hb']
    split
    · next heq => exact absurd (Option.some.inj heq) hne
    · exact .error (.malformed (.dispatch _ _) _ _) hs.toSameStore
    · next heq => cases heq

/-- The tail of a list is read behind its dot. -/
theorem inStep_readTail (hform : ReadsAlike form) (before : List Value) (h : Abreast p r r')
    (hahead : r.ahead = c :: cs) (hahead' : r'.ahead = c :: cs') (rest : Relaid .between cs cs') :
    InStep SameStore (readTail form before) (readTail form before) r r' (Abreast .between) := by
  unfold readTail
  cases before.isEmpty with
  | true => exact inStep_fail_bind h.toSameStore _
  | false =>
    refine (inStep_advance h hahead hahead' rest).bind ?_
    intro _ s s' hs
    refine (hform hs).bind ?_
    intro tail t t' ht
    refine (inStep_closeDotted ht).bind ?_
    intro _ u u' hu
    exact inStep_heap hu (inStep_self _ _)

end

/-- Forms, marked forms and the elements of lists are read side by side, however many nested
    calls are allowed. -/
theorem inStep_read (fuel : Nat) : ReadsAlike (readForm fuel) ∧
    (∀ head, ReadsAlike (readMarked fuel head)) ∧ ∀ before, ReadsAlike (readElements fuel before) := by
  induction fuel with
  | zero =>
    exact ⟨fun h => .error (.same _) h.toSameStore, fun _ _ _ h => .error (.same _) h.toSameStore,
      fun _ _ _ h => .error (.same _) h.toSameStore⟩
  | succ fuel ih =>
    obtain ⟨hform, hmarked, helements⟩ := ih
    refine ⟨fun {r r'} h => ?_, fun head r r' h => ?_, fun before r r' h => ?_⟩
    · unfold readForm
      refine (inStep_skip h).bind ?_
      intro _ s s' hs
      obtain ⟨hs, hhead⟩ := hs
      refine inStep_peek_bind ?_
      rcases hs.ahead.cases_head fun c hc => (hhead c hc).1 with
        ⟨hnil, hnil'⟩ | ⟨c, cs, cs', hcons, hcons', rest⟩
      · rw [hnil, hnil']
        exact inStep_fail hs.toSameStore _
      · rw [hcons, hcons', List.head?_cons, List.head?_cons]
        -- The first character says what kind of form it is, and where the text behind it stands.
        split
        · next heq => cases heq
        · next heq =>
          cases heq
          exact (inStep_advance hs hcons hcons' rest).bind fun _ _ _ ht => helements [] ht
        · exact inStep_fail hs.toSameStore _
        · next heq =>
          cases heq
          exact (inStep_advance hs hcons hcons' rest).bind fun _ _ _ ht => hmarked .quote ht
        · next heq =>
          cases heq
          exact inStep_readTemplate hform hs hcons hcons' rest
        · next heq =>
          cases heq
          exact inStep_readUnquoted hmarked hs hcons hcons' rest
        · exact inStep_fail hs.toSameStore _
        · next heq =>
          cases heq
          exact inStep_readBars hs hcons hcons' rest
        · next heq =>
          cases heq
          exact inStep_readDispatch hmarked hs hcons hcons' rest
        · next hopen hclose hquote hbackquote hcomma hstring hbar hhash heq =>
          cases heq
          obtain ⟨hlayout, hcomment⟩ := hhead c (by rw [hcons]; rfl)
          have hends : endsWord c = false := by simp_all [endsWord]
          rw [TextPlace.past, TextPlace.start_word hends hbar hhash] at rest
          exact inStep_readWord hs hcons hcons' hends rest
    · unfold readMarked
      refine (hform h).bind ?_
      intro x s s' hs
      exact inStep_heap hs (inStep_self _ _)
    · unfold readElements
      refine (inStep_skip h).bind ?_
      intro _ s s' hs
      obtain ⟨hs, hhead⟩ := hs
      refine inStep_get_bind ?_
      rcases hs.ahead.cases_head fun c hc => (hhead c hc).1 with
        ⟨hnil, hnil'⟩ | ⟨c, cs, cs', hcons, hcons', rest⟩
      · rw [hnil, hnil']
        exact inStep_fail hs.toSameStore _
      · rw [hcons, hcons']
        by_cases hclose : c = ')'
        · subst hclose
          refine (inStep_advance hs hcons hcons' rest).bind ?_
          intro _ t t' ht
          exact inStep_heap ht (inStep_self _ _)
        · split
          · next heq => cases heq
          · next heq =>
            cases heq
            exact absurd rfl hclose
          · next heq =>
            cases heq
            -- A dot is looked at together with what comes after it.
            by_cases hdot : c = '.' ∧ isDotSeparator cs = true
            · obtain ⟨rfl, hseparator⟩ := hdot
              change Relaid .word cs cs' at rest
              have hseparator' := rest.isDotSeparator_eq.trans hseparator
              rw [if_pos ⟨rfl, hseparator⟩, if_pos ⟨rfl, hseparator'⟩]
              exact inStep_readTail hform before hs hcons hcons' (rest.between_of_separator hseparator)
            · have hdot' : ¬(c = '.' ∧ isDotSeparator cs' = true) := by
                rintro ⟨rfl, hseparator'⟩
                exact hdot ⟨rfl, Relaid.isDotSeparator_eq rest ▸ hseparator'⟩
              rw [if_neg hdot, if_neg hdot']
              refine (hform hs).bind ?_
              intro x t t' ht
              exact helements (x :: before) ht

/-- Either a form is next in both texts, or both are at their end. -/
theorem inStep_next (fuel : Nat) (h : Abreast .between r r') :
    InStep SameStore (next? fuel) (next? fuel) r r' (Abreast .between) := by
  refine (inStep_skip h).bind ?_
  intro _ s s' hs
  obtain ⟨hs, hhead⟩ := hs
  refine inStep_get_bind ?_
  rcases hs.ahead.cases_head fun c hc => (hhead c hc).1 with
    ⟨hnil, hnil'⟩ | ⟨c, cs, cs', hcons, hcons', -⟩
  · rw [hnil, hnil']
    exact inStep_pure none hs
  · rw [hcons, hcons']
    refine ((inStep_read fuel).1 hs).bind ?_
    intro v t t' ht
    exact inStep_pure (some v) ht

/-- One form after the other, by induction on the bound. -/
theorem inStep_readRest (fuel : Nat) (before : List Value) (h : Abreast .between r r') :
    InStep SameStore (readRest fuel before) (readRest fuel before) r r' (Abreast .between) := by
  induction fuel generalizing before r r' with
  | zero => exact .error (.same _) h.toSameStore
  | succ fuel ih =>
    unfold readRest
    refine (inStep_next _ h).bind ?_
    intro v? s s' hs
    cases v? with
    | none => exact inStep_pure _ hs
    | some v => exact ih _ hs

end

end Reading

/-! ## Texts -/

namespace Image

variable {text : String} {fuel : Nat}

/-- A text is read in the same way within any bounds that are large enough. -/
theorem readAll_within (image : Image) (h : Reading.bound text.toList ≤ fuel) :
    readAll text image =
      match Reading.readRest fuel [] (image.reader text.toList) with
      | .ok vs r => .ok vs (image.afterReading r)
      | .error e r => .error e (image.afterReading r) := by
  have hstart : text.toList = [] ++ (image.reader text.toList).ahead := rfl
  obtain ⟨vs, ending, r, hwalk, -, hread⟩ :=
    exists_formByForm text image (Reading.bound text.toList) [] rfl hstart rfl (Nat.le_refl _)
  obtain ⟨vs', ending', r', hwalk', -, hread'⟩ :=
    exists_formByForm text image fuel [] rfl hstart rfl h
  obtain ⟨rfl, rfl, hr⟩ := hwalk.unique hwalk'
  rw [readAll_eq, hread, hread']
  cases ending with
  | none => simp only [outcome, hr]
  | some => simp only [outcome, hr]

/-- Texts with different layout are read as the same values, with the same image in the end, or
    both cannot be read, for the same reason. -/
theorem readAll_relaid {text text' : String} (image : Image)
    (h : Relaid .between text.toList text'.toList) :
    EndsAlike Eq Eq (readAll text image) (readAll text' image) := by
  have hfuel := Nat.le_max_left (Reading.bound text.toList) (Reading.bound text'.toList)
  have hfuel' := Nat.le_max_right (Reading.bound text.toList) (Reading.bound text'.toList)
  rw [readAll_within image hfuel, readAll_within image hfuel']
  have habreast : Reading.Abreast .between (image.reader text.toList) (image.reader text'.toList) :=
    ⟨⟨rfl, rfl⟩, rfl, h⟩
  have hread := Reading.inStep_readRest
    (max (Reading.bound text.toList) (Reading.bound text'.toList)) [] habreast
  unfold InStep at hread
  -- What a reading leaves in the image is its heap and its symbols, in which the two agree.
  have hafter {r r' : Reading} (hr : Reading.SameStore r r') :
      image.afterReading r = image.afterReading r' := by
    rw [afterReading, afterReading, hr.heap, hr.symbols]
  generalize Reading.readRest _ [] (image.reader text.toList) = a,
    Reading.readRest _ [] (image.reader text'.toList) = b at hread
  cases hread with
  | ok hr => exact .ok (hafter hr.toSameStore)
  | error he hr => exact .error he (hafter hr)

/-- It does not matter what layout and comments stand in the place of a character of layout, if
    they begin with layout. -/
theorem readAll_filler (before after filler : List Char) (c : Char) (image : Image)
    (hplace : (before.foldl TextPlace.past .between).takesLayout = true) (hc : Text.isLayout c = true)
    (hfiller : Filler filler) :
    EndsAlike Eq Eq (readAll (String.ofList (before ++ c :: after)) image)
      (readAll (String.ofList (before ++ (filler ++ after))) image) := by
  refine readAll_relaid image ?_
  rw [String.toList_ofList, String.toList_ofList]
  exact .of_filler hplace hc hfiller

/-- The space before `|b c|` is layout, and a comment with a parenthesis and a bar may stand
    there as well. The bar in `a|` starts no name. -/
theorem readAll_filler_comment :
    ("(a| 'x".toList.foldl TextPlace.past .between).takesLayout = true ∧
      EndsAlike Eq Eq (readAll (String.ofList ("(a| 'x".toList ++ ' ' :: "|b c|)".toList)) default)
        (readAll (String.ofList ("(a| 'x".toList ++ ("\n;(|\n".toList ++ "|b c|)".toList))) default) := by
  have hplace : ("(a| 'x".toList.foldl TextPlace.past .between).takesLayout = true := by decide
  have hcomment : Gap (';' :: ("(|".toList ++ '\n' :: [])) := .comment (by decide) .nil
  have hfiller : Filler "\n;(|\n".toList := .intro rfl hcomment
  exact ⟨hplace, readAll_filler _ _ _ ' ' default hplace rfl hfiller⟩

end Image

end StackLisp
