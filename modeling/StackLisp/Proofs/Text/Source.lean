import StackLisp.Proofs.Text.Progress

/-!
# What a text says

A text spells a form (`Spells`): a word, a list, a form with a mark before it, or a form after
a backquote or a comma. What the text spells is a `Source`. It still tells `,x` from the list
`(unquote x)`, which the value that is read does not.

A source is `Proper` if every `,@` is an element of a list inside a backquote, no backquotes
are inside each other, and the markers of `,` and `,@` are not named. It is `Broken` if some
`,@` stands directly under a backquote.

Reading a text that spells a form goes by the first character after layout and comments
(`Reading.leads_readForm_list` and so on).
-/

namespace StackLisp

open Reading

/-! ## Sources -/

mutual

/-- A form as it stands in a text. -/
inductive Source where
  /-- A number, or a symbol with its name. -/
  | word (name : List Char)
  | list (elements : Elements)
  /-- A form after a quote, which stands for a list of a symbol and the form. -/
  | short (head : SymbolId) (x : Source)
  | backquote (x : Source)
  | comma (x : Source)
  | splice (x : Source)

/-- What is left of a list. -/
inductive Elements where
  | nil
  | dot (tail : Source)
  | cons (x : Source) (rest : Elements)

end

/-- The text after layout and comments. -/
def Text.strip (text : List Char) : List Char := (skipped false text 0).1

open Text (strip)

mutual

/-- The text starts with the form, and goes on with `rest`. -/
inductive Spells : Source → List Char → List Char → Prop
  | word {text cs : List Char} {c : Char} (start : strip text = c :: cs) (ends : endsWord c = false)
      (bar : c ≠ '|') (hash : c ≠ '#') :
      Spells (.word ((c :: cs).takeWhile (!endsWord ·))) text ((c :: cs).dropWhile (!endsWord ·))
  | bars {text name rest : List Char} (start : strip text = '|' :: (name ++ '|' :: rest))
      (plain : '|' ∉ name) : Spells (.word name) text rest
  | list {text cs rest : List Char} {l : Elements} (start : strip text = '(' :: cs)
      (elements : SpellsElements l cs rest) : Spells (.list l) text rest
  | quote {text cs rest : List Char} {x : Source} (start : strip text = '\x27' :: cs)
      (form : Spells x cs rest) : Spells (.short .quote x) text rest
  | function {text cs rest : List Char} {x : Source} (start : strip text = '#' :: '\x27' :: cs)
      (form : Spells x cs rest) : Spells (.short .function x) text rest
  | backquote {text cs rest : List Char} {x : Source} (start : strip text = '\x60' :: cs)
      (form : Spells x cs rest) : Spells (.backquote x) text rest
  | comma {text cs rest : List Char} {x : Source} (start : strip text = ',' :: cs)
      (plain : cs.head? ≠ some '@') (form : Spells x cs rest) : Spells (.comma x) text rest
  | splice {text cs rest : List Char} {x : Source} (start : strip text = ',' :: '@' :: cs)
      (form : Spells x cs rest) : Spells (.splice x) text rest

/-- The text starts with what is left of a list, up to the closing parenthesis. -/
inductive SpellsElements : Elements → List Char → List Char → Prop
  | nil {text rest : List Char} (close : strip text = ')' :: rest) : SpellsElements .nil text rest
  | dot {text cs cs' rest : List Char} {x : Source} (start : strip text = '.' :: cs)
      (separator : isDotSeparator cs = true) (form : Spells x cs cs')
      (close : strip cs' = ')' :: rest) : SpellsElements (.dot x) text rest
  | cons {text cs cs' rest : List Char} {c : Char} {x : Source} {l : Elements}
      (start : strip text = c :: cs) (element : c ≠ ')' ∧ ¬(c = '.' ∧ isDotSeparator cs = true))
      (form : Spells x text cs') (elements : SpellsElements l cs' rest) :
      SpellsElements (.cons x l) text rest

end

mutual

/-- Inside a backquote or not, every `,@` is an element of a list inside a backquote, no
    backquote is inside another one, and the markers are not named. -/
inductive Proper : Bool → Source → Prop
  | word {inside : Bool} {name : List Char}
      (other : String.ofList name ≠ Backquote.unquoteName ∧ String.ofList name ≠ Backquote.spliceName) :
      Proper inside (.word name)
  | list {inside : Bool} {l : Elements} (elements : ProperElements inside l) :
      Proper inside (.list l)
  | short {inside : Bool} {head : SymbolId} {x : Source} (form : ProperElement inside x) :
      Proper inside (.short head x)
  | backquote {x : Source} (template : Proper true x) : Proper false (.backquote x)
  | comma {x : Source} (form : Proper false x) : Proper true (.comma x)

/-- What may be an element of a list. -/
inductive ProperElement : Bool → Source → Prop
  | form {inside : Bool} {x : Source} (form : Proper inside x) : ProperElement inside x
  | splice {x : Source} (form : Proper false x) : ProperElement true (.splice x)

inductive ProperElements : Bool → Elements → Prop
  | nil {inside : Bool} : ProperElements inside .nil
  | dot {inside : Bool} {x : Source} (tail : Proper inside x) : ProperElements inside (.dot x)
  | cons {inside : Bool} {x : Source} {l : Elements} (head : ProperElement inside x)
      (rest : ProperElements inside l) : ProperElements inside (.cons x l)

end

mutual

/-- Somewhere a `,@` stands directly under a backquote. -/
inductive Broken : Source → Prop
  | here {x : Source} : Broken (.backquote (.splice x))
  | list {l : Elements} (elements : BrokenElements l) : Broken (.list l)
  | short {head : SymbolId} {x : Source} (form : Broken x) : Broken (.short head x)
  | backquote {x : Source} (form : Broken x) : Broken (.backquote x)
  | comma {x : Source} (form : Broken x) : Broken (.comma x)
  | splice {x : Source} (form : Broken x) : Broken (.splice x)

inductive BrokenElements : Elements → Prop
  | dot {x : Source} (tail : Broken x) : BrokenElements (.dot x)
  | head {x : Source} {l : Elements} (head : Broken x) : BrokenElements (.cons x l)
  | rest {x : Source} {l : Elements} (rest : BrokenElements l) : BrokenElements (.cons x l)

end

namespace Reading

/-- The reader past layout and comments. -/
def stripped (r : Reading) : Reading :=
  { r with ahead := strip r.ahead, offset := (skipped false r.ahead r.offset).2 }

section

variable {r : Reading} {fuel : Nat} {c : Char} {cs : List Char}

/-- Where layout has been skipped, there is none to be skipped. -/
theorem skip_stripped (r : Reading) : skip r = .ok () r.stripped ∧ skip r.stripped = .ok () r.stripped := by
  obtain ⟨cs, rest, hahead, heq, hrest⟩ := skipped_eq false r.ahead
  have hstrip : strip r.ahead = rest := by rw [strip, heq]
  have hskip : skip r = .ok () r.stripped := by simp only [skip, heq, stripped, hstrip]
  refine ⟨hskip, ?_⟩
  cases rest with
  | nil => simp [skip, stripped, hstrip, skipped]
  | cons c rest =>
    obtain ⟨hlayout, hcomment⟩ := hrest c rfl
    exact skip_eq hstrip hlayout hcomment

/-- Each reader of a form skips layout first. -/
theorem readForm_stripped (fuel : Nat) (r : Reading) :
    readForm (fuel + 1) r = readForm (fuel + 1) r.stripped := by
  rw [readForm]
  simp only [bind, EStateM.bind, r.skip_stripped]

theorem readElements_stripped (fuel : Nat) (before : List Value) (r : Reading) :
    readElements (fuel + 1) before r = readElements (fuel + 1) before r.stripped := by
  rw [readElements]
  simp only [bind, EStateM.bind, r.skip_stripped]

variable {ok : Value → Reading → Prop} {err : Failure → Reading → Prop}

/-- So what is in front of a form does not matter. -/
theorem leads_readForm_stripped :
    Leads (readForm (fuel + 1)) r ok err ↔ Leads (readForm (fuel + 1)) r.stripped ok err := by
  rw [Leads, readForm_stripped]
  rfl

/-- A parenthesis begins a list. -/
theorem leads_readForm_list (hahead : r.stripped.ahead = '(' :: cs) :
    Leads (readForm (fuel + 1)) r ok err ↔
      Leads (readElements fuel []) (r.stripped.after ['('] cs r.heap) ok err := by
  rw [leads_readForm_stripped, readForm, leads_bind, leads_of_ok r.skip_stripped.2, leads_bind,
    leads_of_ok peek?_eq, hahead]
  change Leads (advance >>= fun _ => readElements fuel []) _ _ _ ↔ _
  rw [leads_bind, leads_of_ok (advance_eq hahead)]
  rfl

/-- A quote is read as a mark for the form behind it. -/
theorem leads_readForm_quote (hahead : r.stripped.ahead = '\x27' :: cs) :
    Leads (readForm (fuel + 1)) r ok err ↔
      Leads (readMarked fuel .quote) (r.stripped.after ['\x27'] cs r.heap) ok err := by
  rw [leads_readForm_stripped, readForm, leads_bind, leads_of_ok r.skip_stripped.2, leads_bind,
    leads_of_ok peek?_eq, hahead]
  change Leads (advance >>= fun _ => readMarked fuel .quote) _ _ _ ↔ _
  rw [leads_bind, leads_of_ok (advance_eq hahead)]
  rfl

/-- So is a sharp sign with a quote. -/
theorem leads_readForm_function (hahead : r.stripped.ahead = '#' :: '\x27' :: cs) :
    Leads (readForm (fuel + 1)) r ok err ↔
      Leads (readMarked fuel .function) (r.stripped.after ['#', '\x27'] cs r.heap) ok err := by
  rw [leads_readForm_stripped, readForm, leads_bind, leads_of_ok r.skip_stripped.2, leads_bind,
    leads_of_ok peek?_eq, hahead]
  change Leads (readDispatch (readMarked fuel)) _ _ _ ↔ _
  rw [readDispatch, leads_bind, leads_of_ok (advance_eq hahead), leads_bind, leads_of_ok peek?_eq]
  change Leads (advance >>= fun _ => readMarked fuel .function) _ _ _ ↔ _
  rw [leads_bind, leads_of_ok (advance_eq rfl), after_after]
  rfl

/-- Behind a backquote a template is read and expanded. -/
theorem leads_readForm_backquote (hahead : r.stripped.ahead = '\x60' :: cs) :
    Leads (readForm (fuel + 1)) r ok err ↔
      Leads (readForm fuel)
        { r.stripped.after ['\x60'] cs r.heap with backquotes := r.backquotes + 1 }
        (fun template r' => Leads (expandBackquote template)
          { r' with backquotes := r'.backquotes - 1 } ok err) err := by
  rw [leads_readForm_stripped, readForm, leads_bind, leads_of_ok r.skip_stripped.2, leads_bind,
    leads_of_ok peek?_eq, hahead]
  change Leads (readTemplate (readForm fuel)) _ _ _ ↔ _
  rw [readTemplate, leads_bind, leads_of_ok (advance_eq hahead), leads_bind, leads_modify, leads_bind]
  simp only [leads_bind, leads_modify]
  rfl

/-- Behind its tail a list is closed. -/
theorem closeDotted_at (hahead : r.stripped.ahead = ')' :: cs) :
    closeDotted r = .ok () (r.stripped.after [')'] cs r.heap) := by
  rw [eq_iff_leads, closeDotted, leads_bind, leads_of_ok r.skip_stripped.1, leads_bind,
    leads_of_ok peek?_eq, hahead]
  exact eq_iff_leads.1 (advance_eq hahead)

/-- A closing parenthesis ends a list. -/
theorem leads_readElements_nil {before : List Value} (hahead : r.stripped.ahead = ')' :: cs) :
    Leads (readElements (fuel + 1) before) r ok err ↔
      Leads (liftM (Heap.list before.reverse) : ReadM Value) (r.stripped.after [')'] cs r.heap) ok err := by
  rw [Leads, readElements_stripped]
  change Leads (readElements (fuel + 1) before) r.stripped ok err ↔ _
  rw [readElements, leads_bind, leads_of_ok r.skip_stripped.2, leads_bind, leads_get, hahead]
  simp only [leads_bind]
  rw [leads_of_ok (advance_eq hahead)]
  rfl

/-- A dot that is followed by a separator stands before the tail. -/
theorem leads_readElements_dotted {before : List Value} (hahead : r.stripped.ahead = '.' :: cs)
    (separator : isDotSeparator cs = true)
    (h : Leads (readForm fuel) (r.stripped.after ['.'] cs r.heap)
      (fun tail r' => Leads (do closeDotted; Heap.listWithTail before.reverse tail) r' ok fun _ _ => True)
      fun _ _ => True) :
    Leads (readElements (fuel + 1) before) r ok fun _ _ => True := by
  rw [Leads, readElements_stripped]
  change Leads (readElements (fuel + 1) before) r.stripped ok _
  rw [readElements, leads_bind, leads_of_ok r.skip_stripped.2, leads_bind, leads_get, hahead]
  change Leads (if '.' = '.' ∧ isDotSeparator cs = true then _ else _) _ _ _
  rw [if_pos ⟨rfl, separator⟩, readTail]
  split
  · trivial
  · rw [leads_bind, leads_of_ok (advance_eq hahead), leads_bind]
    exact h

/-- Anything else begins an element. -/
theorem leads_readElements_cons {before : List Value} {c : Char} (hahead : r.stripped.ahead = c :: cs)
    (element : c ≠ ')' ∧ ¬(c = '.' ∧ isDotSeparator cs = true))
    (h : Leads (readForm fuel) r
      (fun x r' => Leads (readElements fuel (x :: before)) r' ok fun _ _ => True) fun _ _ => True) :
    Leads (readElements (fuel + 1) before) r ok fun _ _ => True := by
  rw [Leads, readElements_stripped]
  change Leads (readElements (fuel + 1) before) r.stripped ok _
  rw [readElements, leads_bind, leads_of_ok r.skip_stripped.2, leads_bind, leads_get, hahead]
  -- Blanks set aside, the text goes on with the character `c`, which neither closes the list nor is
  -- its dot.
  split
  · next heq => cases heq
  · next heq =>
    cases heq
    exact absurd rfl element.1
  · next heq =>
    cases heq
    rw [if_neg element.2, leads_bind]
    cases fuel with
    | zero => trivial
    | succ fuel => exact leads_readForm_stripped.1 h

/-- The marker after a comma is passed together with its sign. -/
theorem readMarker_eq {marker : String} {passed : List Char} (hahead : r.ahead = passed ++ cs)
    (hmarker : passed = [] ∧ cs.head? ≠ some '@' ∧ marker = Backquote.unquoteName ∨
      passed = ['@'] ∧ marker = Backquote.spliceName) :
    readMarker r = .ok marker (r.after passed cs r.heap) := by
  rw [eq_iff_leads, readMarker, leads_bind, leads_of_ok peek?_eq]
  rcases hmarker with ⟨rfl, hplain, rfl⟩ | ⟨rfl, rfl⟩
  · obtain rfl : r.ahead = cs := hahead
    rw [if_neg hplain]
    rfl
  · rw [hahead, if_pos (by rfl), leads_bind, leads_of_ok (advance_eq hahead)]
    rfl

/-- After a comma, the marker is interned and the form is read outside the backquote. -/
theorem leads_readForm_comma {marker : String} {passed : List Char}
    (hahead : r.stripped.ahead = ',' :: (passed ++ cs))
    (hmarker : passed = [] ∧ cs.head? ≠ some '@' ∧ marker = Backquote.unquoteName ∨
      passed = ['@'] ∧ marker = Backquote.spliceName) :
    Leads (readForm (fuel + 1)) r ok (fun _ _ => True) ↔
      r.backquotes ≠ 0 →
      Leads (SymbolTable.intern marker) r.symbols
        (fun head symbols => Leads (readMarked fuel head)
          { r.stripped.after (',' :: passed) cs r.heap with
            symbols := symbols, backquotes := r.backquotes - 1 }
          (fun v r' => ok v { r' with backquotes := r'.backquotes + 1 }) fun _ _ => True)
        fun _ _ => True := by
  rw [leads_readForm_stripped, readForm, leads_bind, leads_of_ok r.skip_stripped.2, leads_bind,
    leads_of_ok peek?_eq, hahead]
  change Leads (readUnquoted (readMarked fuel)) r.stripped _ _ ↔ _
  rw [readUnquoted, leads_bind, leads_get]
  by_cases hzero : r.backquotes = 0
  · rw [if_pos (show r.stripped.backquotes = 0 from hzero)]
    simp only [ne_eq, hzero, not_true_eq_false, false_imp_iff, iff_true]
    exact trivial
  · rw [if_neg (show ¬r.stripped.backquotes = 0 from hzero)]
    simp only [ne_eq, hzero, not_false_eq_true, true_imp_iff]
    -- Past the marker, a form is read outside the innermost backquote.
    rw [leads_bind, leads_of_ok (advance_eq hahead), leads_bind, leads_of_ok (readMarker_eq rfl hmarker),
      after_after, leads_bind, leads_symbols]
    simp only [leads_bind, leads_modify, leads_pure]
    rfl

end

end Reading

end StackLisp
