import StackLisp.Proofs.Text.Progress

/-!
# Reading form by form

A text can be read all at once, or form by form, each one from the offset that the one
before it ended at. Both ways come to the same (`readAll_formByForm`): the same values, the
same image, and the same error if there is one. Only the offset in the error's message
differs, by the offset that the last form was read from.
-/

namespace StackLisp

namespace Image

variable {text : String} {offset offset' fuel : Nat} {cs : List Char} {image image' : Image}
  {v : Value} {vs : List Value} {ending : Option (Nat × Failure)}

/-- Reads the forms of a text one by one from an offset on: the values, where the last form was
    read from and why it was not, if that was an error, and the image in the end. -/
inductive FormByForm (text : String) :
    Nat → Image → List Value → Option (Nat × Failure) → Image → Prop
  | finish {offset : Nat} {image image' : Image} (h : readAt text offset image = .ok none image') :
    FormByForm text offset image [] none image'
  | fail {offset : Nat} {image image' : Image} {e : Failure}
    (h : readAt text offset image = .error e image') :
    FormByForm text offset image [] (some (offset, e)) image'
  | form {offset offset' : Nat} {image image₁ image' : Image} {v : Value} {vs : List Value}
    {ending : Option (Nat × Failure)}
    (h : readAt text offset image = .ok (some (v, offset')) image₁)
    (rest : FormByForm text offset' image₁ vs ending image') :
    FormByForm text offset image (v :: vs) ending image'

/-- What a reader of all the forms at once gives for this. -/
def outcome {σ : Type} (vs : List Value) :
    Option (Nat × Failure) → σ → EStateM.Result Failure σ (List Value)
  | none, s => .ok vs s
  | some (start, e), s => .error (e.shift start) s

/-- There is one way only to go through a text. -/
theorem FormByForm.unique {vs' : List Value} {ending' : Option (Nat × Failure)} {image₁ image₂ : Image}
    (h : FormByForm text offset image vs ending image₁)
    (h' : FormByForm text offset image vs' ending' image₂) :
    vs = vs' ∧ ending = ending' ∧ image₁ = image₂ := by
  -- From the same place, `readAt` gives the same. So both walks end there, or both go on from the
  -- next place.
  induction h generalizing vs' with
  | finish h =>
    cases h' with
    | finish h₂ =>
      cases h.symm.trans h₂
      exact ⟨rfl, rfl, rfl⟩
    | fail h₂ => cases h.symm.trans h₂
    | form h₂ => cases h.symm.trans h₂
  | fail h =>
    cases h' with
    | finish h₂ => cases h.symm.trans h₂
    | fail h₂ =>
      cases h.symm.trans h₂
      exact ⟨rfl, rfl, rfl⟩
    | form h₂ => cases h.symm.trans h₂
  | form h _ ih =>
    cases h' with
    | finish h₂ => cases h.symm.trans h₂
    | fail h₂ => cases h.symm.trans h₂
    | form h₂ rest₂ =>
      cases h.symm.trans h₂
      obtain ⟨rfl, rfl, rfl⟩ := ih rest₂
      exact ⟨rfl, rfl, rfl⟩

/-! ## Offsets in a text -/

/-- Dropping the bytes of what has been passed leaves the rest. -/
theorem dropBytes_append (passed : List Char) :
    dropBytes (Reading.byteCount passed) (passed ++ cs) = some cs := by
  induction passed with
  | nil => cases cs <;> rfl
  | cons c passed ih =>
    obtain ⟨size, hsize⟩ : ∃ n, Reading.byteCount (c :: passed) = n + 1 :=
      ⟨_, (Nat.succ_pred_eq_of_pos (Nat.add_pos_left c.utf8Size_pos _)).symm⟩
    have hrest : size + 1 - c.utf8Size = Reading.byteCount passed := by
      rw [← hsize, Reading.byteCount_cons, Nat.add_sub_cancel_left]
    rw [hsize, List.cons_append, dropBytes, if_pos (hsize ▸ Nat.le_add_right _ _), hrest, ih]

/-- Only whole characters are dropped. -/
theorem of_dropBytes {text rest : List Char} (h : dropBytes offset text = some rest) :
    ∃ passed, text = passed ++ rest ∧ Reading.byteCount passed = offset := by
  induction text generalizing offset with
  | nil =>
    cases offset with
    | zero => exact ⟨[], Option.some.inj h, rfl⟩
    | succ => cases h
  | cons c text ih =>
    cases offset with
    | zero => exact ⟨[], Option.some.inj h, rfl⟩
    | succ offset =>
      rw [dropBytes] at h
      split at h
      · next hle =>
        obtain ⟨passed, rfl, hpassed⟩ := ih h
        refine ⟨c :: passed, rfl, ?_⟩
        rw [Reading.byteCount_cons, hpassed, Nat.add_sub_cancel' hle]
      · cases h

/-- Counting bytes character by character gives the length in UTF-8. -/
theorem byteCount_eq (cs : List Char) : Reading.byteCount cs = (String.ofList cs).utf8ByteSize := by
  induction cs with
  | nil => rfl
  | cons c cs ih =>
    rw [Reading.byteCount_cons, ih, String.ofList_cons, String.utf8ByteSize_append,
      String.utf8ByteSize_singleton]

/-- What lies before a part of a text ends at the start of a character or at the end. -/
theorem isValid_byteCount {passed rest : List Char} (htext : text.toList = passed ++ rest) :
    Reading.byteCount passed ≤ text.utf8ByteSize ∧
      String.Pos.Raw.IsValid text ⟨Reading.byteCount passed⟩ := by
  have hsplit : text = String.ofList passed ++ String.ofList rest := by
    rw [← String.ofList_append, ← htext, String.ofList_toList]
  rw [byteCount_eq]
  refine ⟨?_, String.Pos.Raw.isValid_iff_exists_append.2 ⟨_, _, hsplit, rfl⟩⟩
  rw [hsplit, String.utf8ByteSize_append]
  exact Nat.le_add_right _ _

/-! ## Readers of an image -/

/-- What has been there before the reading needs no building up. -/
theorem builtUp_self (h : Heap) : h.BuiltUp h.pairCount :=
  ⟨Nat.le_refl _, fun _ hstart hlt => absurd (Nat.lt_of_lt_of_le hlt hstart) (Nat.lt_irrefl _)⟩

/-- A reader of a text that reads into the image. -/
def reader (image : Image) (cs : List Char) : Reading :=
  { ahead := cs, heap := image.heap, symbols := image.symbols }

/-- The image with the heap and the symbols of a reader. -/
def afterReading (image : Image) (r : Reading) : Image :=
  { image with heap := r.heap, symbols := r.symbols }

/-- A reader that goes on between two forms is a new one that stands further on. -/
theorem shift_reader {r : Reading} (h : r.backquotes = 0) :
    ((image.afterReading r).reader r.ahead).shift r.offset = r := by
  obtain ⟨ahead, offset, _, heap, symbols⟩ := r
  obtain rfl := h
  simp only [Reading.shift, reader, afterReading, Nat.zero_add]

/-- Reading at an offset is reading what is left of the text there, with the offset added. -/
theorem readAt_eq (image : Image) (h : dropBytes offset text.toList = some cs) :
    readAt text offset image =
    match Reading.next? (Reading.bound cs) (image.reader cs) with
    | .ok v? r => .ok (v?.map fun v => (v, offset + r.offset)) (image.afterReading r)
    | .error e r => .error e (image.afterReading r) := by
  rw [eq_iff_leads, readAt, h]
  simp only [readNext, readWithin, leads_bind, leads_reading]
  change Leads _ (image.reader cs) _ _
  unfold Leads
  split
  · next v? r heq =>
    rw [heq]
    cases v? <;> rfl
  · next e r heq =>
    rw [heq]
    rfl

/-- Reading a text is reading all that is left of it at its start. -/
theorem readAll_eq (text : String) (image : Image) : readAll text image =
    match Reading.readRest (Reading.bound text.toList) [] (image.reader text.toList) with
    | .ok vs r => .ok vs (image.afterReading r)
    | .error e r => .error e (image.afterReading r) := by
  rw [eq_iff_leads, readAll, leads_bind, leads_reading]
  change Leads _ (image.reader text.toList) _ _
  unfold Leads
  split
  · next vs r heq =>
    rw [heq]
    rfl
  · next e r heq =>
    rw [heq]
    rfl

/-- The next form of a text is read in the same way by a new reader and by one that stands
    further on. -/
theorem alongside_next_reader {d : Nat} (image : Image) (h : 2 * cs.length + 1 ≤ fuel) :
    Alongside (Reading.Follows image.heap.pairCount) d (Reading.shift d)
      (Reading.next? (Reading.bound cs)) (Reading.next? fuel) (image.reader cs)
      fun v? r' => ∀ v, v? = some v →
        Reading.Consumes image.heap.pairCount (image.reader cs) v r' :=
  Reading.alongside_next (builtUp_self _) (Nat.le_refl _) h

/-- Every form that is read ends further on in the text, at the start of a character or at the
    end. -/
theorem readAt_progress (h : readAt text offset image = .ok (some (v, offset')) image') :
    offset < offset' ∧ offset' ≤ text.utf8ByteSize ∧ String.Pos.Raw.IsValid text ⟨offset'⟩ := by
  cases hdrop : dropBytes offset text.toList with
  | none =>
    rw [readAt, hdrop] at h
    cases h
  | some cs =>
    -- The text before the offset is passed whole, and the reader takes some more characters.
    obtain ⟨passed, htext, hpassed⟩ := of_dropBytes hdrop
    rw [readAt_eq image hdrop] at h
    have hnext := (alongside_next_reader (d := 0) image (Nat.le_refl (Reading.bound cs))).leads
    unfold Leads at hnext
    split at h
    · next v? r heq =>
      rw [heq] at hnext
      obtain ⟨⟨-, cs₁, hahead, hoffset⟩, hv⟩ := hnext
      cases v? with
      | none => cases h
      | some v =>
        cases h
        have hlength := (hv v rfl).length_lt
        change cs = cs₁ ++ r.ahead at hahead
        rw [show r.offset = Reading.byteCount cs₁ from hoffset.trans (Nat.zero_add _), ← hpassed,
          ← Reading.byteCount_append]
        have htext' : text.toList = passed ++ cs₁ ++ r.ahead := by
          rw [htext, hahead, List.append_assoc]
        refine ⟨?_, isValid_byteCount htext'⟩
        cases cs₁ with
        | nil => exact absurd hlength (hahead ▸ Nat.lt_irrefl _)
        | cons c cs₁ =>
          have hsize := c.utf8Size_pos
          rw [Reading.byteCount_append, Reading.byteCount_cons]
          omega
    · cases h

/-- A reader of the rest of a text, and what it gives form by form. -/
theorem exists_formByForm (text : String) (image : Image) (fuel : Nat) :
    ∀ {r : Reading} (before : List Value) {passed : List Char}, r.backquotes = 0 → text.toList = passed ++ r.ahead → r.offset = Reading.byteCount passed →
    2 * r.ahead.length + 1 ≤ fuel → ∃ vs ending r',
      FormByForm text r.offset (image.afterReading r) vs ending (image.afterReading r') ∧
      (∀ start e, ending = some (start, e) → e ≠ .endless) ∧
      Reading.readRest fuel before r = outcome (before.reverse ++ vs) ending r' := by
  -- The induction is on the fuel, of which every form that is read takes less than its characters
  -- allow.
  induction fuel with
  | zero =>
    intro r before passed _ _ _ hfuel
    exact absurd hfuel (by omega)
  | succ fuel ih =>
    intro r before passed hbackquotes htext hoffset hfuel
    have hdrop : dropBytes r.offset text.toList = some r.ahead := by
      rw [hoffset, htext, dropBytes_append]
    have hat := readAt_eq (image.afterReading r) hdrop
    -- Reading from here in the middle of the text is reading the rest from its start, with all
    -- offsets shifted.
    obtain ⟨hleads, hshifted⟩ :=
      alongside_next_reader (d := r.offset) (image.afterReading r) hfuel
    rw [shift_reader hbackquotes] at hshifted
    rw [Reading.readRest]
    unfold Leads at hleads
    split at hat
    · next v? r₁ heq =>
      rw [heq] at hleads hshifted
      obtain ⟨⟨-, cs₁, hahead, hoffset₁⟩, hv⟩ := hleads
      cases v? with
      | none =>
        refine ⟨[], none, r₁.shift r.offset, .finish hat, nofun, ?_⟩
        simp only [bind, EStateM.bind, hshifted, shiftResult, List.append_nil]
        rfl
      | some v =>
        obtain ⟨-, hlength, hbackquotes₁⟩ := hv v rfl
        change r.ahead = cs₁ ++ r₁.ahead at hahead
        change r₁.ahead.length < r.ahead.length at hlength
        -- After a form the reader stands further on, at the beginning of a character again.
        have hoffset₂ : (r₁.shift r.offset).offset = r.offset + r₁.offset := Nat.add_comm ..
        have htext₁ : text.toList = passed ++ cs₁ ++ (r₁.shift r.offset).ahead := by
          rw [htext, hahead, List.append_assoc]
          rfl
        have hpassed : (r₁.shift r.offset).offset = Reading.byteCount (passed ++ cs₁) := by
          rw [hoffset₂, hoffset₁, Reading.byteCount_append, hoffset]
          simp [reader]
        have hfuel₁ : 2 * (r₁.shift r.offset).ahead.length + 1 ≤ fuel :=
          show 2 * r₁.ahead.length + 1 ≤ fuel by omega
        obtain ⟨vs, ending, r₂, hrest, hending, hread⟩ :=
          ih (r := r₁.shift r.offset) (v :: before) hbackquotes₁ htext₁ hpassed hfuel₁
        refine ⟨v :: vs, ending, r₂, .form hat (hoffset₂ ▸ hrest), hending, ?_⟩
        simp only [bind, EStateM.bind, hshifted, shiftResult, hread, List.reverse_cons,
          List.append_assoc, List.singleton_append]
    · next e r₁ heq =>
      rw [heq] at hleads hshifted
      refine ⟨[], some (r.offset, e), r₁.shift r.offset, .fail hat, ?_, ?_⟩
      · rintro _ _ ⟨⟩
        exact hleads
      · simp only [bind, EStateM.bind, hshifted]
        rfl

/-- Reading form by form comes to the same as reading all at once. For every text and every
    image it comes to an end, and whichever way it goes: the forms, the image and whether
    there is an error are those of reading all at once, and so is the error, but for its
    offset, which is less by the offset that the last form was read from. On the way each
    offset is larger than the one before, no larger than the text, and the start of a
    character or the end. -/
theorem readAll_formByForm (text : String) (image : Image) :
    (∃ vs ending image', FormByForm text 0 image vs ending image') ∧
    (∀ vs ending image', FormByForm text 0 image vs ending image' →
      readAll text image = outcome vs ending image' ∧
      ∀ start e, ending = some (start, e) → e ≠ .endless) ∧
    ∀ offset image v offset' image', readAt text offset image = .ok (some (v, offset')) image' →
      offset < offset' ∧ offset' ≤ text.utf8ByteSize ∧ String.Pos.Raw.IsValid text ⟨offset'⟩ := by
  have hstart : text.toList = [] ++ (image.reader text.toList).ahead := rfl
  obtain ⟨vs, ending, r, hwalk, hending, hread⟩ :=
    exists_formByForm text image (Reading.bound text.toList) [] rfl hstart rfl (Nat.le_refl _)
  refine ⟨⟨_, _, _, hwalk⟩, fun vs' ending' image' hwalk' => ?_, fun _ _ _ _ _ h => readAt_progress h⟩
  obtain ⟨rfl, rfl, rfl⟩ := hwalk.unique hwalk'
  refine ⟨?_, hending⟩
  rw [readAll_eq, hread]
  cases ending <;> rfl

end Image

end StackLisp
