import StackLisp.Proofs.Audit
import StackLisp.Proofs.Text.Template

/-!
# Rest parameters

A rest parameter has no slot of its own: it is the list of all slots of a frame from its
position on, and assigning it splices other values in there, however many they are.

* Splicing never disturbs the slots below, and what has been spliced in is what is read
  then, as long as there is room for a new list (`Heap.RestAssigned`).
* The slots below a rest parameter are those of the parameters that are required. They are
  there in every frame that a call enters, whatever is assigned from then on
  (`Session.rest_parameters`).
-/

namespace StackLisp

open Interpreter Layout Machine Compiler

/-! ## Assigning and reading -/

namespace Heap

section

variable {h : Heap} {f : FrameId} {i j : Nat} {l : Value} {items : List Value}

/-- A list is made of as many new pairs as it has elements, if there is room for them. -/
theorem leads_listWithTail_line (vs : List Value) (w : Value) (h : Heap) :
    Leads (listWithTail vs w) h
      (fun v h' => h.Gains vs.length h' ∧ h'.frames = h.frames ∧ h'.Line w vs v)
      fun e h' => h.Overflows vs.length e ∧ h'.frames = h.frames := by
  induction vs with
  | nil => exact ⟨.refl h, rfl, .nil⟩
  | cons a vs ih =>
    change Leads (List.foldrM cons w (a :: vs)) h _ _
    -- The list is made from its end, so the hypothesis is about the pairs made before this one.
    rw [List.foldrM_cons, leads_bind]
    refine ih.mono ?_ fun e h' he => ⟨he.1.mono (Nat.le_succ _), he.2⟩
    rintro x h' ⟨g, hframes, hline⟩
    rw [leads_cons_iff]
    split
    · next hroom =>
      have hmade := makes_cons hline a
      unfold Makes at hmade
      rw [leads_cons_iff, if_pos hroom] at hmade
      exact ⟨g.trans (.push hroom a x), hframes, hmade.2⟩
    · next hroom => exact ⟨(overflows_one hroom).after g, hframes⟩

/-- Only frames that have been made are filled. -/
theorem frame_valid (hfill : (h.frameAt f).filled = true) : f.index < h.frames.size := by
  by_contra hge
  rw [frameAt_of_size_le (Nat.le_of_not_lt hge)] at hfill
  cases hfill

theorem frameAt_modifySlots (hfill : (h.frameAt f).filled = true) (change : Array Value → Array Value) :
    (h.modifySlots f change).frameAt f = ⟨change (h.frameAt f).slots, true⟩ := by
  rw [← hfill]
  exact frameAt_updateFrame (frame_valid hfill)

/-- The heap after other values have been spliced into a frame. -/
def splice (h : Heap) (f : FrameId) (j : Nat) (items : List Value) : Heap :=
  h.modifySlots f fun slots => slots.take j ++ items.toArray

theorem frameAt_splice (hfill : (h.frameAt f).filled = true) :
    (h.splice f j items).frameAt f = ⟨(h.frameAt f).slots.take j ++ items.toArray, true⟩ :=
  frameAt_modifySlots hfill _

theorem setFrameRest_eq (hitems : h.elements? l = .ok (some items)) (hfill : (h.frameAt f).filled = true) :
    setFrameRest f j l h = .ok () (h.splice f j items) := by
  simp only [setFrameRest, hitems, filledSlots_of_filled hfill]
  rfl

/-- Splicing never disturbs the slots below. -/
theorem frameSlot_splice_of_lt (hfill : (h.frameAt f).filled = true) (hj : j ≤ h.frameSize f) (hi : i < j) :
    (h.splice f j items).frameSlot f i = h.frameSlot f i := by
  have hfill' : ((h.splice f j items).frameAt f).filled = true := by rw [frameAt_splice hfill]
  have hsize : i < (h.frameAt f).slots.size := hi.trans_le hj
  have hslot : ((h.splice f j items).frameAt f).slots[i]? = (h.frameAt f).slots[i]? := by
    rw [frameAt_splice hfill]
    simp [Array.getElem?_append, Nat.lt_min.2 ⟨hi, hsize⟩]
  simp only [frameSlot, filledSlots_of_filled hfill, filledSlots_of_filled hfill', hslot, bind, Except.bind]

/-- What has been spliced in are the slots from there on. -/
theorem drop_splice (hfill : (h.frameAt f).filled = true) (hj : j ≤ h.frameSize f) :
    ((h.splice f j items).frameAt f).slots.toList.drop j = items := by
  have hlength : ((h.frameAt f).slots.toList.take j).length = j := by
    rw [List.length_take, Array.length_toList]
    exact Nat.min_eq_left hj
  rw [frameAt_splice hfill]
  simp [hlength]

/-- Reading a rest parameter that holds the items gives a list of them, if there is room for
    its pairs, and fails for want of room otherwise. No frame changes. -/
def ReadsRest (h : Heap) (f : FrameId) (j : Nat) (items : List Value) : Prop :=
  (h.RoomFor items.length → ∃ v h', frameRest f j h = .ok v h' ∧ h'.frames = h.frames ∧
    h'.elements? v = .ok (some items)) ∧
  (¬h.RoomFor items.length → ∃ h', frameRest f j h = .error (.error .heapOverflow) h' ∧ h'.frames = h.frames)

theorem readsRest (hfill : (h.frameAt f).filled = true)
    (hitems : (h.frameAt f).slots.toList.drop j = items) : h.ReadsRest f j items := by
  have heq : frameRest f j h = listWithTail items .nil h := by
    simp only [frameRest, filledSlots_of_filled hfill, hitems, list]
  unfold ReadsRest
  rw [heq]
  have hlist := leads_listWithTail_line items .nil h
  unfold Leads at hlist
  split at hlist
  · next v h' hok =>
    obtain ⟨g, hframes, hline⟩ := hlist
    exact ⟨fun _ => ⟨v, h', hok, hframes, hline.elements?⟩, fun full => absurd g.room full⟩
  · next e h' herror =>
    obtain ⟨⟨rfl, full⟩, hframes⟩ := hlist
    exact ⟨fun room => absurd room full, fun _ => ⟨h', herror, hframes⟩⟩

/-- What comes of assigning `l` to the rest parameter of a frame at slot `j`. -/
structure RestAssigned (h : Heap) (f : FrameId) (j : Nat) (l : Value) : Prop where
  /-- A proper list is stored in a filled frame, above the slots below, and read back. -/
  stored : ∀ items, h.elements? l = .ok (some items) → (h.frameAt f).filled = true → j ≤ h.frameSize f →
    ∃ h', setFrameRest f j l h = .ok () h' ∧ (∀ i < j, h'.frameSlot f i = h.frameSlot f i) ∧
      h'.ReadsRest f j items
  /-- What is no proper list is refused. -/
  improper : h.elements? l = .ok none → setFrameRest f j l h = .error (.error (.type .restNotList)) h
  /-- A frame that is not filled refuses everything. -/
  unfilled : (h.frameAt f).filled = false → ∃ e, setFrameRest f j l h = .error e h
  /-- An assignment that fails changes nothing. -/
  unchanged : ∀ e h', setFrameRest f j l h = .error e h' → h' = h

theorem restAssigned (h : Heap) (f : FrameId) (j : Nat) (l : Value) : h.RestAssigned f j l where
  stored items hitems hfill hj := by
    have hfill' : ((h.splice f j items).frameAt f).filled = true := by rw [frameAt_splice hfill]
    exact ⟨_, setFrameRest_eq hitems hfill, fun i hi => frameSlot_splice_of_lt hfill hj hi,
      readsRest hfill' (drop_splice hfill hj)⟩
  improper hitems := by simp only [setFrameRest, hitems]
  unfilled hfill := by
    unfold setFrameRest
    rw [filledSlots_of_empty hfill]
    split
    · exact ⟨_, rfl⟩
    · exact ⟨_, rfl⟩
    · exact ⟨_, rfl⟩
  -- All checks come before the frame is changed.
  unchanged e h' herror := by
    unfold setFrameRest at herror
    split at herror
    · cases herror
      rfl
    · cases herror
      rfl
    · split at herror
      · cases herror
        rfl
      · cases herror

end

/-- The list `(1 2)` and a frame of one slot, which fill their heap. -/
def full : Heap where
  cars := #[.int 2, .int 1]
  cdrs := #[.nil, .pair ⟨0⟩]
  frames := #[⟨#[.nil], true⟩]
  capacity := 3

/-- On a full heap, what has been assigned cannot be read. -/
theorem rest_unread_of_full : full.elements? (.pair ⟨1⟩) = .ok (some [.int 1, .int 2]) ∧
    (full.frameAt ⟨0⟩).filled = true ∧ 0 ≤ full.frameSize ⟨0⟩ ∧
    ∃ h', setFrameRest ⟨0⟩ 0 (.pair ⟨1⟩) full = .ok () h' ∧ ∀ v h'', frameRest ⟨0⟩ 0 h' ≠ .ok v h'' := by
  have hitems : full.elements? (.pair ⟨1⟩) = .ok (some [.int 1, .int 2]) := rfl
  refine ⟨hitems, rfl, Nat.zero_le _, _, setFrameRest_eq hitems rfl, fun v h'' hok => ?_⟩
  have hread : (full.splice ⟨0⟩ 0 [.int 1, .int 2]).ReadsRest ⟨0⟩ 0 [.int 1, .int 2] := readsRest rfl rfl
  obtain ⟨h', herror, -⟩ := hread.2 (by rintro (hzero | hle) <;> contradiction)
  rw [herror] at hok
  cases hok

/-- The list `(8 9)`, and a frame of three slots. -/
def roomy : Heap where
  cars := #[.int 9, .int 8]
  cdrs := #[.nil, .pair ⟨0⟩]
  frames := #[⟨#[.int 1, .int 2, .int 3], true⟩]
  capacity := 5

end Heap

/-! ## Required parameters -/

/-- Every frame that a call has entered has a slot for each argument that its function requires. -/
def entriesKept : Audit := fun _ s => ∀ f n, Mark.entered f n ∈ s.image.log.marks → n ≤ s.image.heap.frameSize f

theorem History.entriesKept {L : Layout} {flow : Flow} {s : Interpreter} (hi : History L s.image)
    (hL : L.Fits s.image.heap) : entriesKept flow s :=
  fun f n hm => (hL.slots f n (hi.entered f n hm)).2

/-- The rest parameter is the last one, and it is not required. -/
theorem required_of_rest {form : String} {params : Value} {s s' : Interpreter} {frame : LexicalFrame}
    (hparse : parseLambdaList form params s = .ok frame s') {i : Nat} (hrest : frame.rest = some i) :
    i + 1 = frame.names.length ∧ (frameArity frame).min = frame.names.length - 1 := by
  have hparsed : Inert (parseLambdaList form params) s fun frame =>
      frame.Regular (s.image.heap.spine params).items.length := inert_parseLambdaList fun _ => Nat.le_refl _
  rcases hparsed with ⟨frame', hok, hregular⟩ | ⟨e, herror, -⟩
  · obtain rfl : frame' = frame := by
      rw [hok] at hparse
      cases hparse
      rfl
    exact ⟨hregular.rest i hrest, by simp [frameArity, hrest, Arity.atLeast]⟩
  · rw [herror] at hparse
    cases hparse

namespace Session

/-- A frame that a call has entered has, at every moment of a session, a slot for each of the
    parameters of its function, except for a rest parameter, which is the last one and not
    required. And a list that is assigned to a rest parameter is what it holds then. -/
theorem rest_parameters (config : Config) (level : LogLevel) (commands : List Command) (h : Heap) (f : FrameId)
    (j : Nat) (l : Value) :
    ((run (.audited entriesKept) config level commands).Relogged (run .plain config level commands) ∧
      Mark.fault ∉ (run (.audited entriesKept) config level commands).interpreter.image.log.marks ∧
      entriesKept .stop (run (.audited entriesKept) config level commands).interpreter) ∧
    (∀ form params s s' frame i, parseLambdaList form params s = .ok frame s' → frame.rest = some i →
      i + 1 = frame.names.length ∧ (frameArity frame).min = frame.names.length - 1) ∧
    h.RestAssigned f j l := by
  have hkept {n : Nat} {L : Layout} {rest : List SavedValue} {K : Trail} {flow : Flow} {s : Interpreter}
      (hi : History L s.image) (hf : Flows n L rest K flow s) : entriesKept flow s :=
    hi.entriesKept hf.goes.sound.fits
  obtain ⟨L, ho⟩ := audited_orderly hkept config level commands
  refine ⟨⟨audited_relogged entriesKept config level commands, ho.history.faultless, ?_⟩, ?_, h.restAssigned f j l⟩
  · exact ho.history.entriesKept ho.sound.fits
  · exact fun _ _ _ _ _ _ hparse hrest => required_of_rest hparse hrest

/-- The lambda list `x` is a rest parameter only. And `(8 9)` takes the place of `(2 3)`, above
    the slot that holds `1`. -/
theorem rest_parameters_roomy :
    (∃ s s' frame, parseLambdaList "lambda" (.symbol ⟨30⟩) s = .ok frame s' ∧ frame.rest = some 0 ∧
      0 + 1 = frame.names.length ∧ (frameArity frame).min = frame.names.length - 1) ∧
    Heap.roomy.elements? (.pair ⟨1⟩) = .ok (some [.int 8, .int 9]) ∧
    ∃ h', Heap.setFrameRest ⟨0⟩ 1 (.pair ⟨1⟩) Heap.roomy = .ok () h' ∧
      (∀ i < 1, h'.frameSlot ⟨0⟩ i = Heap.roomy.frameSlot ⟨0⟩ i) ∧ h'.ReadsRest ⟨0⟩ 1 [.int 8, .int 9] := by
  have h := rest_parameters {} .off [] Heap.roomy ⟨0⟩ 1 (.pair ⟨1⟩)
  have hitems : Heap.roomy.elements? (.pair ⟨1⟩) = .ok (some [.int 8, .int 9]) := rfl
  have hparse : parseLambdaList "lambda" (.symbol ⟨30⟩) (blank {} .off) =
      .ok ⟨[⟨30⟩], some 0⟩ (blank {} .off) := rfl
  exact ⟨⟨_, _, _, hparse, rfl, h.2.1 _ _ _ _ _ _ hparse rfl⟩, hitems, h.2.2.stored _ hitems rfl (by decide)⟩

end Session

end StackLisp
