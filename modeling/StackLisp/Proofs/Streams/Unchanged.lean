import StackLisp.Proofs.Streams.Reach
import StackLisp.Proofs.Streams.Session

/-!
# What stays unchanged

Code is made once and for all: as soon as a function is in the table, the cells of its stream keep
what is in them, whatever is compiled, defined or run afterwards. A pair of data changes only when a
program calls `rplaca` or `rplacd` on it, and then in the half that is written.

Both are looked at for any pair, at every moment of a session, also in the middle of compiling and of
nested runs. `Observer.cells` marks the pair when it is a cell of a stream and has given contents,
and finds a fault when it has others later on. `Observer.halves` marks when one half of the pair is
written, and finds a fault when it has changed otherwise. No fault is ever found
(`Session.unchanged_run`).
-/

namespace StackLisp

open Interpreter Compiler

variable {K : Interpreter → Interpreter → Prop}

/-! ## Cells of streams -/

/-- The pair is a cell of the stream of a function in the table. -/
def Interpreter.InFunction (s : Interpreter) (p : PairId) : Prop :=
  ∃ f : FunctionId, f.index < s.image.functions.size ∧ s.image.heap.InStream (s.image.function f).code p

section

variable (p : PairId) (a d : Value)

/-- What is in the pair. -/
def Interpreter.Contains (s : Interpreter) : Prop := s.image.heap.car p = a ∧ s.image.heap.cdr p = d

/-- Whether the pair has been a cell with these contents and has others now, and whether it is such
    a cell. -/
noncomputable def Interpreter.cellMarks (s : Interpreter) : List Mark :=
  markIf (Mark.held ∈ s.image.log.marks ∧ ¬s.Contains p a d) .fault ++
    markIf (s.InFunction p ∧ s.Contains p a d) .held

/-- Looks at a pair that may be a cell of a stream. -/
noncomputable def Observer.cells : Observer :=
  ⟨fun _ s => s.cellMarks p a d, fun _ _ _ s' => s'.cellMarks p a d⟩

/-- The pair is a cell of the body of a function. -/
def Interpreter.Owns (s : Interpreter) : Prop :=
  ∃ (f : FunctionId) (lo hi : Nat) (g : Piece), f.index < s.image.functions.size ∧ s.image.Body lo hi g f ∧
    s.image.heap.InStream (s.image.function f).code p ∧ s.Contains p a d

/-- Nothing has been found at fault, and the pair is a cell if it has been marked. -/
structure Interpreter.Unspoiled (s : Interpreter) : Prop where
  faultless : Mark.fault ∉ s.image.log.marks
  held : Mark.held ∈ s.image.log.marks → s.Owns p a d

/-- It stays so. -/
def StaysUnspoiled (s s' : Interpreter) : Prop := s.Unspoiled p a d → s'.Unspoiled p a d

end

section

variable {p q : PairId} {a d : Value} {s s' : Interpreter}

theorem Interpreter.Owns.of_kept (ho : s.Owns p a d) (hcode : s.image.heap.KeepsCode s'.image.heap)
    (hfunctions : s.image.KeepsFunctions s'.image) : s'.Owns p a d := by
  obtain ⟨f, lo, hi, g, hf, hb, hp, hcontents⟩ := ho
  have hsame (p : PairId) (hp : s.image.heap.InStream (s.image.function f).code p) :
      s'.image.heap.car p = s.image.heap.car p ∧ s'.image.heap.cdr p = s.image.heap.cdr p :=
    have ⟨hcell, hlt, _⟩ := hb.cell hp
    ⟨hcode.car p hlt hcell, hcode.cdr p hlt hcell⟩
  refine ⟨f, lo, hi, g, ?_, hb.keeps hf hcode hfunctions, ?_, ?_⟩
  · exact Nat.lt_of_lt_of_le hf hfunctions.size
  · exact hfunctions.code f hf ▸ hp.congr hsame
  · exact ⟨(hsame p hp).1.trans hcontents.1, (hsame p hp).2.trans hcontents.2⟩

/-- A call in no function is no cell, and may become a tail call. -/
theorem Interpreter.Owns.tapped (ho : s.Owns p a d) (hcall : s.image.heap.IsCall q) (hq : s.Unentered q) :
    (s.tapped q).Owns p a d := by
  obtain ⟨f, -, -, -, hf, -, hp, hcontents⟩ := ho
  obtain ⟨lo, hi, g, hb, hout⟩ := hq f hf
  have hsame (p : PairId) (hp : s.image.heap.InStream (s.image.function f).code p) :
      (s.image.heap.tapped q).car p = s.image.heap.car p ∧ (s.image.heap.tapped q).cdr p = s.image.heap.cdr p := by
    -- a cell is in the range of the body or no call, and the call is a call outside of that range
    refine ⟨Heap.car_tapped_of_ne _ ?_, rfl⟩
    rintro rfl
    rcases (hb.cell hp).2.2 with hin | hnone
    · omega
    · rcases hcall with hcall | hcall <;> simp [hcall] at hnone <;> cases hnone
  refine ⟨f, lo, hi, g, hf, hb.tapped hcall hout, hp.congr hsame, ?_⟩
  exact ⟨(hsame p hp).1.trans hcontents.1, (hsame p hp).2.trans hcontents.2⟩

theorem lasting_unspoiled : Lasting (StaysUnspoiled p a d) where
  trans h h' := h' ∘ h
  added hheap hfunctions hmarks hs := by
    refine ⟨hmarks ▸ hs.faultless, fun hheld => ?_⟩
    exact (hs.held (hmarks ▸ hheld)).of_kept hheap.keepsCode hfunctions
  tapped h _ hcall hq hs := ⟨(h hs).faultless, fun hheld => ((h hs).held hheld).tapped hcall hq⟩

/-- Looking at the pair finds no fault. -/
theorem staysUnspoiled_cellMarks (hs : s.Bodied) : StaysUnspoiled p a d s (s.markedAll (s.cellMarks p a d)) := by
  intro h
  have hmarks : (s.markedAll (s.cellMarks p a d)).image.log.marks = _ := marks_markedAll
  have howns (ho : s.Owns p a d) : (s.markedAll (s.cellMarks p a d)).Owns p a d := by
    obtain ⟨log, heq⟩ := markedAll_eq (s.cellMarks p a d) s
    rw [heq]
    exact ho.of_kept (.refl _) (.of_eq rfl)
  -- A fault would be a held cell with other contents, which was just ruled out; a cell held anew is
  -- owned, with the contents it is held for.
  refine ⟨fun hfault => ?_, fun hheld => howns ?_⟩
  · rw [hmarks] at hfault
    simp only [Interpreter.cellMarks, List.mem_append, mem_markIf] at hfault
    rcases hfault with hfault | ⟨⟨hheld, hnot⟩, -⟩ | ⟨-, heq⟩
    · exact h.faultless hfault
    · obtain ⟨_, _, _, _, -, -, -, hcontents⟩ := h.held hheld
      exact hnot hcontents
    · exact absurd heq (by decide)
  · rw [hmarks] at hheld
    simp only [Interpreter.cellMarks, List.mem_append, mem_markIf] at hheld
    rcases hheld with hheld | ⟨-, heq⟩ | ⟨⟨⟨f, hf, hp⟩, hcontents⟩, -⟩
    · exact h.held hheld
    · exact absurd heq (by decide)
    · obtain ⟨lo, hi, g, hb, -⟩ := hs f hf
      exact ⟨f, lo, hi, g, hf, hb, hp, hcontents⟩

theorem observes_cells : Observes (StaysUnspoiled p a d) (.cells p a d) where
  toLasting := lasting_unspoiled
  compile hopen := staysUnspoiled_cellMarks hopen.bodied
  compiled hopen hcoded := by
    obtain ⟨g, -, hr⟩ := hcoded
    exact staysUnspoiled_cellMarks (hr.bodied hopen.bodied)
  fell hopen hfallen := by
    obtain ⟨rs, ts, hr⟩ := hfallen
    exact staysUnspoiled_cellMarks (hr.bodied hopen.bodied)
  go hs := staysUnspoiled_cellMarks hs
  altered hs hkeeps h := by
    refine lasting_unspoiled.trans (staysUnspoiled_cellMarks hs) fun hm => ⟨h.marks ▸ hm.faultless, fun hheld => ?_⟩
    exact (hm.held (h.marks ▸ hheld)).of_kept hkeeps (.of_eq h.functions)
  gone _ _ hs := staysUnspoiled_cellMarks hs

end

/-! ## Halves of pairs -/

section

variable (part : Half) (p : PairId)

/-- There is no mark in between for the half to be written. -/
def Interpreter.Unwritten (s s' : Interpreter) : Prop :=
  Mark.written ∉ s'.image.log.marks.drop s.image.log.marks.length

/-- Looks at one half of a pair. It is marked before it is written, and at fault if it has changed
    without that. -/
noncomputable def Observer.halves : Observer where
  before
    | .go flow, s => markIf (s.writes? flow = some (part, p)) .written
    | .compile _, _ => []
  after _ s _ s' :=
    markIf (p.index < s.image.heap.pairCount ∧ s'.image.heap.half part p ≠ s.image.heap.half part p ∧ s.Unwritten s')
      .fault

/-- The half has been marked, or it has stayed the same, and nothing has been found at fault. -/
structure StaysUnless (s s' : Interpreter) : Prop where
  pairCount : s.image.heap.pairCount ≤ s'.image.heap.pairCount
  marks : ∃ ms, s'.image.log.marks = s.image.log.marks ++ ms ∧ Mark.fault ∉ ms ∧
    (Mark.written ∈ ms ∨ (p.index < s.image.heap.pairCount → s'.image.heap.half part p = s.image.heap.half part p))

end

section

variable {part : Half} {p : PairId} {s s' : Interpreter} {ms : List Mark}

theorem StaysUnless.of_marked (hfault : Mark.fault ∉ ms) : StaysUnless part p s (s.markedAll ms) := by
  have hmarks : (s.markedAll ms).image.log.marks = _ := marks_markedAll
  obtain ⟨log, heq⟩ := markedAll_eq ms s
  rw [heq] at hmarks ⊢
  exact ⟨Nat.le_refl _, ms, hmarks, hfault, .inr fun _ => rfl⟩

/-- What has changed has been written, so no fault is found. -/
theorem StaysUnless.after (h : StaysUnless part p s s') (task : Task) (code? : Option Value) :
    StaysUnless part p s' (s'.markedAll ((Observer.halves part p).after task s code? s')) := by
  obtain ⟨ms, hmarks, -, hkept⟩ := h.marks
  have hnone : (Observer.halves part p).after task s code? s' = [] := by
    refine markIf_of_not fun ⟨hlt, hne, hunwritten⟩ => ?_
    rw [Interpreter.Unwritten, hmarks, List.drop_left] at hunwritten
    exact hkept.elim hunwritten fun hsame => hne (hsame hlt)
  exact .of_marked (hnone ▸ List.not_mem_nil)

theorem lasting_unless : Lasting (StaysUnless part p) where
  trans {s s' s''} h h' := by
    obtain ⟨ms, hmarks, hfault, hkept⟩ := h.marks
    obtain ⟨ms', hmarks', hfault', hkept'⟩ := h'.marks
    -- marked in one of the two parts, or the same throughout both
    refine ⟨Nat.le_trans h.pairCount h'.pairCount, ms ++ ms', ?_, ?_, ?_⟩
    · rw [hmarks', hmarks, List.append_assoc]
    · simp [hfault, hfault']
    · rcases hkept with hwritten | hsame
      · exact .inl (List.mem_append_left _ hwritten)
      · refine hkept'.imp (List.mem_append_right _) fun hsame' hlt => ?_
        exact (hsame' (Nat.lt_of_lt_of_le hlt h.pairCount)).trans (hsame hlt)
  added {s s'} hheap _ hmarks := by
    refine ⟨hheap.pairCount, [], by simpa using hmarks, List.not_mem_nil, .inr fun hlt => ?_⟩
    cases part with
    | car => exact hheap.car p hlt
    | cdr => exact hheap.cdr p hlt
  tapped {s s' q} h hq _ _ := by
    refine ⟨Nat.le_trans h.pairCount (Nat.le_of_eq (Heap.pairCount_tapped ..).symm), ?_⟩
    obtain ⟨ms, hmarks, hfault, hkept⟩ := h.marks
    refine ⟨ms, hmarks, hfault, hkept.imp_right fun hsame hlt => Eq.trans ?_ (hsame hlt)⟩
    cases part with
    | car =>
      -- the call is a new pair, and no pair from before
      refine Heap.car_tapped_of_ne _ ?_
      rintro rfl
      omega
    | cdr => rfl

theorem observes_halves : Observes (StaysUnless part p) (.halves part p) where
  toLasting := lasting_unless
  compile _ := .of_marked List.not_mem_nil
  compiled _ hcoded := by
    obtain ⟨g, -, hr⟩ := hcoded
    exact hr.lasting.after ..
  fell _ hfallen := by
    obtain ⟨rs, ts, hr⟩ := hfallen
    exact hr.lasting.after ..
  go _ := .of_marked fun h => absurd (mem_markIf.1 h).2 (by decide)
  altered {s s' flow} _ _ h := by
    have hmarks := h.marks.trans marks_markedAll
    have hfault : Mark.fault ∉ (Observer.halves part p).before (.go flow) s := fun hfault =>
      absurd (mem_markIf.1 hfault).2 (by decide)
    have hheap : (s.markedAll ((Observer.halves part p).before (.go flow) s)).image.heap = s.image.heap := by
      obtain ⟨log, heq⟩ := markedAll_eq ((Observer.halves part p).before (.go flow) s) s
      rw [heq]
    refine ⟨hheap ▸ h.pairCount, _, hmarks, hfault, ?_⟩
    -- Either the step is the write that was announced, or it leaves the half as it was.
    by_cases hwrites : s.writes? flow = some (part, p)
    · exact .inl (mem_markIf.2 ⟨hwrites, rfl⟩)
    · exact .inr fun hlt => hheap ▸ h.half part p (hheap.symm ▸ hlt) hwrites
  gone _ h _ := h.after ..

end

/-! ## Sessions -/

/-- At no moment of a session has a cell of the stream of a function changed since the function was
    entered into the table, and no half of a pair has changed that was there before something was
    done, unless it was written by `rplaca` or `rplacd` in the meantime. -/
theorem Session.unchanged_run (config : Config) (level : LogLevel) (commands : List Command) (p : PairId)
    (a d : Value) (part : Half) :
    ((run (.observed (.cells p a d)) config level commands).Relogged (run .plain config level commands) ∧
      Mark.fault ∉ (run (.observed (.cells p a d)) config level commands).interpreter.image.log.marks) ∧
    (run (.observed (.halves part p)) config level commands).Relogged (run .plain config level commands) ∧
      Mark.fault ∉ (run (.observed (.halves part p)) config level commands).interpreter.image.log.marks := by
  have hstart := (bodied_start config level).2
  refine ⟨⟨observed_relogged .., ?_⟩, observed_relogged .., ?_⟩
  · have hunspoiled : (start config level).interpreter.Unspoiled p a d :=
      ⟨hstart ▸ List.not_mem_nil, fun h => absurd (hstart ▸ h) List.not_mem_nil⟩
    exact (observed_lasts observes_cells config level commands hunspoiled).faultless
  · have hhalves : Observes (StaysUnless part p) (.halves part p) := observes_halves
    obtain ⟨ms, hmarks, hfault, -⟩ := (observed_lasts hhalves config level commands).marks
    rw [hmarks, hstart]
    exact hfault

end StackLisp
