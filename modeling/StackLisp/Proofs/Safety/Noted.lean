import StackLisp.Proofs.Safety.Session

/-!
# Notes on runs

To say something about every moment of every run, also of the runs that `eval` and
macros start while another one is going on, one lets the machine check it. A moment is
often judged by what has happened before, so *notes* are taken along each run (`Notes`).
`Engine.noted notes P` is the compiler and the machine, where `P` is checked before every
instruction and before every request is served, and a check that fails breaks a rule.

What holds at every moment of a run in order can be checked without ever breaking a rule
(`Engine.noted_inOrder`).
-/

namespace StackLisp

open Interpreter Layout Machine Compiler

/-- How notes are taken along a run: those at its start, and those after it has gone on, from
    a moment with what came next there, to another interpreter. -/
structure Notes (N : Type) where
  start : N
  after : N → Flow → Interpreter → Interpreter → N

open Classical in
/-- Stops unless a property holds. -/
noncomputable def ensure (P : Interpreter → Prop) : LispM Unit := fun s =>
  if P s then .ok () s else .error stopped s

theorem ensure_of_holds {P : Interpreter → Prop} {s : Interpreter} (hP : P s) :
    ensure P s = .ok () s := if_pos hP

section

variable {N : Type} (notes : Notes N) (P : N → Flow → Interpreter → Prop)

mutual

/-- Compiles a form in front of a continuation. -/
noncomputable def notedCompile : Nat → CompileRule
  | 0, _, _, _ => throw .endless
  | fuel + 1, form, env, cont =>
    compileForm (notedCompile fuel) (expandMacro (notedRun fuel notes.start .next)) form env cont

/-- Runs the machine until it stops. -/
noncomputable def notedRun : Nat → N → Flow → LispM Unit
  | 0, _, _ => throw .endless
  | fuel + 1, note, flow => do
    let s ← get
    ensure (P note flow)
    match flow with
    | .stop => pure ()
    | .next => do
      let flow' ← step
      notedRun fuel (notes.after note flow s (← get)) flow'
    | .request r => do
      let flow' ← serve (notedCompile fuel) (notedRun fuel notes.start .next) fuel r
      notedRun fuel (notes.after note flow s (← get)) flow'

end

/-- The compiler and the machine, taking notes and checking a property at every moment. -/
noncomputable def Engine.noted : Engine :=
  ⟨notedCompile notes P, fun fuel => notedRun notes P fuel notes.start .next⟩

end

/-- A moment of a run goes on to another one, if it does so by an instruction or a call. -/
def Proceeds : Flow → Interpreter → Flow → Interpreter → Prop
  | .next, s, flow', s' => step s = .ok flow' s'
  | .request (.call argc mode), s, flow', s' => call argc mode s = .ok flow' s'
  | _, _, _, _ => True

/-- Notes that keep to an invariant along runs in order. -/
structure Notes.Keep {N : Type} (notes : Notes N)
    (Inv : Layout → Heap → List SavedValue → Trail → N → Prop) : Prop where
  start (L : Layout) (h : Heap) (rest : List SavedValue) : Inv L h rest [] notes.start
  after {n : Nat} {L L' : Layout} {rest : List SavedValue} {K K' : Trail} {note : N}
    {flow flow' : Flow} {s s' : Interpreter} (noted : Inv L s.image.heap rest K note)
    (now : Flows n L rest K flow s) (proceeds : Proceeds flow s flow' s') (follows : K.Follows K')
    (goes : Goes n rest L s L' s') (next : Flows n L' rest K' flow' s') :
    Inv L' s'.image.heap rest K' (notes.after note flow s s')

section

variable {N : Type} {notes : Notes N} {P : N → Flow → Interpreter → Prop}
  {Inv : Layout → Heap → List SavedValue → Trail → N → Prop}

/-- What holds at every moment of a run in order can be checked there. -/
theorem noted_and_runs (hnotes : notes.Keep Inv)
    (hP : ∀ {n : Nat} {L : Layout} {rest : List SavedValue} {K : Trail} {note : N} {flow : Flow}
      {s : Interpreter}, Inv L s.image.heap rest K note → Flows n L rest K flow s → P note flow s)
    (fuel : Nat) :
    Compiles (notedCompile notes P fuel) ∧
      ∀ {n : Nat} {L : Layout} {rest : List SavedValue} {K : Trail} {note : N} {flow : Flow}
        {s : Interpreter}, Inv L s.image.heap rest K note → Flows n L rest K flow s →
        Safe (Goes n rest) L (notedRun notes P fuel note flow) s (Stopped n rest) := by
  -- The induction is on the fuel, as for plain runs, with the invariant of the notes carried along.
  induction fuel with
  | zero =>
    refine ⟨fun hr _ => ?_, fun _ hf => ?_⟩
    · rw [notedCompile]
      exact Safe.throw hr.refl trivial
    · rw [notedRun]
      exact Safe.throw hf.goes trivial
  | succ fuel ih =>
    obtain ⟨hc, hr⟩ := ih
    have hrun : RunsInOrder (notedRun notes P fuel notes.start .next) :=
      fun hruns => hr (hnotes.start ..) hruns
    refine ⟨fun hready hform => ?_, fun {n L rest K note flow s} hi hf => ?_⟩
    · rw [notedCompile]
      exact compiles_compileForm hc hrun.expands hready hform
    -- After a step or a request the notes are brought up to date, and the run goes on with them.
    · have hgoon {x : LispM Flow} (hx : Safe (Goes n rest) L x s (Continues n rest K))
          (hproceeds : ∀ flow' s', x s = .ok flow' s' → Proceeds flow s flow' s') :
          Safe (Goes n rest) L (do
            let flow' ← x
            notedRun notes P fuel (notes.after note flow s (← get)) flow') s (Stopped n rest) := by
        refine Safe.bind hx.reached ?_
        rintro L' flow' s' g ⟨⟨K', hK, hf'⟩, hx'⟩
        exact safe_get_bind.2 (hr (hnotes.after hi hf (hproceeds _ _ hx') hK g hf') hf')
      -- What holds at this moment passes the check.
      have hchecked := ensure_of_holds (hP hi hf)
      cases flow with
      | stop =>
        simp only [notedRun, safe_get_bind]
        obtain ⟨env, rfl, -, hi⟩ := hf
        exact (safe_bind_of_ok hchecked).2 (Safe.pure hi.goes ⟨env, hi⟩)
      | next =>
        simp only [notedRun, safe_get_bind]
        exact (safe_bind_of_ok hchecked).2 (hgoon (safe_step hf) fun _ _ h => h)
      | request r =>
        simp only [notedRun, safe_get_bind]
        refine (safe_bind_of_ok hchecked).2 (hgoon (safe_serve hc hrun hf) fun _ _ h => ?_)
        cases r with
        | call argc mode => exact h
        | _ => trivial

theorem Engine.noted_inOrder (hnotes : notes.Keep Inv)
    (hP : ∀ {n : Nat} {L : Layout} {rest : List SavedValue} {K : Trail} {note : N} {flow : Flow}
      {s : Interpreter}, Inv L s.image.heap rest K note → Flows n L rest K flow s → P note flow s) :
    (noted notes P).InOrder :=
  ⟨fun fuel => (noted_and_runs hnotes hP fuel).1,
    fun fuel _ _ _ _ hr => (noted_and_runs hnotes hP fuel).2 (hnotes.start ..) hr⟩

end

end StackLisp
