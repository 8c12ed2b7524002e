import StackLisp.Proofs.Actions.Agreement
import StackLisp.Proofs.Safety.Watch

/-!
# Runs with checks and plain ones

A run with checks goes as the plain one does, as long as no check fails. A congruence
that goes through the checks relates the two (`DefiningCongruence.noted`). That is so
for being the same up to a check that fails (`Agree`), so a session in which no check
fails is the plain session (`Session.run_checks`).
-/

namespace StackLisp

open Interpreter Compiler Machine

variable {α β : Type}

/-- A check is a mild action: it passes, or it fails and leaves everything as it was. -/
theorem mild_ensure (P : Interpreter → Prop) : Mild (ensure P) where
  leads s := by
    unfold Leads ensure
    split
    · next heq =>
      split at heq <;> cases heq
      exact .refl s
    · next heq =>
      split at heq <;> cases heq
      exact .refl s

theorem ensure_of_not {P : Interpreter → Prop} {s : Interpreter} (hP : ¬P s) :
    ensure P s = .error stopped s := if_neg hP

/-- A check before an action keeps it steady. -/
theorem Steadiness.ensure {R : Interpreter → Interpreter → Prop} {E : Failure → Prop} {x : LispM α}
    (hR : Steadiness R) (hx : Steady R E x) (P : Interpreter → Prop) :
    Steady R E (do ensure P; x) := hR.failsWith.bind (hR.failsWith.mild (mild_ensure P)) fun _ => hx

section

variable {N : Type} {notes : Notes N} {P : N → Flow → Interpreter → Prop}

/-- A congruence that goes through the checks goes from runs with notes to plain ones. Steps
    and calls may make use of what is checked before them. -/
theorem DefiningCongruence.noted {𝓡 : ⦃α : Type⦄ → LispM α → LispM α → Prop}
    (h𝓡 : DefiningCongruence 𝓡) (hm : ReturningCongruence 𝓡)
    (hget : 𝓡 (get : LispM Interpreter) get)
    (hstep : ∀ note, 𝓡 (do ensure (P note .next); step) step)
    (hcall : ∀ note argc mode,
      𝓡 (do ensure (P note (.request (.call argc mode))); call argc mode) (call argc mode))
    (hcheck : ∀ {α : Type} {x y : LispM α} note flow, 𝓡 x y →
      𝓡 (do ensure (P note flow); x) y) (fuel : Nat) :
    (∀ form env cont,
      𝓡 (notedCompile notes P fuel form env cont) (compileFrom fuel form env cont)) ∧
      ∀ note flow, 𝓡 (notedRun notes P fuel note flow) (runFrom fuel flow) := by
  have h := h𝓡.toCongruence
  induction fuel with
  | zero =>
    refine ⟨fun form env cont => ?_, fun note flow => ?_⟩
    · rw [notedCompile, compileFrom]
      exact hm.endless
    · rw [notedRun, runFrom]
      exact hm.endless
  | succ fuel ih =>
    obtain ⟨hc, hr⟩ := ih
    have hrest (note : N) (flow flow' : Flow) (s : Interpreter) :
        𝓡 (do notedRun notes P fuel (notes.after note flow s (← get)) flow') (runFrom fuel flow') :=
      h.bind hget fun s' => hr (notes.after note flow s s') flow'
    -- The interpreter is looked at first, which changes nothing.
    have hlook {α : Type} {f : Interpreter → LispM α} {y : LispM α} (hf : ∀ s, 𝓡 (f s) y) :
        𝓡 (do let s ← get; f s) y := h.bind hget hf
    refine ⟨fun form env cont => ?_, fun note flow => ?_⟩
    · rw [notedCompile, compileFrom]
      exact h𝓡.compileForm hc (hm.expandMacro (hm.execute (hr notes.start .next))) ..
    · cases flow with
      | stop =>
        rw [notedRun, runFrom]
        exact hlook fun _ => hcheck note .stop (h.quiet (quiet_pure ()))
      | next =>
        rw [notedRun, runFrom]
        refine hlook fun s => ?_
        simp only [← bind_assoc]
        exact h.bind (hstep note) fun flow' => hrest note .next flow' s
      | request r =>
        rw [notedRun, runFrom]
        refine hlook fun s => ?_
        simp only [← bind_assoc]
        refine h.bind ?_ fun flow' => hrest note (.request r) flow' s
        cases r with
        | call argc mode => exact hcall note argc mode
        | _ =>
          refine hcheck note _ (hm.toTurningCongruence.serve (h.compileApart hc)
            (hm.execute (hr notes.start .next)) fuel ?_ ?_)
          · intro argc mode heq
            cases heq
          · exact fun target value _ => hm.exitBlock target value fuel 0

variable (notes P) in
/-- Every such congruence goes through everything, if it goes through the checks. -/
theorem MachineCongruence.noted {𝓡 : ⦃α : Type⦄ → LispM α → LispM α → Prop}
    (h𝓡 : MachineCongruence 𝓡) (hget : 𝓡 (get : LispM Interpreter) get)
    (hcheck : ∀ {α : Type} {x y : LispM α} note flow, 𝓡 x y →
      𝓡 (do ensure (P note flow); x) y) (fuel : Nat) :
    (∀ form env cont,
      𝓡 (notedCompile notes P fuel form env cont) (compileFrom fuel form env cont)) ∧
      ∀ note flow, 𝓡 (notedRun notes P fuel note flow) (runFrom fuel flow) :=
  h𝓡.toDefiningCongruence.noted h𝓡.toReturningCongruence hget
    (fun note => hcheck note .next h𝓡.toRunningCongruence.step)
    (fun note argc mode => hcheck note _ (h𝓡.toRunningCongruence.call argc mode)) hcheck fuel

end

/-! ## Up to checks -/

/-- A check changes nothing, or it fails. -/
theorem Agree.ensure {x y : LispM α} (hxy : Agree stopped x y) (P : Interpreter → Prop) :
    Agree stopped (do ensure P; x) y where
  agrees s := by
    by_cases hP : P s
    · have heq : (do StackLisp.ensure P; x : LispM α) s = x s := by
        simp only [Bind.bind, EStateM.bind, ensure_of_holds hP]
      rw [AgreeAt, heq]
      exact hxy.agrees s
    · exact .inr ⟨s, by simp only [Bind.bind, EStateM.bind, ensure_of_not hP]⟩

/-- Looking at the interpreter changes nothing. -/
theorem mild_get : Mild (get : LispM Interpreter) := ⟨Still.refl⟩

/-- Runs with notes and plain ones do the same, unless a check fails. -/
theorem agree_noted {N : Type} (notes : Notes N) (P : N → Flow → Interpreter → Prop) (fuel : Nat) :
    (∀ form env cont,
      Agree stopped (notedCompile notes P fuel form env cont) (compileFrom fuel form env cont)) ∧
      ∀ note flow, Agree stopped (notedRun notes P fuel note flow) (runFrom fuel flow) := by
  have h := agree_machineCongruence.noted notes P
    ⟨retains_failsWith.mild mild_get, .refl _⟩
    (fun note flow hxy =>
      ⟨retains_bindingBlind.steadiness.ensure hxy.1 (P note flow), hxy.2.ensure (P note flow)⟩) fuel
  exact ⟨fun form env cont => (h.1 form env cont).2, fun note flow => (h.2 note flow).2⟩

/-! ## Watched runs -/

section

variable {P : Watch}

/-- A congruence that goes through the checks goes from watched runs to plain ones. -/
theorem DefiningCongruence.watched {𝓡 : ⦃α : Type⦄ → LispM α → LispM α → Prop}
    (h𝓡 : DefiningCongruence 𝓡) (hm : ReturningCongruence 𝓡)
    (hget : 𝓡 (get : LispM Interpreter) get)
    (hstep : ∀ entries, 𝓡 (do check P entries .next; step) step)
    (hcall : ∀ entries argc mode,
      𝓡 (do check P entries (.request (.call argc mode)); call argc mode) (call argc mode))
    (hcheck : ∀ {α : Type} {x y : LispM α} entries flow, 𝓡 x y →
      𝓡 (do check P entries flow; x) y) (fuel : Nat) :
    (∀ form env cont, 𝓡 (watchedCompile P fuel form env cont) (compileFrom fuel form env cont)) ∧
      ∀ entries flow, 𝓡 (watchedRun P fuel entries flow) (runFrom fuel flow) := by
  obtain ⟨hcompile, hrun⟩ := watched_eq_noted P fuel
  simp only [hcompile, hrun]
  exact h𝓡.noted hm hget hstep hcall hcheck fuel

/-- Watched runs and plain ones do the same, unless a check fails. -/
theorem agree_watched (P : Watch) (fuel : Nat) :
    (∀ form env cont, Agree stopped (watchedCompile P fuel form env cont) (compileFrom fuel form env cont)) ∧
      ∀ entries flow, Agree stopped (watchedRun P fuel entries flow) (runFrom fuel flow) := by
  obtain ⟨hcompile, hrun⟩ := watched_eq_noted P fuel
  simp only [hcompile, hrun]
  exact agree_noted entryNotes P fuel

end

/-! ## Sessions -/

/-- The engine does as the plain one, unless it fails by a check. -/
structure Engine.Checks (engine : Engine) : Prop where
  compile (fuel : Nat) (form : Value) (env : LexicalEnv) (cont : Value) :
    Agree stopped (engine.compile fuel form env cont) (compileFrom fuel form env cont)
  run (fuel : Nat) : Agree stopped (engine.run fuel) (runFrom fuel .next)

/-- The engine with notes does as the plain one, unless a check fails. -/
theorem Engine.Checks.noted {N : Type} (notes : Notes N) (P : N → Flow → Interpreter → Prop) :
    (Engine.noted notes P).Checks :=
  ⟨fun fuel => (agree_noted notes P fuel).1, fun fuel => (agree_noted notes P fuel).2 _ _⟩

/-- The watching engine does as the plain one, unless a check fails. -/
theorem Engine.Checks.watched (P : Watch) : (Engine.watched P).Checks :=
  ⟨fun fuel => (agree_watched P fuel).1, fun fuel => (agree_watched P fuel).2 _ _⟩

namespace Session

variable {session : Session} {engine : Engine} {x y : LispM α} {keep : α → Session → Session}

/-- An action on a session does the same as another one that it agrees with, unless the
    failure of a check is noted. -/
theorem act_agree (hxy : Agree stopped x y) (hkeep : ∀ a session, (keep a session).failures = session.failures) :
    session.failures ⊆ (session.act x keep).failures ∧
      (session.act x keep = session.act y keep ∨ stopped ∈ (session.act x keep).failures) := by
  refine ⟨?_, ?_⟩
  · unfold act
    split
    · rw [hkeep]
      exact List.Subset.refl _
    · exact List.subset_cons_self ..
  · rcases hxy.agrees session.interpreter with heq | ⟨s', heq⟩
    · exact .inl (by rw [act, act, heq])
    · refine .inr ?_
      rw [act, heq]
      exact List.mem_cons_self

/-- A command does the same as in a plain session, or the failure of a check is noted. -/
theorem perform_checks (he : engine.Checks) (session : Session) (command : Command) :
    session.failures ⊆ (session.perform engine command).failures ∧
      (session.perform engine command = session.perform .plain command ∨
        stopped ∈ (session.perform engine command).failures) := by
  have hnone : session.failures ⊆ session.failures ∧ (session = session ∨ stopped ∈ session.failures) :=
    ⟨List.Subset.refl _, .inl rfl⟩
  -- Reading and allocating do not involve the engine, and neither does a command whose operands are
  -- missing.
  cases command with
  | read text => exact act_agree (.refl _) fun _ _ => rfl
  | cons i j =>
    dsimp only [perform]
    split
    · exact act_agree (.refl _) fun _ _ => rfl
    · exact hnone
  | compile i fuel =>
    simp only [perform]
    split
    · exact act_agree (agree_mildCongruence.congruence.compileToplevel (he.compile fuel) _)
        fun _ _ => rfl
    · exact hnone
  | execute i fuel =>
    simp only [perform]
    split
    · exact act_agree (agree_execute (he.run fuel) ..) fun _ _ => rfl
    · exact hnone

/-- A session in which no check fails is the plain session. -/
theorem run_checks (he : engine.Checks) {config : Config} {level : LogLevel}
    {commands : List Command} (hrun : stopped ∉ (run engine config level commands).failures) :
    run engine config level commands = run .plain config level commands := by
  unfold run at hrun ⊢
  generalize start config level = session at hrun ⊢
  -- What is noted once stays noted, so no check fails on the way.
  have hkept (session : Session) (commands : List Command) :
      session.failures ⊆ (commands.foldl (perform engine) session).failures := by
    induction commands generalizing session with
    | nil => exact List.Subset.refl _
    | cons command commands ih => exact List.Subset.trans (perform_checks he session command).1 (ih _)
  induction commands generalizing session with
  | nil => rfl
  | cons command commands ih =>
    rw [List.foldl_cons] at hrun ⊢
    rw [ih _ hrun, List.foldl_cons]
    rw [(perform_checks he session command).2.resolve_right fun h => hrun (hkept _ commands h)]

/-- Checks that never fail in order never stop a session, which goes as without them and
    breaks no rule. -/
theorem run_of_checks (he : engine.Checks) (horder : engine.InOrder) (config : Config)
    (level : LogLevel) (commands : List Command) :
    run engine config level commands = run .plain config level commands ∧
      (run engine config level commands).BreaksNoRule := by
  have hrule := breaksNoRule_of_inOrder horder config level commands
  exact ⟨run_checks he fun hstopped => hrule _ hstopped, hrule⟩

/-- What holds at every moment of a run in order never stops a session. -/
theorem run_of_flows {P : Watch}
    (hP : ∀ {n : Nat} {L : Layout} {rest : List SavedValue} {K : Trail} {entries : List Interpreter}
      {flow : Flow} {s : Interpreter}, EntriesOf L s.image.heap rest K entries →
      Flows n L rest K flow s → P entries flow s)
    (config : Config) (level : LogLevel) (commands : List Command) :
    run (.watched P) config level commands = run .plain config level commands ∧
      (run (.watched P) config level commands).BreaksNoRule :=
  run_of_checks (.watched P) (Engine.watched_inOrder hP) config level commands

end Session

end StackLisp
