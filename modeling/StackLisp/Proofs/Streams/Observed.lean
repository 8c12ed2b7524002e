import StackLisp.Proofs.Audit
import StackLisp.Proofs.Safety.Separation

/-!
# Observed sessions

To say something about every moment at which a form is compiled or a run goes on, one lets an
*observer* look at the interpreter before and after, whether or not the form compiles and the run
goes on, and put marks into the log (`Observer`, `observe`). `Engine.observed o` is the compiler and
the machine with such an observer, also in the runs that `eval` and macros start while another one is
going on. At the moments of runs it is made sure that code and data are apart.

Marks do nothing else, and code and data are apart, so an observed session goes as the plain one
does, and the two differ in the log only (`Session.observed_relogged`).
-/

namespace StackLisp

open Interpreter Machine Compiler

variable {α β : Type}

/-! ## Observers -/

/-- What is observed: a form is compiled in front of a continuation, or a run goes on. -/
inductive Task where
  | compile (cont : Value)
  | go (flow : Flow)

/-- The marks that are put into the log before and after what is observed. -/
structure Observer where
  before : Task → Interpreter → List Mark
  /-- In view of the interpreter before, of the code of a form that has been compiled, and of the
      interpreter afterwards. -/
  after : Task → Interpreter → Option Value → Interpreter → List Mark

/-- The interpreter with more marks in its log. -/
def Interpreter.markedAll (s : Interpreter) (ms : List Mark) : Interpreter :=
  ms.foldl Interpreter.marked s

/-- Puts marks into the log. -/
def markAll (ms : List Mark) : LispM Unit := ms.forM mark

open Classical in
/-- A mark if something holds, and none otherwise. -/
noncomputable def markIf (P : Prop) (m : Mark) : List Mark := if P then [m] else []

theorem mem_markIf {P : Prop} {m m' : Mark} : m' ∈ markIf P m ↔ P ∧ m' = m := by
  unfold markIf
  split <;> simp [*]

theorem markIf_of_not {P : Prop} {m : Mark} (h : ¬P) : markIf P m = [] := if_neg h

/-- Does something while an observer looks at the interpreter before and after. -/
def observe (o : Observer) (task : Task) (code? : α → Option Value) (x : LispM α) : LispM α := do
  let s ← get
  markAll (o.before task s)
  let result ← attempt x
  markAll (o.after task s (result.toOption.bind code?) (← get))
  resume result

section

variable (o : Observer)

mutual

/-- Compiles a form in front of a continuation. -/
noncomputable def observedCompile : Nat → CompileRule
  | 0, _, _, _ => throw .endless
  | fuel + 1, form, env, cont =>
    observe o (.compile cont) some
      (compileForm (observedCompile fuel) (expandMacro (observedRun fuel .next)) form env cont)

/-- Runs the machine until it stops. -/
noncomputable def observedRun : Nat → Flow → LispM Unit
  | 0, _ => throw .endless
  | fuel + 1, flow => do
    ensure (·.Separate [])
    match flow with
    | .stop => pure ()
    | .next => do observedRun fuel (← observe o (.go .next) (fun _ => none) step)
    | .request r => do
      observedRun fuel (← observe o (.go (.request r)) (fun _ => none)
        (serve (observedCompile fuel) (observedRun fuel .next) fuel r))

end

/-- The compiler and the machine, with an observer. -/
noncomputable def Engine.observed : Engine := ⟨observedCompile o, fun fuel => observedRun o fuel .next⟩

end

section

variable {s : Interpreter} {ms : List Mark}

/-- The marks are put in one after the other, and this does not fail. -/
theorem markAll_eq (ms : List Mark) (s : Interpreter) : markAll ms s = .ok () (s.markedAll ms) := by
  induction ms generalizing s with
  | nil => rfl
  | cons m ms ih => exact ih (s.marked m)

theorem leads_markAll {ok : Unit → Interpreter → Prop} {err : Failure → Interpreter → Prop} :
    Leads (markAll ms) s ok err ↔ ok () (s.markedAll ms) := leads_of_ok (markAll_eq ms s)

/-- The log has them behind those that it had. -/
theorem marks_markedAll : (s.markedAll ms).image.log.marks = s.image.log.marks ++ ms := by
  induction ms generalizing s with
  | nil => simp [Interpreter.markedAll]
  | cons m ms ih =>
    show ((s.marked m).markedAll ms).image.log.marks = _
    rw [ih, marks_marked, List.append_assoc]
    rfl

/-- Marks are about the log only. -/
theorem markedAll_eq (ms : List Mark) (s : Interpreter) :
    ∃ log, s.markedAll ms = { s with image.log := log } := by
  induction ms generalizing s with
  | nil => exact ⟨s.image.log, rfl⟩
  | cons m ms ih => exact (ih (s.marked m)).imp fun _ h => h

end

/-! ## Observers do nothing else -/

/-- Marks on the one side make no difference but in the log. -/
theorem Relogged.markedAll {s t : Interpreter} (h : Relogged s t) (ms : List Mark) :
    Relogged (s.markedAll ms) t := by
  induction ms generalizing s with
  | nil => exact h
  | cons m ms ih => exact ih (h.marked m)

/-- What is observed is done in between, whether or not it fails. -/
theorem relogged_observe {x y : LispM α} (hxy : Together Relogged x y) (o : Observer) (task : Task)
    (code? : α → Option Value) : Together Relogged (observe o task code? x) y where
  run {s t} h := by
    have hend := hxy.run (h.markedAll (o.before task s))
    simp only [observe, Bind.bind, EStateM.bind, get_apply, markAll_eq, attempt]
    generalize x _ = r, y t = r' at hend
    cases hend with
    | ok h' => exact .ok (h'.markedAll _)
    | error h' => exact .error (h'.markedAll _)

section

variable {s : Interpreter} {values : List Value} {v : Value} {log : Log}

/-- Programs do not see the log. -/
theorem Interpreter.Sees.relogged (hv : s.Sees values v) : ({ s with image.log := log } : Interpreter).Sees values v := by
  induction hv with
  | given mem => exact .given mem
  | operand mem => exact .operand mem
  | slot mem => exact .slot (s := { s with image.log := log }) mem
  | value eq => exact .value (s := { s with image.log := log }) eq
  | saved mem eq => exact .saved (s := { s with image.log := log }) mem eq
  | car _ ih => exact .car ih
  | cdr _ ih => exact .cdr ih

/-- Nor is code held in it. -/
theorem Interpreter.Holds.relogged (hv : s.Holds values v) :
    ({ s with image.log := log } : Interpreter).Holds values v := by
  cases hv with
  | control => exact .control
  | env => exact .env
  | function known => exact .function known
  | caller mem => exact .caller mem
  | callerEnv mem => exact .callerEnv mem
  | join mem => exact .join mem
  | block mem => exact .block mem
  | tagbody mem => exact .tagbody mem
  | closure seen => exact .closure seen.relogged

theorem Interpreter.TagTable.relogged (ht : s.TagTable v) : ({ s with image.log := log } : Interpreter).TagTable v := by
  cases ht with
  | instruction instr => exact .instruction (s := { s with image.log := log }) instr
  | entered mem => exact .entered (s := { s with image.log := log }) mem

/-- So the pairs that are private are the same. -/
theorem Interpreter.Private.relogged {p : PairId} (hp : s.Private values p) :
    ({ s with image.log := log } : Interpreter).Private values p := by
  cases hp with
  | list held tail => exact .list held.relogged tail
  | instruction op among => exact .instruction (s := { s with image.log := log }) op among
  | table isTable tail => exact .table isTable.relogged tail
  | entry isTable tail car => exact .entry isTable.relogged tail car
  | environment car => exact .environment (s := { s with image.log := log }) car
  | closure seen => exact .closure seen.relogged

/-- Whether code and data are apart is not about the log. -/
theorem Interpreter.Separate.of_relogged (h : ({ s with image.log := log } : Interpreter).Separate values) :
    s.Separate values where
  proper v hv := h.proper v hv.relogged
  apart id hseen hprivate := h.apart id hseen.relogged hprivate.relogged

end

theorem Relogged.separate {s t : Interpreter} (h : Relogged s t) : s.Separate [] ↔ t.Separate [] := by
  obtain ⟨log⟩ := h
  have hback (hs : s.Separate []) : ({ s with image.log := log } : Interpreter).Separate [] :=
    Interpreter.Separate.of_relogged (s := { s with image.log := log }) hs
  exact ⟨hback, .of_relogged⟩

/-- Code and data are apart. -/
abbrev apart : Watch := fun _ _ s => s.Separate []

/-- The check on the one side has the same answer as the one on the other. -/
theorem relogged_ensure {x y : LispM α} (hxy : Together Relogged x y) (entries : List Interpreter) (flow : Flow) :
    Together Relogged (do ensure (·.Separate []); x) (do check apart entries flow; y) where
  run {s t} h := by
    by_cases hs : s.Separate []
    · have hx : ensure (·.Separate []) s = .ok () s := if_pos hs
      have hy : check apart entries flow t = .ok () t := if_pos (h.separate.1 hs)
      rw [bind_of_ok hx, bind_of_ok hy]
      exact hxy.run h
    · have hx : ensure (·.Separate []) s = .error stopped s := if_neg hs
      have hy : check apart entries flow t = .error stopped t := if_neg (mt h.separate.2 hs)
      rw [bind_of_error hx, bind_of_error hy]
      exact .error h

/-- The interpreter is looked at on the one side. -/
theorem relogged_get_right {x : LispM α} {f : Interpreter → LispM α} (hf : ∀ s, Together Relogged x (f s)) :
    Together Relogged x (get >>= f) where
  run {_ t} h := (hf t).run h

/-- Observed runs and those in which code and data are watched go together. -/
theorem relogged_observed (o : Observer) (fuel : Nat) :
    (∀ form env cont,
      Together Relogged (observedCompile o fuel form env cont) (watchedCompile apart fuel form env cont)) ∧
      ∀ entries flow, Together Relogged (observedRun o fuel flow) (watchedRun apart fuel entries flow) := by
  have h := relogged_machineCongruence
  -- Observations only add to the log. On the other side a check asks whether code and data are
  -- apart, which they are.
  induction fuel with
  | zero =>
    refine ⟨fun form env cont => ?_, fun entries flow => ?_⟩
    · rw [observedCompile, watchedCompile]
      exact together_throw _
    · rw [observedRun, watchedRun]
      exact together_throw _
  | succ fuel ih =>
    obtain ⟨hc, hr⟩ := ih
    refine ⟨fun form env cont => ?_, fun entries flow => ?_⟩
    · rw [observedCompile, watchedCompile]
      have hexpand := h.toTurningCongruence.expandMacro (h.execute (hr [] .next))
      exact relogged_observe (h.toDefiningCongruence.compileForm hc hexpand form env cont) o _ _
    · cases flow with
      | stop =>
        rw [observedRun, watchedRun]
        exact relogged_ensure (together_pure ()) entries .stop
      | next =>
        rw [observedRun, watchedRun]
        refine relogged_ensure ?_ entries .next
        refine (relogged_observe h.toRunningCongruence.step o _ _).bind fun flow => ?_
        exact relogged_get_right fun s => hr _ flow
      | request r =>
        rw [observedRun, watchedRun]
        refine relogged_ensure ?_ entries (.request r)
        refine (relogged_observe (h.serve hc (hr [] .next) fuel r) o _ _).bind fun flow => ?_
        exact relogged_get_right fun s => hr _ flow

namespace Session

/-- Code and data are apart in every session, so the check changes nothing. -/
theorem watched_apart (config : Config) (level : LogLevel) (commands : List Command) :
    run (.watched apart) config level commands = run .plain config level commands :=
  (run_of_flows (fun _ hf => hf.separate) config level commands).1

/-- An observed session goes as the plain one does. -/
theorem observed_relogged (o : Observer) (config : Config) (level : LogLevel) (commands : List Command) :
    (run (.observed o) config level commands).Relogged (run .plain config level commands) := by
  rw [← watched_apart]
  exact relogged_run (fun fuel => (relogged_observed o fuel).1) (fun fuel => (relogged_observed o fuel).2 [] .next)
    config level commands

end Session

end StackLisp
