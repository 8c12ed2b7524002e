import StackLisp.Proofs.Actions.Marked
import StackLisp.Proofs.ConstantDepth

/-!
# Audited runs

To say something about every moment of a session, one lets the machine look whether it
holds there, and put a mark into the log if it does not. `Engine.audited P` is the compiler
and the machine, where `P` is looked at before every instruction and before every request
is served, also in the runs that `eval` and macros start while another one is going on.
What holds at a moment may depend on what has happened before. So every frame that a call
enters is marked as well, with the number of arguments that its function requires.

* Marks do nothing else: an audited session goes as the plain one, and the two differ in
  the log only (`Session.audited_relogged`).
* What holds at every moment of a run in order, if its past is in order, is never found at
  fault (`Engine.audited_inOrder`, `Session.Orderly.history`).
-/

namespace StackLisp

open Interpreter Layout Machine Compiler

variable {α β : Type}

/-! ## Entering frames -/

/-- How many arguments the call has that comes next, if one does. -/
def Interpreter.argc? (s : Interpreter) : Flow → Option Nat
  | .request (.call argc _) => some argc
  | .next =>
    match s.image.heap.instruction? s.machine.control with
    | some (.ap, [v], _) | some (.tap, [v], _) => v.count?
    | _ => none
  | _ => none

/-- The function that the call enters that comes next, if one does. -/
def Interpreter.callee? (s : Interpreter) (flow : Flow) : Option FunctionId := do
  let argc ← s.argc? flow
  let callee ← s.machine.stack.items[argc]?
  s.image.heap.callee? callee

/-- The mark for the frame that a call has entered, if one came next at `s`. A call that has
    entered none is at fault. -/
def Interpreter.entry? (s : Interpreter) (flow : Flow) (s' : Interpreter) : Option Mark :=
  (s.callee? flow).map fun f =>
    match s'.frame? with
    | some frame => .entered frame (s.image.function f).arity.min
    | none => .fault

/-- Goes on from a moment, and marks the frame that is entered. -/
def recorded (flow : Flow) (x : LispM Flow) : LispM Flow := noting (fun s s' => s.entry? flow s') x

/-! ## Audits -/

/-- What is looked at at the moments of a run: what comes next, and the interpreter. -/
abbrev Audit := Flow → Interpreter → Prop

open Classical in
/-- Puts a mark into the log unless a property holds. -/
noncomputable def audit (P : Audit) (flow : Flow) : LispM Unit := do
  unless P flow (← get) do
    mark .fault

section

variable (P : Audit)

mutual

/-- Compiles a form in front of a continuation. -/
noncomputable def auditedCompile : Nat → CompileRule
  | 0, _, _, _ => throw .endless
  | fuel + 1, form, env, cont =>
    compileForm (auditedCompile fuel) (expandMacro (auditedRun fuel .next)) form env cont

/-- Runs the machine until it stops. -/
noncomputable def auditedRun : Nat → Flow → LispM Unit
  | 0, _ => throw .endless
  | fuel + 1, flow => do
    audit P flow
    match flow with
    | .stop => pure ()
    | .next => do auditedRun fuel (← recorded .next step)
    | .request r => do
      auditedRun fuel (← recorded (.request r) (serve (auditedCompile fuel) (auditedRun fuel .next) fuel r))

end

/-- The compiler and the machine, with an audit at every moment. -/
noncomputable def Engine.audited : Engine := ⟨auditedCompile P, fun fuel => auditedRun P fuel .next⟩

end

open Classical in
theorem audit_eq (P : Audit) (flow : Flow) (s : Interpreter) :
    audit P flow s = .ok () (if P flow s then s else s.marked .fault) := by
  simp only [audit, Bind.bind, EStateM.bind, get_apply]
  split <;> rfl

/-! ## Audits do nothing else -/

theorem relogged_audit {x y : LispM α} (hxy : Together Relogged x y) (P : Audit) (flow : Flow) :
    Together Relogged (do audit P flow; x) y where
  run {s t} h := by
    simp only [Bind.bind, EStateM.bind, audit_eq]
    split
    · exact hxy.run h
    · exact hxy.run (h.marked .fault)

/-- Audited runs and plain ones go together. -/
theorem relogged_engine (P : Audit) (fuel : Nat) :
    (∀ form env cont,
      Together Relogged (auditedCompile P fuel form env cont) (compileFrom fuel form env cont)) ∧
      ∀ flow, Together Relogged (auditedRun P fuel flow) (runFrom fuel flow) := by
  have h := relogged_machineCongruence
  -- An audit only writes to the log, which nothing reads.
  induction fuel with
  | zero =>
    refine ⟨fun form env cont => ?_, fun flow => ?_⟩
    · rw [auditedCompile, compileFrom]
      exact together_throw _
    · rw [auditedRun, runFrom]
      exact together_throw _
  | succ fuel ih =>
    obtain ⟨hc, hr⟩ := ih
    refine ⟨fun form env cont => ?_, fun flow => ?_⟩
    · rw [auditedCompile, compileFrom]
      exact h.toDefiningCongruence.compileForm hc (h.toTurningCongruence.expandMacro (h.execute (hr .next)))
        form env cont
    · cases flow with
      | stop =>
        rw [auditedRun, runFrom]
        exact relogged_audit (together_pure ()) P .stop
      | next =>
        rw [auditedRun, runFrom]
        exact relogged_audit ((relogged_noting h.toRunningCongruence.step _).bind hr) P .next
      | request r =>
        rw [auditedRun, runFrom]
        exact relogged_audit ((relogged_noting (h.serve hc (hr .next) fuel r) _).bind hr) P _

/-- Reading is not about the log. -/
theorem relogged_reading (text : List Char) (x : ReadM α) :
    Together Relogged (liftM (Image.reading text x) : LispM (α × List Char × Nat))
      (liftM (Image.reading text x)) where
  run := by
    rintro s _ ⟨log⟩
    change Matches Relogged (onImage (Image.reading text x) s)
      (onImage (Image.reading text x) { s with image.log := log })
    simp only [onImage, Image.reading]
    generalize x _ = r
    cases r with
    | ok a r => exact .ok (.intro { s with image.heap := r.heap, image.symbols := r.symbols } log)
    | error e r => exact .error (.intro { s with image.heap := r.heap, image.symbols := r.symbols } log)

/-- Actions on the image, one after the other. -/
theorem liftM_image_bind (x : ImageM α) (f : α → ImageM β) :
    (liftM (x >>= f) : LispM β) = (liftM x : LispM α) >>= fun a => (liftM (f a) : LispM β) := by
  funext s
  change onImage (x >>= f) s = (onImage x >>= fun a => onImage (f a)) s
  simp only [onImage, Bind.bind, EStateM.bind]
  cases x s.image <;> rfl

theorem relogged_readOne (text : String) :
    Together Relogged (liftM (Image.readOne text) : LispM Value) (liftM (Image.readOne text)) := by
  unfold Image.readOne Image.readNext Image.readWithin
  simp only [liftM_image_bind]
  refine ((relogged_reading _ _).bind fun _ => ?_).bind fun form? => ?_
  · exact together_pure _
  · cases form? with
    | none => exact together_throw _
    | some form => exact together_pure _

namespace Session

/-- The sessions differ in the log of their interpreters only. -/
structure Relogged (session session' : Session) : Prop where
  interpreter : StackLisp.Relogged session.interpreter session'.interpreter
  values : session'.values = session.values
  codes : session'.codes = session.codes
  failures : session'.failures = session.failures

section

variable {session session' : Session}

theorem Relogged.keepValue (h : session.Relogged session') (v : Value) :
    (session.keepValue v).Relogged (session'.keepValue v) :=
  ⟨h.interpreter, congrArg (v :: ·) h.values, h.codes, h.failures⟩

theorem Relogged.keepCode (h : session.Relogged session') (c : Value) :
    (session.keepCode c).Relogged (session'.keepCode c) :=
  ⟨h.interpreter, h.values, congrArg (c :: ·) h.codes, h.failures⟩

/-- Actions that go together lead to sessions that differ in the log only. -/
theorem Relogged.act {x y : LispM α} {keep : α → Session → Session} (h : session.Relogged session')
    (hxy : Together StackLisp.Relogged x y)
    (hkeep : ∀ {a : α} {session session' : Session}, session.Relogged session' →
      (keep a session).Relogged (keep a session')) :
    (session.act x keep).Relogged (session'.act y keep) := by
  have hend := hxy.run h.interpreter
  unfold Session.act
  generalize x session.interpreter = r, y session'.interpreter = r' at hend
  cases hend with
  | ok h' => exact hkeep ⟨h', h.values, h.codes, h.failures⟩
  | @error e _ _ h' => exact ⟨h', h.values, h.codes, congrArg (e :: ·) h.failures⟩

section

variable {engine engine' : Engine}
  (hc : ∀ fuel form env cont, Together StackLisp.Relogged (engine.compile fuel form env cont)
    (engine'.compile fuel form env cont))
  (hr : ∀ fuel, Together StackLisp.Relogged (engine.run fuel) (engine'.run fuel))

include hc hr

/-- Commands are performed alike with engines that go together. -/
theorem Relogged.perform (h : session.Relogged session') (command : Command) :
    (session.perform engine command).Relogged (session'.perform engine' command) := by
  cases command with
  | read text => exact h.act (relogged_readOne text) fun h => h.keepValue _
  | cons i j =>
    simp only [Session.perform, h.values]
    split
    · exact h.act (quiet_heap _).relogged fun h => h.keepValue _
    · exact h
  | compile i fuel =>
    simp only [Session.perform, h.values]
    split
    · refine h.act ?_ fun h => h.keepCode _
      exact relogged_machineCongruence.toDefiningCongruence.toCongruence.compileToplevel (hc fuel) _
    · exact h
  | execute i fuel =>
    simp only [Session.perform, h.codes]
    split
    · refine h.act ?_ fun h => h.keepValue _
      exact relogged_execute (hr fuel) _ []
    · exact h

/-- Sessions go alike with engines that go together. -/
theorem relogged_run (config : Config) (level : LogLevel) (commands : List Command) :
    (run engine config level commands).Relogged (run engine' config level commands) := by
  have hgoes {session session' : Session} (h : session.Relogged session') :
      (commands.foldl (perform engine) session).Relogged (commands.foldl (perform engine') session') := by
    induction commands generalizing session session' with
    | nil => exact h
    | cons command commands ih => exact ih (h.perform hc hr command)
  exact hgoes ⟨.refl _, rfl, rfl, rfl⟩

end

end

/-- An audited session goes as the plain one does. -/
theorem audited_relogged (P : Audit) (config : Config) (level : LogLevel) (commands : List Command) :
    (run (.audited P) config level commands).Relogged (run .plain config level commands) :=
  relogged_run (fun fuel => (relogged_engine P fuel).1) (fun fuel => (relogged_engine P fuel).2 .next)
    config level commands

end Session

/-! ## What is never found at fault -/

section

variable {n : Nat} {L L' : Layout} {rest : List SavedValue} {K : Trail} {argc : Nat} {flow : Flow}
  {s s' : Interpreter} {P : Audit}

theorem alike_marked (s : Interpreter) (m : Mark) : Alike s (s.marked m) :=
  ⟨rfl, rfl, rfl, rfl, rfl, rfl, rfl, rfl, rfl, rfl⟩

/-- Where the code goes on does not matter to what a call enters. -/
theorem Alike.enters {s₁ : Interpreter} (ha : Alike s s₁) (he : L'.Enters s₁ argc s') : L'.Enters s argc s' := by
  intro callee f hcallee hf
  have hfunction : s₁.image.function f = s.image.function f := by simp only [Image.function, ha.functions]
  exact hfunction ▸ he callee f (ha.stack ▸ hcallee) (ha.heap ▸ hf)

/-- Runs go on in the same way after a mark. -/
theorem Alike.flows (ha : Alike s s') (hcontrol : s'.machine.control = s.machine.control)
    (hf : Flows n L rest K flow s) : Flows n L rest K flow s' := by
  cases flow with
  | next =>
    have hr : Runs n L rest K s.machine.control s := hf
    exact show Runs n L rest K s'.machine.control s' from hcontrol ▸ ha.runs hr
  | stop =>
    obtain ⟨env, hK, hnil, hi⟩ := hf
    exact ⟨env, hK, hcontrol.trans hnil, ha.inside hi⟩
  | request r =>
    obtain ⟨env, st, hy, hcode⟩ := hf
    refine ⟨env, st, ?_, hcontrol ▸ ha.heap ▸ hcode⟩
    cases r with
    | call argc mode => exact ⟨ha.inside hy.1, fun hm => hcontrol ▸ ha.heap ▸ hy.2 hm⟩
    | _ => exact ⟨hy.1, ha.inside hy.2⟩

/-- At a call, the instruction says how many arguments there are. -/
theorem Interpreter.argc?_next (h : s.argc? .next = some argc) :
    ∃ code v k, (code = .ap ∨ code = .tap) ∧
      s.image.heap.instruction? s.machine.control = some (code, [v], k) ∧ v.count? = some argc := by
  simp only [argc?] at h
  split at h
  · next v k heq => exact ⟨.ap, v, k, .inl rfl, heq, h⟩
  · next v k heq => exact ⟨.tap, v, k, .inr rfl, heq, h⟩
  · cases h

/-- A step that calls a function enters a frame with the slots that it needs. -/
theorem safe_step_enters (hr : Runs n L rest K s.machine.control s) (hargc : s.argc? .next = some argc) :
    Safe (Goes n rest) L step s fun L' flow s' => Continues n rest K L' flow s' ∧ L'.Enters s argc s' := by
  obtain ⟨code, v, k, hcall, hinstr, hcount⟩ := Interpreter.argc?_next hargc
  refine hr.safe_step_of fun {s₁ code₁} ha hread => ?_
  rcases hr with ⟨hi, hcode⟩ | ⟨-, hload, -, -⟩
  · obtain ⟨code', vs, k', instr, hlen⟩ := hcode.instr
    obtain ⟨rfl, rfl, rfl⟩ : code' = code ∧ vs = [v] ∧ k' = k := by
      simpa using (instr.instruction? hlen).symm.trans hinstr
    obtain ⟨rfl, ho⟩ := hread _ _ _ (ha.heap ▸ instr)
    obtain ⟨st', rfl, hnext⟩ := hcode.call_inv K.whole_base hcall hinstr hcount
    rw [← ha.heap] at hnext
    -- The instruction at the control is `AP` or `TAP`, and its operands are the ones the layout
    -- gives it.
    have henters : Safe (Goes n rest) L (Machine.execute code') s₁ fun L' flow s' =>
        Continues n rest K L' flow s' ∧ L'.Enters s₁ argc s' := by
      rcases hcall with rfl | rfl
      · exact safe_ap (ha.inside hi) hnext ho hcount
      · obtain ⟨-, -, hreturns⟩ := hcode.tap_inv K.whole_base hinstr
        exact safe_tap (ha.inside hi) hnext (ha.heap ▸ hreturns) ho hcount
    exact henters.mono fun _ _ _ _ h => ⟨h.1, ha.enters h.2⟩
  -- Right after a `DUM` the next instruction is an `LDF`, which is no call.
  · obtain ⟨rfl, -, -⟩ : _ = _ ∧ _ = _ ∧ _ = _ := by simpa using (hload.instruction? rfl).symm.trans hinstr
    exact absurd hcall (by decide)

/-- A request that calls a function enters such a frame, too. -/
theorem safe_serve_enters {compile : CompileRule} {run : LispM Unit} {fuel : Nat} {r : Request}
    (hf : Flows n L rest K (.request r) s) (hargc : s.argc? (.request r) = some argc) :
    Safe (Goes n rest) L (serve compile run fuel r) s fun L' flow s' =>
      Continues n rest K L' flow s' ∧ L'.Enters s argc s' := by
  obtain ⟨env, st, hy, hcode⟩ := hf
  cases r with
  | call argc' mode =>
    obtain rfl := Option.some.inj hargc
    exact safe_call hy.1 hcode hy.2
  | _ => cases hargc

/-- The frame that is marked is known to have the slots that the mark says. -/
theorem entry?_of_enters {mark : Mark} (hargc : s.argc? flow = some argc) (he : L.Enters s argc s')
    (hentry : s.entry? flow s' = some mark) : ∃ frame m, mark = .entered frame m ∧ L.slots frame = some m := by
  simp only [Interpreter.entry?, Interpreter.callee?, hargc, Option.bind_eq_bind, Option.bind_some,
    Option.map_eq_some_iff, Option.bind_eq_some_iff] at hentry
  obtain ⟨f, ⟨callee, hcallee, hf⟩, rfl⟩ := hentry
  obtain ⟨frame, hframe, hslots⟩ := he callee f hcallee hf
  exact ⟨frame, _, by rw [hframe], hslots⟩

/-- A mark changes the past only. -/
theorem goes_marked {m : Mark} (g : Goes n rest L s L s)
    (history : History L s.image → History L (s.marked m).image) : Goes n rest L s L (s.marked m) :=
  ⟨g.grows, (alike_marked s m).sound g.sound, history, g.bindings⟩

/-- Marking a frame that has been entered. -/
theorem safe_markEntry (g : Goes n rest L s' L s') (henters : ∀ argc, s.argc? flow = some argc → L.Enters s argc s') :
    Safe (Goes n rest) L (markSome (s.entry? flow)) s' fun L' _ s'' =>
      L' = L ∧ Alike s' s'' ∧ s''.machine = s'.machine := by
  unfold Safe
  rw [leads_of_ok (markSome_eq ..)]
  cases hentry : s.entry? flow s' with
  | none => exact ⟨L, g, rfl, ⟨rfl, rfl, rfl, rfl, rfl, rfl, rfl, rfl, rfl, rfl⟩, rfl⟩
  | some mark =>
    refine ⟨L, goes_marked g fun hi => ?_, rfl, alike_marked s' mark, rfl⟩
    cases hargc : s.argc? flow with
    | none => simp [Interpreter.entry?, Interpreter.callee?, hargc] at hentry
    | some argc =>
      obtain ⟨frame, m, rfl, hslots⟩ := entry?_of_enters hargc (henters argc hargc) hentry
      exact hi.enter hslots rfl rfl (marks_marked s' _)

/-- Looking whether something holds that always does. -/
theorem safe_audit (g : Goes n rest L s L s) (hP : History L s.image → P flow s) :
    Safe (Goes n rest) L (audit P flow) s fun L' _ s' => L' = L ∧ Alike s s' ∧ s'.machine = s.machine := by
  unfold Safe
  rw [leads_of_ok (audit_eq P flow s)]
  split
  · exact ⟨L, g, rfl, ⟨rfl, rfl, rfl, rfl, rfl, rfl, rfl, rfl, rfl, rfl⟩, rfl⟩
  · next hfault => exact ⟨L, goes_marked g fun hi => absurd (hP hi) hfault, rfl, alike_marked s _, rfl⟩

/-- Marking the frames that are entered keeps a run in order. -/
theorem safe_recorded {x : LispM Flow} (hx : Safe (Goes n rest) L x s (Continues n rest K))
    (henters : ∀ argc, s.argc? flow = some argc →
      Safe (Goes n rest) L x s fun L' flow' s' => Continues n rest K L' flow' s' ∧ L'.Enters s argc s') :
    Safe (Goes n rest) L (recorded flow x) s (Continues n rest K) := by
  unfold recorded noting
  refine safe_get_bind.2 ?_
  -- What is recorded after the step is about the state the step leads to, and recording it moves
  -- nothing but the log.
  have hend {L' : Layout} {flow' : Flow} {s' : Interpreter} (g : Goes n rest L s L' s')
      (hgo : Continues n rest K L' flow' s') (henters : ∀ argc, s.argc? flow = some argc → L'.Enters s argc s') :
      Safe (Goes n rest) L' (do markSome (s.entry? flow); return flow') s' (Continues n rest K) := by
    refine (safe_markEntry (Evolution.refl g) henters).bind ?_
    rintro _ _ s'' g' ⟨rfl, ha, hmachine⟩
    obtain ⟨K', hK, hf⟩ := hgo
    exact Safe.pure (Evolution.refl g') ⟨K', hK, ha.flows (congrArg (·.control) hmachine) hf⟩
  cases hargc : s.argc? flow with
  | none => exact hx.bind fun L' flow' s' g hgo => hend g hgo fun argc hargc' => by simp [hargc] at hargc'
  | some argc =>
    refine (henters argc hargc).bind fun L' flow' s' g hgo => ?_
    refine hend g hgo.1 fun argc' hargc' => ?_
    obtain rfl := Option.some.inj (hargc.symm.trans hargc')
    exact hgo.2

/-- What holds at every moment of a run in order, if its past is in order, is never found at
    fault. -/
theorem audited_and_runs
    (hP : ∀ {n : Nat} {L : Layout} {rest : List SavedValue} {K : Trail} {flow : Flow} {s : Interpreter},
      History L s.image → Flows n L rest K flow s → P flow s) (fuel : Nat) :
    Compiles (auditedCompile P fuel) ∧
      ∀ {n : Nat} {L : Layout} {rest : List SavedValue} {K : Trail} {flow : Flow} {s : Interpreter},
        Flows n L rest K flow s → Safe (Goes n rest) L (auditedRun P fuel flow) s (Stopped n rest) := by
  -- The induction is on the fuel, as for plain runs; what is new is only the audit in front of each
  -- flow.
  induction fuel with
  | zero =>
    refine ⟨fun hr _ => ?_, fun hf => ?_⟩
    · rw [auditedCompile]
      exact Safe.throw hr.refl trivial
    · rw [auditedRun]
      exact Safe.throw hf.goes trivial
  | succ fuel ih =>
    obtain ⟨hc, hr⟩ := ih
    have hrun : RunsInOrder (auditedRun P fuel .next) := fun hruns => hr hruns
    refine ⟨fun hready hform => ?_, fun {n L rest K flow s} hf => ?_⟩
    · rw [auditedCompile]
      exact compiles_compileForm hc hrun.expands hready hform
    -- An audit finds no fault in what is in order, and leaves everything but the log as it was.
    · have haudited {x : LispM Unit}
          (hx : ∀ s', Flows n L rest K flow s' → Safe (Goes n rest) L x s' (Stopped n rest)) :
          Safe (Goes n rest) L (do audit P flow; x) s (Stopped n rest) := by
        refine (safe_audit hf.goes fun hi => hP hi hf).bind ?_
        rintro _ _ s' - ⟨rfl, ha, hmachine⟩
        exact hx s' (ha.flows (congrArg (·.control) hmachine) hf)
      cases flow with
      | stop =>
        rw [auditedRun]
        refine haudited fun s' hf => ?_
        obtain ⟨env, rfl, -, hi⟩ := hf
        exact Safe.pure hi.goes ⟨env, hi⟩
      | next =>
        rw [auditedRun]
        refine haudited fun s' hf => ?_
        refine (safe_recorded (safe_step hf) fun argc => safe_step_enters hf).bind ?_
        rintro L' flow' s'' - ⟨K', -, hf'⟩
        exact hr hf'
      | request r =>
        rw [auditedRun]
        refine haudited fun s' hf => ?_
        refine (safe_recorded (safe_serve hc hrun hf) fun argc => safe_serve_enters hf).bind ?_
        rintro L' flow' s'' - ⟨K', -, hf'⟩
        exact hr hf'

theorem Engine.audited_inOrder
    (hP : ∀ {n : Nat} {L : Layout} {rest : List SavedValue} {K : Trail} {flow : Flow} {s : Interpreter},
      History L s.image → Flows n L rest K flow s → P flow s) : (audited P).InOrder :=
  ⟨fun fuel => (audited_and_runs hP fuel).1, fun fuel _ _ _ _ hr => (audited_and_runs hP fuel).2 hr⟩

/-- Audited sessions are in order. -/
theorem Session.audited_orderly
    (hP : ∀ {n : Nat} {L : Layout} {rest : List SavedValue} {K : Trail} {flow : Flow} {s : Interpreter},
      History L s.image → Flows n L rest K flow s → P flow s)
    (config : Config) (level : LogLevel) (commands : List Command) :
    ∃ L, (run (.audited P) config level commands).Orderly L := by
  obtain ⟨L, ho⟩ := orderly_start config level
  exact ho.performAll (Engine.audited_inOrder hP) commands

end

end StackLisp
