import StackLisp.Proofs.Actions.Together

/-!
# Marked runs

To say something about what goes on in a run and in all the runs inside of it, one lets
the machine mark it in the log. A `Marking` says where marks are put: in the steps, at
the requests that are served, and around the runs inside of another one. `markedCompile`
and `markedRun` are the compiler and the machine with such marks.

Marks do nothing else: marked runs and plain ones go together in interpreters that
differ in the log only (`relogged_marked`).
-/

namespace StackLisp

open Interpreter Compiler Machine

variable {α β : Type}

/-! ## Runs with marks -/

/-- Puts a mark into the log if the interpreter gives rise to one. -/
def markSome (mark? : Interpreter → Option Mark) : LispM Unit := do
  if let some m := mark? (← get) then
    mark m

/-- Does something, and when that has come to a result, puts in a mark that the interpreters before
    and after it give rise to. -/
def noting (mark? : Interpreter → Interpreter → Option Mark) (x : LispM α) : LispM α := do
  let s ← get
  let a ← x
  markSome (mark? s)
  return a

/-- How a run is marked: in each step, where a request is served, and around each run inside. -/
structure Marking where
  step : LispM Flow
  request : Request → LispM Flow → LispM Flow
  inside : LispM Unit → LispM Unit

section

variable (m : Marking)

mutual

/-- Compiles a form in front of a continuation. -/
def markedCompile : Nat → CompileRule
  | 0, _, _, _ => throw .endless
  | fuel + 1, form, env, cont =>
    compileForm (markedCompile fuel) (expandMacro (m.inside (markedRun fuel .next))) form env cont

/-- Runs the machine until it stops. -/
def markedRun : Nat → Flow → LispM Unit
  | 0, _ => throw .endless
  | _ + 1, .stop => pure ()
  | fuel + 1, .next => do markedRun fuel (← m.step)
  | fuel + 1, .request r => do
    markedRun fuel (← m.request r (serve (markedCompile fuel) (m.inside (markedRun fuel .next)) fuel r))

end

end

/-- A congruence that goes through the marks goes from marked runs to plain ones. Calls may make
    use of what is marked at them. -/
theorem DefiningCongruence.marked {m : Marking} {𝓡 : ⦃α : Type⦄ → LispM α → LispM α → Prop}
    (h𝓡 : DefiningCongruence 𝓡) (hm : ReturningCongruence 𝓡) (hstep : 𝓡 m.step step)
    (hcall : ∀ argc mode, 𝓡 (m.request (.call argc mode) (call argc mode)) (call argc mode))
    (hrequest : ∀ {r : Request} {x y : LispM Flow}, (∀ argc mode, r ≠ .call argc mode) → 𝓡 x y →
      𝓡 (m.request r x) y)
    (hinside : ∀ {run run' : LispM Unit}, 𝓡 run run' → 𝓡 (m.inside run) run') (fuel : Nat) :
    (∀ form env cont, 𝓡 (markedCompile m fuel form env cont) (compileFrom fuel form env cont)) ∧
      ∀ flow, 𝓡 (markedRun m fuel flow) (runFrom fuel flow) := by
  have h := h𝓡.toCongruence
  -- The marks stand around steps and requests, so all that is between them is as in the plain run.
  induction fuel with
  | zero =>
    refine ⟨fun form env cont => ?_, fun flow => ?_⟩
    · rw [markedCompile, compileFrom]
      exact hm.endless
    · rw [markedRun, runFrom]
      exact hm.endless
  | succ fuel ih =>
    obtain ⟨hc, hr⟩ := ih
    have hrun := hinside (hr .next)
    refine ⟨fun form env cont => ?_, fun flow => ?_⟩
    · rw [markedCompile, compileFrom]
      exact h𝓡.compileForm hc (hm.expandMacro (hm.execute hrun)) form env cont
    · cases flow with
      | stop =>
        rw [markedRun, runFrom]
        exact h.quiet (quiet_pure ())
      | next =>
        rw [markedRun, runFrom]
        exact h.bind hstep hr
      | request r =>
        rw [markedRun, runFrom]
        refine h.bind ?_ hr
        -- A call is a request like the others, but it has to be related as a whole.
        by_cases hr : ∃ argc mode, r = .call argc mode
        · obtain ⟨argc, mode, rfl⟩ := hr
          exact hcall argc mode
        · have hother : ∀ argc mode, r ≠ .call argc mode := fun argc mode heq => hr ⟨argc, mode, heq⟩
          refine hrequest hother (hm.toTurningCongruence.serve (h.compileApart hc) (hm.execute hrun) fuel ?_ ?_)
          · exact fun argc mode heq => absurd heq (hother argc mode)
          · exact fun target value _ => hm.exitBlock target value fuel 0

/-- The same for a congruence that goes through everything. -/
theorem MachineCongruence.marked {m : Marking} {𝓡 : ⦃α : Type⦄ → LispM α → LispM α → Prop}
    (h𝓡 : MachineCongruence 𝓡) (hstep : 𝓡 m.step step)
    (hrequest : ∀ {r : Request} {x y : LispM Flow}, 𝓡 x y → 𝓡 (m.request r x) y)
    (hinside : ∀ {run run' : LispM Unit}, 𝓡 run run' → 𝓡 (m.inside run) run') (fuel : Nat) :
    (∀ form env cont, 𝓡 (markedCompile m fuel form env cont) (compileFrom fuel form env cont)) ∧
      ∀ flow, 𝓡 (markedRun m fuel flow) (runFrom fuel flow) :=
  h𝓡.toDefiningCongruence.marked h𝓡.toReturningCongruence hstep
    (fun argc mode => hrequest (h𝓡.toRunningCongruence.call argc mode)) (fun _ => hrequest) hinside fuel

/-! ## Marks do nothing else -/

/-- The interpreters differ in the log only. -/
inductive Relogged : Interpreter → Interpreter → Prop
  | intro (s : Interpreter) (log : Log) : Relogged s { s with image.log := log }

/-- Interpreters that differ in the log only are beside each other, with the same counts, dumps
    and exits. -/
theorem relogged_iff {s t : Interpreter} : Relogged s t ↔
    Beside (fun _ n d n' d' => n' = n ∧ d' = d) (fun d e d' e' => d' = d ∧ e' = e) s t := by
  constructor
  · rintro ⟨log⟩
    exact @Beside.intro _ _ s log s.machine.steps s.machine.maxDumpDepth s.machine.dump
      s.machine.exits ⟨rfl, rfl⟩ ⟨rfl, rfl⟩
  · rintro ⟨⟨rfl, rfl⟩, rfl, rfl⟩
    exact .intro s _

/-- What is beside each other does not see the log. -/
theorem unseen_relogged : Unseen Relogged where
  even hx := ⟨fun h => ((hx.beside _ _).run (relogged_iff.1 h)).mono fun _ _ => relogged_iff.2⟩
  scopes := by
    rintro s _ ⟨⟩
    rfl

/-- A quiet action does not look at the log. -/
theorem Quiet.relogged {x : LispM α} (hx : Quiet x) : Together Relogged x x := unseen_relogged.even hx.even

theorem relogged_view (f : Machine → α) : Together Relogged (view f) (view f) where
  run := by
    rintro s _ ⟨⟩
    exact .ok (.intro _ _)

theorem relogged_modifyMachine (f : Machine → Machine) :
    Together Relogged (modifyMachine f) (modifyMachine f) where
  run := by
    rintro s _ ⟨⟩
    exact .ok (.intro { s with machine := f s.machine } _)

/-- Nothing here depends on how deep the dump is. -/
theorem relogged_enter (code env : Value) (args : List Value) (mode : CallMode) :
    Together Relogged (enter code env args mode) (enter code env args mode) := by
  refine (quiet_heap _).relogged.bind fun frame => ?_
  refine (quiet_heap _).relogged.bind fun env => ?_
  cases mode with
  | push =>
    exact (relogged_view _).bind fun m => (relogged_modifyMachine _).bind fun _ => relogged_modifyMachine _
  | tail =>
    refine (relogged_view _).bind fun top => ?_
    split
    · exact (relogged_modifyMachine _).bind fun _ => relogged_modifyMachine _
    · exact (quiet_fault_bind ..).relogged

theorem relogged_applyRecursive (argc : Nat) :
    Together Relogged (applyRecursive argc) (applyRecursive argc) := by
  refine (quiet_popMany argc).relogged.bind fun args => ?_
  refine quiet_pop.relogged.bind fun callee => ?_
  split
  · refine (quiet_closureParts _).relogged.bind fun parts => ?_
    refine (quiet_query _ fun _ _ => rfl).relogged.bind fun head => ?_
    split
    · refine (quiet_heap _).relogged.bind fun _ => ?_
      refine (quiet_asks _ fun _ _ => rfl).relogged.bind fun code => ?_
      refine (relogged_view _).bind fun m => ?_
      refine (quiet_query _ fun _ _ => rfl).relogged.bind fun outer => ?_
      exact (relogged_modifyMachine _).bind fun _ => relogged_modifyMachine _
    · exact (quiet_fault _).relogged
  · exact (quiet_fault _).relogged

theorem relogged_leaveBlock (name target value : Value) :
    Together Relogged (leaveBlock name target value) (leaveBlock name target value) := by
  refine (relogged_view _).bind fun top => ?_
  dsimp only
  split
  · split
    · exact (quiet_fault_bind ..).relogged
    · refine (relogged_modifyMachine _).bind fun _ => ?_
      split
      · exact (relogged_modifyMachine _).bind fun _ => (quiet_pure _).relogged
      · exact (quiet_pure _).relogged
  · exact (quiet_fault _).relogged

theorem relogged_backTo (id tag : Value) : Together Relogged (backTo id tag) (backTo id tag) := by
  refine (relogged_view _).bind fun exits => ?_
  split
  · refine (quiet_walk _ (fun _ _ => rfl) fun _ _ => Heap.lookup_ordinary).relogged.bind fun code => ?_
    split
    · exact ((quiet_shown _).bind fun _ => quiet_fault _).relogged
    · exact (relogged_modifyMachine _).bind fun _ => (quiet_pure _).relogged
  · exact ((quiet_shown _).bind fun _ => quiet_fault _).relogged

/-- One case for each of the turns. -/
theorem Turns.relogged {x : LispM α} (hx : Turns x) : Together Relogged x x := by
  -- Each turn reads the dump or the exits, which are the same, and changes them in the same way.
  cases hx with
  | pushDump entry => exact relogged_modifyMachine _
  | enter code env args mode => exact relogged_enter code env args mode
  | applyRecursive argc => exact relogged_applyRecursive argc
  | join =>
    refine (relogged_view _).bind fun top => ?_
    split
    · exact relogged_modifyMachine _
    · exact (quiet_fault _).relogged
  | continuationMode =>
    refine (relogged_view _).bind fun m => ?_
    refine (quiet_asks _ fun _ _ => rfl).relogged.bind fun returns => ?_
    split <;> exact (quiet_pure _).relogged
  | enterBlock name => exact relogged_modifyMachine _
  | endBlock name =>
    refine (relogged_view _).bind fun top => ?_
    split
    · split
      · exact relogged_modifyMachine _
      · exact (quiet_fault _).relogged
    · exact (quiet_fault _).relogged
  | leaveBlock name target value => exact relogged_leaveBlock name target value
  | enterTagbody id table => exact relogged_modifyMachine _
  | endTagbody =>
    refine (relogged_view _).bind fun top => ?_
    split
    · exact relogged_modifyMachine _
    · exact (quiet_fault _).relogged
  | backTo id tag => exact relogged_backTo id tag

theorem relogged_returnToCaller : Together Relogged returnToCaller returnToCaller := by
  refine (relogged_view _).bind fun top => ?_
  split
  · exact relogged_modifyMachine _
  · exact (quiet_fault _).relogged
  · exact (quiet_fault _).relogged

/-- The same step is refused on both sides. -/
theorem relogged_count : Together Relogged count count := by
  refine (relogged_modifyMachine _).bind fun _ => ?_
  refine (relogged_view _).bind fun m => ?_
  split
  · split
    · exact (unseen_relogged.even (even_raise _))
    · exact (quiet_pure _).relogged
  · exact (quiet_pure _).relogged

/-- What looks at the whole state has to do the same with another log. -/
theorem relogged_get {f g : Interpreter → LispM β}
    (hfg : ∀ s log, Together Relogged (f s) (g { s with image.log := log })) :
    Together Relogged (get >>= f) (get >>= g) where
  run := by
    rintro s _ ⟨log⟩
    exact (hfg s log).run (.intro s log)

/-- The registers and the count of runs are the same on both sides. -/
theorem relogged_execute {run run' : LispM Unit} (hrun : Together Relogged run run') (code : Value)
    (args : List Value) :
    Together Relogged (Interpreter.execute run code args) (Interpreter.execute run' code args) := by
  rw [execute_eq, execute_eq]
  refine (quiet_argumentEnv args).relogged.bind fun env => ?_
  refine relogged_get fun s log => ?_
  refine (relogged_modifyMachine _).bind fun _ => ?_
  refine (hrun.bind fun _ => quiet_pop.relogged).attempt.bind fun result => ?_
  unfold leaveRun
  refine (relogged_modifyMachine _).bind fun _ => ?_
  cases result with
  | ok v =>
    exact (relogged_modifyMachine _).bind fun _ => together_resume _
  | error e =>
    exact (unseen_relogged.even (even_unwindBindings _)).bind fun _ =>
      (relogged_modifyMachine _).bind fun _ => together_resume _

/-- Everything goes together that does not read the log, and nothing does. -/
theorem relogged_machineCongruence : MachineCongruence fun _ x y => Together Relogged x y where
  toDefiningCongruence := unseen_relogged.definingCongruence
  walk _ hg _ := unseen_relogged.even (even_walk hg)
  count := relogged_count
  turns hx := hx.relogged
  bindSpecial id v := unseen_relogged.even (even_bindSpecial id v)
  unbindSpecial id := unseen_relogged.even (even_unbindSpecial id)
  unwindBindings height := unseen_relogged.even (even_unwindBindings height)
  returnToCaller := relogged_returnToCaller
  execute := relogged_execute
  setCar _ _ := unseen_relogged.even (even_heap _)
  setCdr _ _ := unseen_relogged.even (even_heap _)
  setValue _ _ := unseen_relogged.even (even_symbols _)

/-- A mark before an action, on the one side. -/
theorem relogged_mark {x y : LispM α} (hxy : Together Relogged x y) (m : Mark) :
    Together Relogged (do mark m; x) y where
  run := by
    rintro s _ ⟨log⟩
    exact hxy.run (.intro (s.marked m) log)

theorem Relogged.refl (s : Interpreter) : Relogged s s := .intro s s.image.log

/-- A mark on the one side makes no difference but in the log. -/
theorem Relogged.marked {s t : Interpreter} (h : Relogged s t) (m : Mark) : Relogged (s.marked m) t := by
  obtain ⟨log⟩ := h
  exact .intro (s.marked m) log

/-- A mark is put in, or nothing is done. -/
theorem markSome_eq (mark? : Interpreter → Option Mark) (s : Interpreter) :
    markSome mark? s = .ok () ((mark? s).elim s s.marked) := by
  simp only [markSome, Bind.bind, EStateM.bind, get_apply]
  cases mark? s <;> rfl

theorem Relogged.noted {s t : Interpreter} (h : Relogged s t) (m? : Option Mark) :
    Relogged (m?.elim s s.marked) t := by
  cases m? with
  | none => exact h
  | some m => exact h.marked m

/-- The mark comes after the action, on the one side. -/
theorem relogged_noting {x y : LispM α} (hxy : Together Relogged x y)
    (mark? : Interpreter → Interpreter → Option Mark) : Together Relogged (noting mark? x) y where
  run {s t} h := by
    simp only [noting, Bind.bind, EStateM.bind, get_apply]
    have hend := hxy.run h
    generalize x s = r, y t = r' at hend
    cases hend with
    | error h' => exact .error h'
    | ok h' =>
      dsimp only
      rw [markSome_eq]
      exact .ok (h'.noted _)

/-- Marked runs and plain ones go together. -/
theorem relogged_marked {m : Marking} (hstep : Together Relogged m.step step)
    (hrequest : ∀ {r : Request} {x y : LispM Flow}, Together Relogged x y → Together Relogged (m.request r x) y)
    (hinside : ∀ {run run' : LispM Unit}, Together Relogged run run' → Together Relogged (m.inside run) run')
    (fuel : Nat) :
    (∀ form env cont, Together Relogged (markedCompile m fuel form env cont) (compileFrom fuel form env cont)) ∧
      ∀ flow, Together Relogged (markedRun m fuel flow) (runFrom fuel flow) :=
  relogged_machineCongruence.marked hstep hrequest hinside fuel

/-! ## Marks for instructions -/

/-- A step of the machine that marks its instruction. -/
def markedStep : LispM Flow := do
  count
  let code ← fetch
  mark .instruction
  noteStep code
  Machine.execute code

/-- A run inside of another one, with a mark if it is out of steps. -/
def markedInside (run : LispM Unit) : LispM Unit := do
  let result ← attempt run
  if result matches .error (.error .stepLimit) then
    mark .exhausted
  resume result

/-- A mark for every instruction about to be executed, and for every run inside of another one that
    is out of steps. -/
def Marking.instructions : Marking := ⟨markedStep, fun _ x => x, markedInside⟩

/-- Runs with marks for instructions and plain ones go together. -/
theorem relogged_instructions (fuel : Nat) (flow : Flow) :
    Together Relogged (markedRun .instructions fuel flow) (runFrom fuel flow) := by
  refine (relogged_marked ?_ (fun hxy => hxy) (fun {run run'} hrun => ?_) fuel).2 flow
  · rw [step_eq]
    refine relogged_count.bind fun _ => ?_
    refine quiet_fetch.relogged.bind fun code => ?_
    refine relogged_mark ?_ _
    exact (quiet_noteStep code).relogged.bind fun _ =>
      relogged_machineCongruence.toRunningCongruence.executeInstruction code
  -- A run that is caught and resumed at once is that run, so the mark may be made before its
  -- failure goes on.
  · have hends : (attempt run' >>= resume) = run' := by
      funext s
      simp only [Bind.bind, EStateM.bind, attempt]
      cases run' s <;> rfl
    rw [← hends]
    refine hrun.attempt.bind fun result => ?_
    split
    · exact relogged_mark (together_resume _) .exhausted
    · exact together_resume _

end StackLisp
