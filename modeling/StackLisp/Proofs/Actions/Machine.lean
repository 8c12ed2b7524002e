import StackLisp.Proofs.Actions.Compiler

/-!
# The machine and congruences

The machine is quiet, too, apart from assigning symbols and from beginning and
ending dynamic bindings. A congruence that holds of those, and goes from a run to
a run in registers of its own, holds of every step and of everything that the
machine is asked for (`RunningCongruence.step`, `MachineCongruence.serve`). By
induction on the bound, so it does of the compiler and the machine as a whole
(`MachineCongruence.engine`).
-/

namespace StackLisp

open Interpreter Compiler Machine

variable {α : Type}

/-! ## What is quiet -/

theorem quiet_push (v : Value) : Quiet (push v) := quiet_modifyMachine (fun _ => ⟨rfl, rfl⟩) (fun _ => ⟨rfl, rfl⟩) fun _ _ _ _ _ => rfl

theorem quiet_pushMany (vs : List Value) : Quiet (pushMany vs) := quiet_modifyMachine (fun _ => ⟨rfl, rfl⟩) (fun _ => ⟨rfl, rfl⟩) fun _ _ _ _ _ => rfl

/-- An empty stack is met by a fault, and the stack is the same in parallel interpreters. -/
theorem quiet_pop : Quiet pop where
  ordinaryIn s := by
    unfold Leads pop
    cases s.machine.stack.pop? <;> trivial
  calm s := by
    unfold Leads pop
    cases s.machine.stack.pop? <;> exact ⟨⟨rfl, rfl, rfl, rfl⟩, .refl _, rfl, rfl, rfl, rfl⟩
  even := ⟨fun κ ρ => ⟨by
    rintro s _ ⟨hcounts, hways⟩
    unfold pop
    simp only [diverted]
    cases s.machine.stack.pop? with
    | none => exact .error (.intro hcounts hways)
    | some top => exact .ok (.intro (s := { s with machine.stack := top.2 }) hcounts hways)⟩⟩

theorem quiet_peek : Quiet peek where
  ordinaryIn s := by
    unfold Leads peek
    cases s.machine.stack.top? <;> trivial
  calm s := by
    unfold Leads peek
    cases s.machine.stack.top? <;> exact .refl s
  even := ⟨fun κ ρ => ⟨by
    rintro s _ ⟨hcounts, hways⟩
    unfold peek
    simp only [diverted]
    cases s.machine.stack.top? with
    | none => exact .error (.intro hcounts hways)
    | some v => exact .ok (.intro hcounts hways)⟩⟩

/-- As many values as are asked for are there, or none is taken. -/
theorem quiet_popMany (n : Nat) : Quiet (popMany n) where
  ordinaryIn s := by
    unfold Leads popMany
    cases s.machine.stack.popMany? n <;> trivial
  calm s := by
    unfold Leads popMany
    cases s.machine.stack.popMany? n <;> exact ⟨⟨rfl, rfl, rfl, rfl⟩, .refl _, rfl, rfl, rfl, rfl⟩
  even := ⟨fun κ ρ => ⟨by
    rintro s _ ⟨hcounts, hways⟩
    unfold popMany
    simp only [diverted]
    cases s.machine.stack.popMany? n with
    | none => exact .error (.intro hcounts hways)
    | some top => exact .ok (.intro (s := { s with machine.stack := top.2 }) hcounts hways)⟩⟩

theorem quiet_popTwo : Quiet popTwo where
  ordinaryIn s := by
    unfold Leads popTwo
    match s.machine.stack.items with
    | [] | [_] => trivial
    | _ :: _ :: _ => trivial
  calm s := by
    unfold Leads popTwo
    match s.machine.stack.items with
    | [] | [_] | _ :: _ :: _ => exact ⟨⟨rfl, rfl, rfl, rfl⟩, .refl _, rfl, rfl, rfl, rfl⟩
  even := ⟨fun κ ρ => ⟨by
    rintro s _ ⟨hcounts, hways⟩
    unfold popTwo
    simp only [diverted]
    match s.machine.stack.items with
    | [] | [_] => exact .error (.intro hcounts hways)
    | _ :: _ :: _ =>
      exact .ok (.intro (s := { s with machine.stack := s.machine.stack.drop 2 }) hcounts hways)⟩⟩

/-- The stream goes on by one pair, which is a change of a register. -/
theorem quiet_operand : Quiet operand where
  ordinaryIn s := by
    unfold Leads operand
    cases s.machine.control <;> trivial
  calm s := by
    unfold Leads operand
    cases s.machine.control <;> exact ⟨⟨rfl, rfl, rfl, rfl⟩, .refl _, rfl, rfl, rfl, rfl⟩
  even := ⟨fun κ ρ => ⟨by
    intro s t h
    -- The two states differ in counters, log, dump and exits, and an operand is read from none of
    -- these.
    have hcontrol : t.machine.control = s.machine.control := by
      obtain ⟨-, -⟩ := h
      rfl
    unfold operand
    rw [hcontrol]
    cases s.machine.control with
    | pair id =>
      obtain ⟨hcounts, hways⟩ := h
      exact .ok (.intro (s := { s with machine.control := s.image.heap.cdr id }) hcounts hways)
    | _ => exact .error h⟩⟩

theorem quiet_operandIndex : Quiet operandIndex := by
  refine quiet_operand.bind fun v => ?_
  split
  · split
    · exact quiet_pure _
    · exact quiet_fault _
  · exact quiet_fault _

theorem quiet_operandSymbol : Quiet operandSymbol := by
  refine quiet_operand.bind fun v => ?_
  split
  · exact quiet_pure _
  · exact quiet_fault _

/-- The end of the stream, and what is no opcode, are met by faults. -/
theorem quiet_fetch : Quiet fetch := by
  refine (quiet_view _ fun _ _ _ _ _ => rfl).bind fun atEnd => ?_
  dsimp only
  split
  · exact quiet_raise_bind _ _ trivial
  · refine quiet_operand.bind fun v => ?_
    split
    · exact quiet_pure _
    · exact (quiet_shown _).bind fun _ => quiet_fault _

theorem quiet_skipOperands : ∀ n, Quiet (skipOperands n)
  | 0 => quiet_pure _
  | n + 1 => quiet_operand.bind fun _ => quiet_skipOperands n

/-- An environment that ends too early gives the empty one, and one that is no list an ordinary
    error. -/
theorem ordinaryResult_outward (h : Heap) : ∀ (n : Nat) (env : Value), OrdinaryResult (outward h n env)
  | 0, env => ⟨by cases env <;> nofun⟩
  | n + 1, env => by
    have houter := ordinaryResult_outward h n
    cases env with
    | nil => exact ⟨nofun⟩
    | _ => exact inferInstanceAs (OrdinaryResult (do outward h n (← h.tail _)))

instance (h : Heap) (n : Nat) (env : Value) : OrdinaryResult (outward h n env) := ordinaryResult_outward h n env

/-- The frames are numbered from the environment on, which is a register. -/
theorem quiet_frameAt (n : Nat) : Quiet (Machine.frameAt n) := by
  refine (quiet_view _ fun _ _ _ _ _ => rfl).bind fun env => ?_
  refine (quiet_query _ fun _ _ => rfl).bind fun v => ?_
  split
  · exact quiet_pure _
  · exact quiet_fault _

theorem quiet_done (v : Value) : Quiet (done v) := (quiet_push v).bind fun _ => quiet_pure _

theorem quiet_doneBool (b : Bool) : Quiet (doneBool b) := quiet_done _

theorem quiet_wrongArgument (expected : Expectation) (operation : String) (v : Value) :
    Quiet (wrongArgument expected operation v : LispM α) :=
  (quiet_shown v).bind fun _ => quiet_raise _ trivial

theorem quiet_intArg (operation : String) (v : Value) : Quiet (intArg operation v) := by
  unfold intArg
  split
  · exact quiet_pure _
  · exact quiet_wrongArgument ..

theorem quiet_symbolArg (operation : String) (v : Value) : Quiet (symbolArg operation v) := by
  unfold symbolArg
  split
  · exact quiet_pure _
  · exact quiet_wrongArgument ..

theorem quiet_pairArg (operation : String) (v : Value) : Quiet (pairArg operation v) := by
  unfold pairArg
  split
  · exact quiet_pure _
  · exact quiet_wrongArgument ..

/-- An argument that has to be a list is gone along to its end. -/
theorem quiet_listArg (operation : String) (v : Value) : Quiet (listArg operation v) := by
  refine (quiet_elements? v).bind fun items => ?_
  split
  · exact quiet_pure _
  · exact quiet_wrongArgument ..

theorem quiet_predicate (f : Value → Bool) : Quiet (predicate f) :=
  quiet_pop.bind fun _ => quiet_doneBool _

instance (operation : String) (n : Int) : OrdinaryResult (Fixnum.exact operation n) where
  ordinary heq := by
    unfold Fixnum.exact at heq
    split at heq <;> cases heq
    trivial

/-- A calculation goes from number to number, and each step has an ordinary result. -/
theorem ordinaryResult_foldlM {f : Int64 → Int64 → Except Error Int64} [∀ a b, OrdinaryResult (f a b)] :
    ∀ (ns : List Int64) (a : Int64), OrdinaryResult (ns.foldlM f a)
  | [], a => inferInstanceAs (OrdinaryResult (.ok a))
  | n :: ns, a => by
    rw [List.foldlM_cons]
    have hrest := ordinaryResult_foldlM (f := f) ns
    infer_instance

instance (ns : List Int64) : OrdinaryResult (Fixnum.sum ns) := ordinaryResult_foldlM ns 0

instance (ns : List Int64) : OrdinaryResult (Fixnum.product ns) := ordinaryResult_foldlM ns 1

instance (ns : List Int64) : OrdinaryResult (Fixnum.difference ns) := by
  unfold Fixnum.difference
  split
  · infer_instance
  · infer_instance
  · exact ordinaryResult_foldlM ..

instance (operation : String) (a b : Int64) : OrdinaryResult (Fixnum.remainder operation a b) := by
  unfold Fixnum.remainder
  split
  · exact ⟨fun heq => by cases heq; trivial⟩
  · infer_instance

instance (a b : Int64) : OrdinaryResult (Fixnum.mod a b) := by
  unfold Fixnum.mod
  split
  · exact ⟨fun heq => by cases heq; trivial⟩
  · infer_instance

instance (n : Int64) : OrdinaryResult (Fixnum.increment n) := inferInstanceAs (OrdinaryResult (Fixnum.exact ..))

instance (n : Int64) : OrdinaryResult (Fixnum.decrement n) := inferInstanceAs (OrdinaryResult (Fixnum.exact ..))

instance (n : Int64) : OrdinaryResult (Fixnum.magnitude n) := inferInstanceAs (OrdinaryResult (Fixnum.exact ..))

/-- Taking the operands off the stack is quiet, and so is the calculation. -/
theorem quiet_arithmetic (operation : String) (argc : Nat) (f : List Int64 → Except Error Int64)
    [∀ ns, OrdinaryResult (f ns)] : Quiet (arithmetic operation argc f) :=
  (quiet_popMany argc).bind fun _ => (Quiet.mapM (quiet_intArg operation) _).bind fun _ =>
    (quiet_ofExcept _).bind fun _ => quiet_done _

theorem quiet_arithmeticOne (operation : String) (f : Int64 → Except Error Int64)
    [∀ n, OrdinaryResult (f n)] : Quiet (arithmeticOne operation f) :=
  quiet_pop.bind fun _ => (quiet_intArg ..).bind fun _ =>
    (quiet_ofExcept _).bind fun _ => quiet_done _

theorem quiet_comparison (operation : String) (argc : Nat) (f : List Int64 → Bool) :
    Quiet (comparison operation argc f) :=
  (quiet_popMany argc).bind fun _ => (Quiet.mapM (quiet_intArg operation) _).bind fun _ =>
    quiet_doneBool _

theorem quiet_checkArity (arity : Arity) (name : String) (argc : Nat) :
    Quiet (checkArity arity name argc) := quiet_ofExcept _

/-- The table of primitives tells the arity. -/
theorem quiet_checkPrimitive (id : PrimitiveId) (argc : Nat) : Quiet (checkPrimitive id argc) := by
  refine (quiet_asks _ fun _ _ => rfl).bind fun p => ?_
  refine (quiet_nameOf _).bind fun name => ?_
  refine (quiet_checkArity ..).bind fun _ => ?_
  split
  · exact quiet_pure _
  · exact quiet_raise _ trivial

/-- A closure is a pair of its function and its environment. -/
theorem looks_closureParts (id : PairId) : Looks (closureParts id) := by
  refine (looks_asks _ fun _ _ => rfl).bind fun v => ?_
  split
  · exact (looks_asks _ fun _ _ => rfl).bind fun _ => looks_pure _
  · exact looks_raise _ trivial

theorem quiet_closureParts (id : PairId) : Quiet (closureParts id) := (looks_closureParts id).quiet

/-- Changes of what an image has printed, and of its source of random numbers. -/
theorem quiet_modify {f : Image → Image} (hf : ∀ i log, f { i with log } = { f i with log })
    (hsymbols : ∀ i, (f i).symbols = i.symbols) (hheap : ∀ i, (f i).heap = i.heap)
    (hfunctions : ∀ i, (f i).functions = i.functions) (hlog : ∀ i, (f i).log = i.log) :
    Quiet (modify fun s => { s with image := f s.image } : LispM Unit) where
  ordinaryIn _ := trivial
  calm s := ⟨⟨hsymbols s.image, rfl, rfl, congrArg Log.marks (hlog s.image)⟩,
    (hheap s.image) ▸ .refl _, hfunctions s.image, rfl, rfl, rfl⟩
  even := ⟨fun κ ρ => ⟨by
    rintro s _ ⟨hcounts, hways⟩
    rename_i log steps depth dump exits
    refine (?_ : Matches _ (.ok () { s with image := f s.image })
      (.ok () { s.diverted log steps depth dump exits with image := f { s.image with log } }))
    rw [hf s.image log]
    exact .ok (.intro (s := { s with image := f s.image }) hcounts hways)⟩⟩

/-- The source of random numbers is part of the image, and goes on by one draw. -/
theorem quiet_chooseBelow (limit : Int64) : Quiet (chooseBelow limit) :=
  (quiet_asks _ fun _ _ => rfl).bind fun _ =>
    Quiet.bind (quiet_modify (f := fun i => { i with draws := _ }) (fun _ _ => rfl)
      (fun _ => rfl) (fun _ => rfl) (fun _ => rfl) fun _ => rfl) fun _ => quiet_pure _

/-- A copy is made of every list but the last. -/
theorem quiet_appendLists (lists : List Value) (tail : Value) : Quiet (appendLists lists tail) :=
  Quiet.foldrM (fun _ _ => (quiet_listArg ..).bind fun _ => quiet_heap _) lists tail

/-- Without a limit, counting is all there is to it. -/
theorem count_of_unlimited {s : Interpreter} (hs : s.machine.maxSteps = none) :
    count s = .ok () { s with machine.steps := s.machine.steps + 1 } := by
  simp only [count, Bind.bind, EStateM.bind, modifyMachine_apply, view, hs]
  rfl

/-- A walk only looks at the heap, so whatever keeps it from ending, nothing is changed. -/
theorem mild_walk (g : Image → Except Failure α) : Mild (walk g) where
  leads s := by
    rw [leads_walk]
    split <;> exact .refl s

/-- Counting a step leaves everything alone but the count. -/
theorem mild_count : Mild count := by
  refine Mild.bind ⟨fun _ => ⟨rfl, rfl, rfl, rfl⟩⟩ fun _ => ?_
  refine (calms_view _).mild.bind fun m => ?_
  split
  · split
    · exact ⟨fun s => .refl s⟩
    · exact (quiet_pure _).mild
  · exact (quiet_pure _).mild

/-- No limit refuses a step in parallel interpreters. -/
theorem together_count (ρ : Ways) : Together (Parallel ρ) count count := ⟨by
  intro s t h
  obtain ⟨hmax, hways⟩ := h
  rename_i log steps depth dump exits
  rw [count_of_unlimited hmax, count_of_unlimited (s := s.diverted log steps depth dump exits) hmax]
  exact .ok (.intro (s := { s with machine.steps := s.machine.steps + 1 }) hmax hways)⟩

theorem quiet_argumentEnv (args : List Value) : Quiet (liftM (argumentEnv args) : LispM Value) :=
  quiet_heap _

/-- The line of the log for an instruction, if steps are logged. -/
def noteStep (code : Opcode) : LispM Unit := do
  let m ← view id
  if m.trace then
    Image.record .trace (traceLine code m)

/-- The step, with the line for the log as an action of its own. -/
theorem step_eq : step = (do
    count
    let code ← fetch
    noteStep code
    Machine.execute code) := by
  unfold step noteStep
  refine bind_congr fun _ => ?_
  refine bind_congr fun code => ?_
  rw [bind_assoc]
  refine bind_congr fun m => ?_
  cases m.trace <;> rfl

/-- At most a line of the log is written, and a line is no mark. -/
theorem noteStep_ends (code : Opcode) (s : Interpreter) :
    ∃ log, log.marks = s.image.log.marks ∧ noteStep code s = .ok () { s with image.log := log } := by
  simp only [noteStep, Bind.bind, EStateM.bind, view, id]
  split
  · have hlevel : LogLevel.trace ≠ .off := by decide
    obtain ⟨log, hlog, hmarks⟩ := record_marks hlevel (traceLine code s.machine) s
    exact ⟨log, hmarks, hlog⟩
  · exact ⟨s.image.log, rfl, rfl⟩

/-- Whether steps are logged is the same in parallel interpreters, and the log does not matter. -/
theorem quiet_noteStep (code : Opcode) : Quiet (noteStep code) where
  ordinaryIn s := by
    obtain ⟨log, -, hlog⟩ := noteStep_ends code s
    exact (leads_of_ok hlog).2 trivial
  calm s := by
    obtain ⟨log, hmarks, hlog⟩ := noteStep_ends code s
    exact (leads_of_ok hlog).2 ⟨⟨rfl, rfl, rfl, hmarks⟩, .refl _, rfl, rfl, rfl, rfl⟩
  even := ⟨fun κ ρ => ⟨by
    rintro s _ ⟨hcounts, hways⟩
    rename_i log steps depth dump exits
    obtain ⟨log₁, -, h₁⟩ := noteStep_ends code s
    obtain ⟨log₂, -, h₂⟩ := noteStep_ends code (s.diverted log steps depth dump exits)
    rw [h₁, h₂]
    exact .ok (.intro (s := { s with image.log := log₁ }) hcounts hways)⟩⟩

/-! ## Turns -/

/-- Goes to a tag of an active tagbody, where the bindings are still to be ended down to a
    height. -/
def backTo (id tag : Value) : LispM Nat := do
  let exits ← view (·.exits.dropUntil (isTagbody id))
  match exits.top? with
  | some (.tagbody _ table env dump stack bindings) =>
    match ← walk (·.heap.lookup tag table) with
    | none => fault (.tagNotInTagbody (← shown tag))
    | some code =>
      modifyMachine fun m =>
        { m with
          exits
          env
          dump := m.dump.truncate dump
          stack := m.stack.truncate stack
          control := code }
      return bindings
  | _ => fault (.tagbodyNotActive (← shown tag))

/-- Going to a tag, with the ends of bindings apart from the rest. -/
theorem goTo_eq (id tag : Value) : goTo id tag = backTo id tag >>= unwindBindings := by
  unfold goTo backTo
  rw [bind_assoc]
  refine bind_congr fun exits => ?_
  rcases exits.top? with _ | (_ | _)
  · rfl
  · rfl
  · dsimp only
    rw [bind_assoc]
    refine bind_congr fun code => ?_
    cases code <;> rfl

/-- Leaves the innermost exit, which has to be the block of a name. If that is the block looked
    for, the machine is brought back to its entry, with a value. -/
def leaveBlock (name target value : Value) : LispM Bool := do
  match ← view (·.exits.pop?) with
  | some (.block entered stack env, exits) =>
    if entered ≠ name then
      fault .exitCrossedBlock
    modifyMachine fun m => { m with exits }
    if name = target then
      modifyMachine fun m => { m with env, stack := (m.stack.truncate stack).push value }
      return true
    else
      return false
  | _ => fault .exitCrossedBlock

/-- The instruction that a walk to the end of a block meets next. -/
def meet (target : Value) : LispM Opcode := do
  match ← attempt fetch with
  | .ok code => pure code
  | .error (.error _) => fault (.exitRanOff (← shown target))
  | .error .endless => throw .endless

/-- What a walk to the end of a block does at an instruction: it comes to its end, or it goes on
    with a count of constructs entered on the walk. -/
def pass (target value : Value) (skipped : Nat) : Opcode → LispM (Option Nat)
  | .stop => do fault (.blockNotActive (← shown target))
  | .rtn => do
    returnToCaller
    return some skipped
  | .join => do
    join
    return some skipped
  | .tsel => do
    let thenCode ← operand
    let _ ← operand
    modifyMachine fun m => { m with control := thenCode }
    return some skipped
  | .block => do
    skipOperands Opcode.block.operandCount
    return some (skipped + 1)
  | .tagbody => do
    skipOperands Opcode.tagbody.operandCount
    return some (skipped + 1)
  | .bind => do
    skipOperands Opcode.bind.operandCount
    return some (skipped + 1)
  | .blockend => do
    let name ← operand
    match skipped with
    | skipped + 1 => return some skipped
    | 0 => return if ← leaveBlock name target value then none else some 0
  | .tagend =>
    match skipped with
    | skipped + 1 => return some skipped
    | 0 => do
      endTagbody
      return some 0
  | .unbind => do
    let symbol ← operandSymbol
    match skipped with
    | skipped + 1 => return some skipped
    | 0 =>
      unbindSpecial symbol
      return some 0
  | code => do
    skipOperands code.operandCount
    return some skipped

/-- A walk to the end of a block, as what it does at one instruction and the walk from there. -/
theorem exitBlock_succ (target value : Value) (fuel skipped : Nat) :
    exitBlock target value (fuel + 1) skipped = (do
      let code ← meet target
      match ← pass target value skipped code with
      | none => pure ()
      | some skipped => exitBlock target value fuel skipped) := by
  -- Both sides fetch the same operation code. From there on they differ only in how the rest of the
  -- walk is nested, which is settled by associativity in each case.
  conv => lhs; rw [exitBlock.eq_def]
  unfold meet
  rw [bind_assoc]
  refine bind_congr fun fetched => ?_
  rcases fetched with (_ | _) | code
  · rfl
  · rfl
  · dsimp only
    rw [pure_bind, pure_bind]
    cases code <;> simp only [pass, bind_assoc, pure_bind]
    -- The end of a block that may be the target decides between the end of the walk and the rest.
    case blockend =>
      refine bind_congr fun name => ?_
      cases skipped with
      | succ skipped => rfl
      | zero =>
        dsimp only
        unfold leaveBlock
        rw [bind_assoc, bind_assoc]
        refine bind_congr fun top => ?_
        rcases top with _ | ⟨_ | _, _⟩
        · rfl
        · dsimp only
          split
          · rfl
          · simp only [bind_assoc]
            refine bind_congr fun _ => ?_
            split <;> simp
        · rfl
    case tagend =>
      cases skipped with
      | succ skipped => rfl
      | zero =>
        dsimp only
        rw [bind_assoc]
        rfl
    case unbind =>
      refine bind_congr fun symbol => ?_
      cases skipped with
      | succ skipped => rfl
      | zero =>
        dsimp only
        rw [bind_assoc]
        rfl
    case stop => rfl

/-- Fetching always ends, so it is reported when a walk runs off its code. -/
theorem quiet_meet (target : Value) : Quiet (meet target) where
  ordinaryIn s := by
    refine (leads_bind _).2 (leads_attempt.2 ((quiet_fetch.ordinaryIn s).mono (fun _ _ _ => trivial) fun e s' he => ?_))
    -- A fetch that failed becomes a fault that names the target; giving up stays giving up.
    cases e with
    | error e => exact ((quiet_shown _).bind fun _ => quiet_fault _).ordinaryIn s'
    | endless => exact he
  calm s := by
    refine (leads_bind _).2 (leads_attempt.2 ((quiet_fetch.calm s).mono (fun _ _ h => h) fun e s' hs' => ?_))
    cases e with
    | error e =>
      exact (((quiet_shown _).bind fun _ => quiet_fault _).calm s').mono (fun _ _ h => hs'.trans h)
        fun _ _ h => hs'.trans h
    | endless => exact hs'
  even := by
    refine quiet_fetch.even.attempt.bind fun fetched => ?_
    split
    · exact even_pure _
    · exact ((quiet_shown _).bind fun _ => quiet_fault _).even
    · exact even_throw _

/-- The actions that look at the dump or the exits or change them, except for returning. -/
inductive Turns : {α : Type} → LispM α → Prop
  | pushDump (entry : DumpEntry) : Turns (pushDump entry)
  | enter (code env : Value) (args : List Value) (mode : CallMode) : Turns (enter code env args mode)
  | applyRecursive (argc : Nat) : Turns (applyRecursive argc)
  | join : Turns join
  | continuationMode : Turns continuationMode
  | enterBlock (name : Value) : Turns (enterBlock name)
  | endBlock (name : Value) : Turns (endBlock name)
  | leaveBlock (name target value : Value) : Turns (leaveBlock name target value)
  | enterTagbody (id table : Value) : Turns (enterTagbody id table)
  | endTagbody : Turns endTagbody
  | backTo (id tag : Value) : Turns (backTo id tag)

/-- The dump is a register, and how deep it gets is not asked of a calm action. -/
theorem calms_pushDump (entry : DumpEntry) : Calms (pushDump entry) :=
  calms_modifyMachine (fun _ => ⟨rfl, rfl⟩) fun _ => ⟨rfl, rfl⟩

/-- The arguments go into a frame, and the continuation on the dump or, in a tail call, nowhere. -/
theorem calms_enter (code env : Value) (args : List Value) (mode : CallMode) :
    Calms (enter code env args mode) := by
  refine (quiet_heap _).toCalms.bind fun frame => ?_
  refine (quiet_heap _).toCalms.bind fun env => ?_
  have hgo : Calms (modifyMachine fun m => { m with env, control := code }) :=
    calms_modifyMachine (fun _ => ⟨rfl, rfl⟩) fun _ => ⟨rfl, rfl⟩
  cases mode with
  | push => exact (calms_view _).bind fun m => (calms_pushDump _).bind fun _ => hgo
  | tail =>
    refine (calms_view _).bind fun top => ?_
    split
    · exact Calms.bind (calms_modifyMachine (fun _ => ⟨rfl, rfl⟩) fun _ => ⟨rfl, rfl⟩) fun _ => hgo
    · exact (quiet_fault_bind ..).toCalms

/-- The frame that is filled was there before, but it is no pair. -/
theorem calms_applyRecursive (argc : Nat) : Calms (applyRecursive argc) := by
  refine (quiet_popMany argc).toCalms.bind fun args => ?_
  refine quiet_pop.toCalms.bind fun callee => ?_
  split
  · refine (quiet_closureParts _).toCalms.bind fun parts => ?_
    refine (quiet_query _ fun _ _ => rfl).toCalms.bind fun head => ?_
    split
    · refine (quiet_heap _).toCalms.bind fun _ => ?_
      refine (quiet_asks _ fun _ _ => rfl).toCalms.bind fun code => ?_
      refine (calms_view _).bind fun m => ?_
      refine (quiet_query _ fun _ _ => rfl).toCalms.bind fun outer => ?_
      exact (calms_pushDump _).bind fun _ => calms_modifyMachine (fun _ => ⟨rfl, rfl⟩) fun _ => ⟨rfl, rfl⟩
    · exact (quiet_fault _).toCalms
  · exact (quiet_fault _).toCalms

theorem calms_returnToCaller : Calms returnToCaller := by
  refine (calms_view _).bind fun top => ?_
  split
  · exact calms_modifyMachine (fun _ => ⟨rfl, rfl⟩) fun _ => ⟨rfl, rfl⟩
  · exact (quiet_fault _).toCalms
  · exact (quiet_fault _).toCalms

theorem calms_leaveBlock (name target value : Value) : Calms (leaveBlock name target value) := by
  refine (calms_view _).bind fun top => ?_
  dsimp only
  split
  · split
    · exact (quiet_fault_bind ..).toCalms
    · refine Calms.bind (calms_modifyMachine (fun _ => ⟨rfl, rfl⟩) fun _ => ⟨rfl, rfl⟩) fun _ => ?_
      split
      · exact Calms.bind (calms_modifyMachine (fun _ => ⟨rfl, rfl⟩) fun _ => ⟨rfl, rfl⟩) fun _ => (quiet_pure _).toCalms
      · exact (quiet_pure _).toCalms
  · exact (quiet_fault _).toCalms

/-- The registers are set back to those of the tagbody. -/
theorem calms_backTo (id tag : Value) : Calms (backTo id tag) := by
  refine (calms_view _).bind fun exits => ?_
  split
  · refine (quiet_walk _ (fun _ _ => rfl) fun _ _ => Heap.lookup_ordinary).toCalms.bind fun code => ?_
    split
    · exact ((quiet_shown _).bind fun _ => quiet_fault _).toCalms
    · exact Calms.bind (calms_modifyMachine (fun _ => ⟨rfl, rfl⟩) fun _ => ⟨rfl, rfl⟩) fun _ => (quiet_pure _).toCalms
  · exact ((quiet_shown _).bind fun _ => quiet_fault _).toCalms

/-- A turn is no change of symbols, bindings, pairs or pending tail calls. -/
theorem Turns.calms {x : LispM α} (hx : Turns x) : Calms x := by
  -- Most of these are a look at the top entries and one update of the machine; entering a function
  -- and leaving a block have lemmas of their own.
  cases hx with
  | pushDump entry => exact calms_pushDump entry
  | enter code env args mode => exact calms_enter code env args mode
  | applyRecursive argc => exact calms_applyRecursive argc
  | join =>
    refine (calms_view _).bind fun top => ?_
    split
    · exact calms_modifyMachine (fun _ => ⟨rfl, rfl⟩) fun _ => ⟨rfl, rfl⟩
    · exact (quiet_fault _).toCalms
  | continuationMode =>
    refine (calms_view _).bind fun m => ?_
    refine (quiet_asks _ fun _ _ => rfl).toCalms.bind fun returns => ?_
    split <;> exact (quiet_pure _).toCalms
  | enterBlock name => exact calms_modifyMachine (fun _ => ⟨rfl, rfl⟩) fun _ => ⟨rfl, rfl⟩
  | endBlock name =>
    refine (calms_view _).bind fun top => ?_
    split
    · split
      · exact calms_modifyMachine (fun _ => ⟨rfl, rfl⟩) fun _ => ⟨rfl, rfl⟩
      · exact (quiet_fault _).toCalms
    · exact (quiet_fault _).toCalms
  | leaveBlock name target value => exact calms_leaveBlock name target value
  | enterTagbody id table => exact calms_modifyMachine (fun _ => ⟨rfl, rfl⟩) fun _ => ⟨rfl, rfl⟩
  | endTagbody =>
    refine (calms_view _).bind fun top => ?_
    split
    · exact calms_modifyMachine (fun _ => ⟨rfl, rfl⟩) fun _ => ⟨rfl, rfl⟩
    · exact (quiet_fault _).toCalms
  | backTo id tag => exact calms_backTo id tag

/-! ## What goes through -/

/-- The instructions that may assign a symbol, by themselves or by what they call. -/
def Opcode.isAssignmentOrCall : Opcode → Bool
  | .setg | .ap | .tap | .callp => true
  | _ => false

/-- The primitives that change a symbol or a pair. -/
def Builtin.isAssignment : Builtin → Bool
  | .set | .rplaca | .rplacd => true
  | _ => false

/-- A congruence that also goes through counting steps, dynamic bindings and turns. -/
structure TurningCongruence (𝓡 : ⦃α : Type⦄ → LispM α → LispM α → Prop) : Prop
    extends BasicCongruence 𝓡 where
  /-- A walk along the heap may have other reasons not to end than that a list goes in circles. -/
  walk : ∀ {α : Type} (g : Image → Except Failure α), (∀ i log, g { i with log } = g i) →
    (∀ i e, g i = .error e → e = .endless) → 𝓡 (walk g) (walk g)
  count : 𝓡 count count
  turns : ∀ {α : Type} {x : LispM α}, Turns x → 𝓡 x x
  bindSpecial : ∀ id v, 𝓡 (bindSpecial id v) (bindSpecial id v)
  unbindSpecial : ∀ id, 𝓡 (unbindSpecial id) (unbindSpecial id)
  unwindBindings : ∀ height, 𝓡 (unwindBindings height) (unwindBindings height)

/-- A congruence that also goes through returning, and from a run to one in registers of its
    own. -/
structure ReturningCongruence (𝓡 : ⦃α : Type⦄ → LispM α → LispM α → Prop) : Prop
    extends TurningCongruence 𝓡 where
  returnToCaller : 𝓡 returnToCaller returnToCaller
  execute : ∀ {run run' : LispM Unit}, 𝓡 run run' →
    ∀ code args, 𝓡 (execute run code args) (execute run' code args)

/-- A congruence that also goes through changing pairs. -/
structure BindingCongruence (𝓡 : ⦃α : Type⦄ → LispM α → LispM α → Prop) : Prop
    extends ReturningCongruence 𝓡 where
  setCar : ∀ id v, 𝓡 (liftM (modify (·.setCar id v) : HeapM Unit) : LispM Unit)
    (liftM (modify (·.setCar id v) : HeapM Unit))
  setCdr : ∀ id v, 𝓡 (liftM (modify (·.setCdr id v) : HeapM Unit) : LispM Unit)
    (liftM (modify (·.setCdr id v) : HeapM Unit))

/-- A congruence that goes through what the machine does, definitions apart. -/
structure RunningCongruence (𝓡 : ⦃α : Type⦄ → LispM α → LispM α → Prop) : Prop
    extends BindingCongruence 𝓡 where
  setValue : ∀ id v, 𝓡 (liftM (SymbolTable.setValue id v) : LispM Unit) (SymbolTable.setValue id v)

/-- A congruence that goes through everything. -/
structure MachineCongruence (𝓡 : ⦃α : Type⦄ → LispM α → LispM α → Prop) : Prop
    extends DefiningCongruence 𝓡, RunningCongruence 𝓡

/-- A mild congruence that also goes through dynamic bindings, and from a run to one in
    registers of its own. -/
structure MildBindingCongruence (𝓡 : ⦃α : Type⦄ → LispM α → LispM α → Prop) : Prop
    extends MildCongruence 𝓡 where
  bindSpecial : ∀ id v, 𝓡 (bindSpecial id v) (bindSpecial id v)
  unbindSpecial : ∀ id, 𝓡 (unbindSpecial id) (unbindSpecial id)
  unwindBindings : ∀ height, 𝓡 (unwindBindings height) (unwindBindings height)
  execute : ∀ {run run' : LispM Unit}, 𝓡 run run' →
    ∀ code args, 𝓡 (execute run code args) (execute run' code args)

/-- Turns and changes of pairs are mild. -/
theorem MildBindingCongruence.bindingCongruence {𝓡 : ⦃α : Type⦄ → LispM α → LispM α → Prop}
    (h𝓡 : MildBindingCongruence 𝓡) : BindingCongruence 𝓡 where
  toBasicCongruence := h𝓡.toMildCongruence.congruence.toBasicCongruence
  walk g _ _ := h𝓡.mild (mild_walk g)
  count := h𝓡.mild mild_count
  turns hx := h𝓡.mild hx.calms.mild
  bindSpecial := h𝓡.bindSpecial
  unbindSpecial := h𝓡.unbindSpecial
  unwindBindings := h𝓡.unwindBindings
  returnToCaller := h𝓡.mild calms_returnToCaller.mild
  execute := h𝓡.execute
  setCar _ _ := h𝓡.mild ⟨fun _ => ⟨rfl, rfl, rfl, rfl⟩⟩
  setCdr _ _ := h𝓡.mild ⟨fun _ => ⟨rfl, rfl, rfl, rfl⟩⟩

namespace BasicCongruence

variable {𝓡 : ⦃α : Type⦄ → LispM α → LispM α → Prop} (h𝓡 : BasicCongruence 𝓡)
  {run run' : LispM Unit} {expand expand' : ExpandRule}

include h𝓡

/-- Whether a form is a macro call is only looked up. -/
theorem macroexpandOnce (he : ∀ f args, 𝓡 (expand f args) (expand' f args)) (form : Value) :
    𝓡 (macroexpandOnce expand form) (macroexpandOnce expand' form) := by
  refine h𝓡.after (quiet_asks _ fun _ _ => rfl) fun call? => ?_
  split
  · exact h𝓡.bind (he ..) fun _ => h𝓡.quiet (quiet_pure _)
  · exact h𝓡.quiet (quiet_pure _)

variable (hx : ∀ code args, 𝓡 (execute run code args) (execute run' code args))

include hx

/-- The code for the call is made on the heap, and then run. -/
theorem apply (f : Value) (args : List Value) : 𝓡 (apply run f args) (apply run' f args) :=
  h𝓡.after (quiet_heap _) fun code => hx code []

/-- An expander is applied like any function, after its arity has been checked. -/
theorem expandMacro (f : FunctionId) (args : Value) :
    𝓡 (expandMacro run f args) (expandMacro run' f args) := by
  refine h𝓡.after (quiet_asks _ fun _ _ => rfl) fun name => ?_
  refine h𝓡.after (quiet_asks _ fun _ _ => rfl) fun definition => ?_
  split
  · refine h𝓡.after (quiet_elements? _) fun argv => ?_
    split
    · refine h𝓡.after (quiet_checkArity ..) fun _ => ?_
      exact h𝓡.after (quiet_heap _) fun closure =>
        h𝓡.apply hx ..
    · exact h𝓡.quiet (quiet_invalid ..)
  · exact h𝓡.quiet (quiet_fault _)

end BasicCongruence

namespace TurningCongruence

variable {𝓡 : ⦃α : Type⦄ → LispM α → LispM α → Prop} (h𝓡 : TurningCongruence 𝓡)

include h𝓡

/-- Being out of fuel is like a walk that does not end. -/
theorem endless {α : Type} : 𝓡 (throw .endless : LispM α) (throw .endless) :=
  h𝓡.walk (fun _ => .error .endless) (fun _ _ => rfl) fun _ _ he => by
    cases he
    rfl

/-- The way back to the tagbody is a turn, after which the bindings are ended. -/
theorem goTo (id tag : Value) : 𝓡 (goTo id tag) (goTo id tag) := by
  rw [goTo_eq]
  exact h𝓡.bind (h𝓡.turns (.backTo id tag)) h𝓡.unwindBindings

/-- A call of a closure or of a function is a turn. Anything else is refused. -/
theorem callFunction (callee : Value) (args : List Value) (mode : CallMode) :
    𝓡 (callFunction callee args mode) (callFunction callee args mode) := by
  have h := h𝓡.toBasicCongruence
  unfold Machine.callFunction
  dsimp only
  split
  · refine h.after (quiet_asks _ fun _ _ => rfl) fun function => ?_
    refine h.after (quiet_asks _ fun _ _ => rfl) fun name => ?_
    split
    · exact h.quiet (quiet_raise_bind _ _ trivial)
    · exact h.after (quiet_checkArity ..) fun _ => h𝓡.turns (.enter ..)
  · refine h.after (quiet_closureParts _) fun parts => ?_
    refine h.after (quiet_asks _ fun _ _ => rfl) fun function => ?_
    refine h.after (quiet_asks _ fun _ _ => rfl) fun _ => ?_
    exact h.after (quiet_checkArity ..) fun _ => h𝓡.turns (.enter ..)
  · exact h.quiet ((quiet_shown _).bind fun _ => quiet_raise _ trivial)

/-- Every primitive that changes neither symbols nor pairs. -/
theorem runBuiltin {b : Builtin} (hb : b.isAssignment = false) (argc : Nat) :
    𝓡 (runBuiltin b argc) (runBuiltin b argc) := by
  have h := h𝓡.toBasicCongruence
  cases b with
  | cons =>
    refine h.quiet (quiet_popTwo.bind fun (a, d) => ?_)
    exact (quiet_heap _).bind fun v => quiet_done v
  | car | cdr =>
    refine h.quiet (quiet_pop.bind fun v => ?_)
    exact (quiet_query _ fun _ _ => rfl).bind fun part => quiet_done part
  | list | listStar =>
    refine h.quiet ((quiet_popMany argc).bind fun args => ?_)
    exact (quiet_heap _).bind fun v => quiet_done v
  | append =>
    refine h.quiet ((quiet_popMany argc).bind fun args => ?_)
    exact (quiet_appendLists ..).bind fun v => quiet_done v
  | length =>
    refine h.quiet (quiet_pop.bind fun v => ?_)
    exact (quiet_listArg ..).bind fun items => quiet_done _
  | reverse =>
    refine h.quiet (quiet_pop.bind fun v => ?_)
    refine (quiet_listArg ..).bind fun items => ?_
    exact (quiet_heap _).bind fun v => quiet_done v
  | eq => exact h.quiet (quiet_popTwo.bind fun _ => quiet_doneBool _)
  | equal =>
    refine h.after quiet_popTwo fun (a, d) => ?_
    refine h.bind (h𝓡.walk _ (fun _ _ => rfl) fun _ _ => Heap.equal_error) fun same => ?_
    exact h.quiet (quiet_doneBool same)
  | atom | consp | listp | symbolp | numberp | null => exact h.quiet (quiet_predicate _)
  | functionp =>
    refine h.quiet (quiet_pop.bind fun v => ?_)
    split
    · exact (quiet_asks _ fun _ _ => rfl).bind fun function => quiet_doneBool _
    · exact quiet_doneBool _
  | add | sub | mul | min | max => exact h.quiet (quiet_arithmetic ..)
  | inc | dec | abs => exact h.quiet (quiet_arithmeticOne ..)
  | numEq | numNe | lt | gt | le | ge => exact h.quiet (quiet_comparison ..)
  | mod =>
    refine h.quiet (quiet_popTwo.bind fun (a, b) => ?_)
    refine (quiet_intArg "mod" a).bind fun m => ?_
    refine (quiet_intArg "mod" b).bind fun n => ?_
    exact (quiet_ofExcept _).bind fun r => quiet_done _
  | zerop =>
    refine h.quiet (quiet_pop.bind fun v => ?_)
    exact (quiet_intArg ..).bind fun n => quiet_doneBool _
  | random =>
    refine h.quiet (quiet_pop.bind fun v => ?_)
    refine (quiet_intArg ..).bind fun limit => ?_
    dsimp only
    split
    · exact quiet_raise_bind _ _ trivial
    · exact (quiet_chooseBelow limit).bind fun n => quiet_done _
  | print =>
    refine h.quiet (quiet_pop.bind fun v => ?_)
    refine (quiet_shown v).bind fun text => ?_
    have hwrite := quiet_modify (f := fun i => { i with output := i.output ++ text ++ "\n" })
      (fun _ _ => rfl) (fun _ => rfl) (fun _ => rfl) (fun _ => rfl) fun _ => rfl
    exact hwrite.bind fun _ => quiet_done v
  | error =>
    refine h.quiet ((quiet_popMany argc).bind fun vs => ?_)
    exact (Quiet.mapM quiet_shown vs).bind fun texts => quiet_raise _ trivial
  | set | rplaca | rplacd => cases hb
  | symbolValue | symbolFunction =>
    refine h.quiet (quiet_pop.bind fun v => ?_)
    refine (quiet_symbolArg ..).bind fun id => ?_
    exact (quiet_query _ fun _ _ => rfl).bind fun held => quiet_done held
  | fboundp =>
    refine h.quiet (quiet_pop.bind fun v => ?_)
    refine (quiet_symbolArg ..).bind fun id => ?_
    refine (quiet_asks _ fun _ _ => rfl).bind fun cell => ?_
    split <;> exact quiet_doneBool _
  | boundp =>
    refine h.quiet (quiet_pop.bind fun v => ?_)
    refine (quiet_symbolArg ..).bind fun id => ?_
    exact (quiet_asks _ fun _ _ => rfl).bind fun bound => quiet_doneBool bound
  | gensym =>
    refine h.after (quiet_popMany argc) fun args => ?_
    split
    · refine h.after (quiet_symbolArg ..) fun id => ?_
      refine h.after (quiet_nameOf id) fun stem => ?_
      exact h.bind (h.gensym stem) fun id => h.quiet (quiet_done _)
    · refine h.after (quiet_pure _) fun stem => ?_
      exact h.bind (h.gensym stem) fun id => h.quiet (quiet_done _)
  | macroexpandOnce | macroexpand | eval => exact h.quiet (quiet_pop.bind fun _ => quiet_pure _)
  | funcall =>
    unfold Machine.runBuiltin
    dsimp only
    split
    · exact h.quiet (quiet_raise_bind _ _ trivial)
    · exact h.bind (h𝓡.turns .continuationMode) fun _ => h.quiet (quiet_pure _)
  | apply =>
    refine h.after quiet_pop fun v => ?_
    refine h.after (quiet_listArg ..) fun items => ?_
    refine h.after (quiet_pushMany items) fun _ => ?_
    dsimp only
    split
    · exact h.quiet (quiet_raise_bind _ _ trivial)
    · exact h.bind (h𝓡.turns .continuationMode) fun _ => h.quiet (quiet_pure _)

/-- Every instruction but assignments, calls and returns. -/
theorem executeInstruction {code : Opcode} (hcode : code.isAssignmentOrCall = false)
    (hrtn : code ≠ .rtn) : 𝓡 (Machine.execute code) (Machine.execute code) := by
  have h := h𝓡.toBasicCongruence
  cases code with
  | ldc => exact h.quiet (quiet_operand.bind fun v => quiet_done v)
  | ld =>
    refine h.quiet (quiet_operandIndex.bind fun i => ?_)
    refine quiet_operandIndex.bind fun j => ?_
    refine (quiet_frameAt i).bind fun frame => ?_
    exact (quiet_query _ fun _ _ => rfl).bind fun v => quiet_done v
  | ldr =>
    refine h.quiet (quiet_operandIndex.bind fun i => ?_)
    refine quiet_operandIndex.bind fun j => ?_
    refine (quiet_frameAt i).bind fun frame => ?_
    exact (quiet_heap _).bind fun v => quiet_done v
  | ldg =>
    refine h.quiet (quiet_operandSymbol.bind fun name => ?_)
    exact (quiet_query _ fun _ _ => rfl).bind fun v => quiet_done v
  | gfn =>
    refine h.quiet (quiet_operandSymbol.bind fun name => ?_)
    refine (quiet_query _ fun _ _ => rfl).bind fun v => ?_
    dsimp only
    split
    · refine (quiet_asks _ fun _ _ => rfl).bind fun f => ?_
      split
      · exact (quiet_nameOf _).bind fun text => quiet_raise_bind _ _ trivial
      · exact quiet_done _
    · exact quiet_done _
  | setl | setlr =>
    refine h.quiet (quiet_operandIndex.bind fun i => ?_)
    refine quiet_operandIndex.bind fun j => ?_
    refine quiet_peek.bind fun v => ?_
    refine (quiet_frameAt i).bind fun frame => ?_
    exact (quiet_heap _).bind fun _ => quiet_pure _
  | setg | ap | tap | callp => cases hcode
  | ldf =>
    refine h.quiet (quiet_operand.bind fun v => ?_)
    split
    · refine (quiet_view _ fun _ _ _ _ _ => rfl).bind fun env => ?_
      exact (quiet_heap _).bind fun closure => quiet_done _
    · exact quiet_fault _
  | rap =>
    refine h.after quiet_operandIndex fun argc => ?_
    exact h.bind (h𝓡.turns (.applyRecursive argc)) fun _ => h.quiet (quiet_pure _)
  | dum =>
    refine h.quiet (quiet_operandIndex.bind fun size => ?_)
    refine (quiet_heap _).bind fun frame => ?_
    refine (quiet_view _ fun _ _ _ _ _ => rfl).bind fun env => ?_
    refine (quiet_heap _).bind fun env => Quiet.bind ?_ fun _ => quiet_pure _
    exact quiet_modifyMachine (fun _ => ⟨rfl, rfl⟩) (fun _ => ⟨rfl, rfl⟩) fun _ _ _ _ _ => rfl
  | rtn => exact absurd rfl hrtn
  | sel =>
    refine h.after quiet_pop fun test => ?_
    refine h.after quiet_operand fun thenCode => ?_
    refine h.after quiet_operand fun elseCode => ?_
    refine h.after (quiet_view _ fun _ _ _ _ _ => rfl) fun control => ?_
    refine h.bind (h𝓡.turns (.pushDump _)) fun _ => h.quiet (Quiet.bind ?_ fun _ => quiet_pure _)
    exact quiet_modifyMachine (fun _ => ⟨rfl, rfl⟩) (fun _ => ⟨rfl, rfl⟩) fun _ _ _ _ _ => rfl
  | tsel =>
    refine h.quiet (quiet_pop.bind fun test => ?_)
    refine quiet_operand.bind fun thenCode => ?_
    refine quiet_operand.bind fun elseCode => Quiet.bind ?_ fun _ => quiet_pure _
    exact quiet_modifyMachine (fun _ => ⟨rfl, rfl⟩) (fun _ => ⟨rfl, rfl⟩) fun _ _ _ _ _ => rfl
  | join => exact h.bind (h𝓡.turns .join) fun _ => h.quiet (quiet_pure _)
  | pop => exact h.quiet (quiet_pop.bind fun _ => quiet_pure _)
  | bind =>
    refine h.after quiet_operandSymbol fun name => ?_
    refine h.after quiet_pop fun v => ?_
    exact h.bind (h𝓡.bindSpecial name v) fun _ => h.quiet (quiet_pure _)
  | unbind =>
    refine h.after quiet_operandSymbol fun name => ?_
    exact h.bind (h𝓡.unbindSpecial name) fun _ => h.quiet (quiet_pure _)
  | block =>
    refine h.after quiet_operand fun name => ?_
    exact h.bind (h𝓡.turns (.enterBlock name)) fun _ => h.quiet (quiet_pure _)
  | blockend =>
    refine h.after quiet_operand fun name => ?_
    exact h.bind (h𝓡.turns (.endBlock name)) fun _ => h.quiet (quiet_pure _)
  | retfrom =>
    refine h.quiet (quiet_operand.bind fun name => ?_)
    exact quiet_pop.bind fun v => quiet_pure _
  | tagbody =>
    refine h.after quiet_operand fun id => ?_
    refine h.after quiet_operand fun table => ?_
    exact h.bind (h𝓡.turns (.enterTagbody id table)) fun _ => h.quiet (quiet_pure _)
  | tagend => exact h.bind (h𝓡.turns .endTagbody) fun _ => h.quiet (quiet_done _)
  | go =>
    refine h.after quiet_operand fun id => ?_
    refine h.after quiet_operand fun tag => ?_
    exact h.bind (h𝓡.goTo id tag) fun _ => h.quiet (quiet_pure _)
  | stop => exact h.quiet (quiet_pure _)

section

variable (hbuiltin : ∀ b argc, 𝓡 (Machine.runBuiltin b argc) (Machine.runBuiltin b argc))

include hbuiltin

/-- The arity is checked before the primitive is called. -/
theorem callPrimitive (id : PrimitiveId) (argc : Nat) :
    𝓡 (callPrimitive id argc) (callPrimitive id argc) :=
  h𝓡.toBasicCongruence.after (quiet_checkPrimitive ..) fun b => hbuiltin b argc

/-- The arguments are taken off the stack, or left there for a primitive. -/
theorem call (argc : Nat) (mode : CallMode) : 𝓡 (call argc mode) (call argc mode) := by
  have h := h𝓡.toBasicCongruence
  refine h.after (quiet_popMany _) fun args => ?_
  refine h.after quiet_pop fun callee => ?_
  split
  · exact h.after (quiet_pushMany _) fun _ => h𝓡.callPrimitive hbuiltin _ _
  · exact h.bind (h𝓡.callFunction ..) fun _ => h.quiet (quiet_pure _)

/-- Every instruction but returns, given this of every primitive and of assigning symbols. -/
theorem executeAny
    (hset : ∀ id v, 𝓡 (liftM (SymbolTable.setValue id v) : LispM Unit) (SymbolTable.setValue id v))
    {code : Opcode} (hrtn : code ≠ .rtn) : 𝓡 (Machine.execute code) (Machine.execute code) := by
  have h := h𝓡.toBasicCongruence
  -- Only an assignment and a call ask for more than `executeInstruction` does.
  cases hcode : code.isAssignmentOrCall with
  | false => exact h𝓡.executeInstruction hcode hrtn
  | true =>
    cases code with
    | setg =>
      refine h.after quiet_operandSymbol fun name => ?_
      refine h.after quiet_peek fun v => ?_
      exact h.bind (hset name v) fun _ => h.quiet (quiet_pure _)
    | ap | tap => exact h.after quiet_operandIndex fun _ => h𝓡.call hbuiltin _ _
    | callp =>
      refine h.after quiet_operand fun v => ?_
      split
      · exact h.after quiet_operandIndex fun _ => h𝓡.callPrimitive hbuiltin _ _
      · exact h.quiet (quiet_fault _)
    | _ => cases hcode

end

/-- What a walk to the end of a block does at an instruction, returns apart. -/
theorem pass (target value : Value) (skipped : Nat) {code : Opcode} (hrtn : code ≠ .rtn) :
    𝓡 (pass target value skipped code) (pass target value skipped code) := by
  have h := h𝓡.toBasicCongruence
  cases code with
  | stop => exact h.quiet ((quiet_shown _).bind fun _ => quiet_fault _)
  | rtn => exact absurd rfl hrtn
  | join => exact h.bind (h𝓡.turns .join) fun _ => h.quiet (quiet_pure _)
  | tsel =>
    refine h.quiet (quiet_operand.bind fun code => quiet_operand.bind fun _ => Quiet.bind ?_ fun _ =>
      quiet_pure _)
    exact quiet_modifyMachine (fun _ => ⟨rfl, rfl⟩) (fun _ => ⟨rfl, rfl⟩) fun _ _ _ _ _ => rfl
  | blockend =>
    refine h.after quiet_operand fun name => ?_
    cases skipped with
    | succ skipped => exact h.quiet (quiet_pure _)
    | zero => exact h.bind (h𝓡.turns (.leaveBlock ..)) fun _ => h.quiet (quiet_pure _)
  | tagend =>
    cases skipped with
    | succ skipped => exact h.quiet (quiet_pure _)
    | zero => exact h.bind (h𝓡.turns .endTagbody) fun _ => h.quiet (quiet_pure _)
  | unbind =>
    refine h.after quiet_operandSymbol fun symbol => ?_
    cases skipped with
    | succ skipped => exact h.quiet (quiet_pure _)
    | zero => exact h.bind (h𝓡.unbindSpecial symbol) fun _ => h.quiet (quiet_pure _)
  | _ => exact h.quiet ((quiet_skipOperands _).bind fun _ => quiet_pure _)

/-- By induction on the bound for the expansions. -/
theorem macroexpandFrom {expand expand' : ExpandRule} (he : ∀ f args, 𝓡 (expand f args) (expand' f args)) :
    ∀ (fuel : Nat) (form : Value), 𝓡 (macroexpandFrom expand fuel form)
      (macroexpandFrom expand' fuel form)
  | 0, _ => h𝓡.endless
  | fuel + 1, form => by
    have h := h𝓡.toBasicCongruence
    refine h.bind (h.macroexpandOnce he form) fun result => ?_
    dsimp only
    split
    · exact macroexpandFrom he fuel _
    · exact h.quiet (quiet_pure _)

end TurningCongruence

namespace ReturningCongruence

variable {𝓡 : ⦃α : Type⦄ → LispM α → LispM α → Prop} (h𝓡 : ReturningCongruence 𝓡)

include h𝓡

theorem pass (target value : Value) (skipped : Nat) (code : Opcode) :
    𝓡 (pass target value skipped code) (pass target value skipped code) := by
  by_cases hrtn : code = .rtn
  · subst hrtn
    exact h𝓡.bind h𝓡.returnToCaller fun _ => h𝓡.quiet (quiet_pure _)
  · exact h𝓡.toTurningCongruence.pass target value skipped hrtn

/-- By induction on the bound for the walk. -/
theorem exitBlock (target value : Value) : ∀ fuel skipped,
    𝓡 (exitBlock target value fuel skipped) (exitBlock target value fuel skipped)
  | 0, skipped => by
    rw [exitBlock_zero]
    exact h𝓡.endless
  | fuel + 1, skipped => by
    rw [exitBlock_succ]
    refine h𝓡.toBasicCongruence.after (quiet_meet target) fun code => ?_
    refine h𝓡.bind (h𝓡.pass ..) fun next => ?_
    cases next with
    | none => exact h𝓡.quiet (quiet_pure _)
    | some skipped => exact exitBlock target value fuel skipped

/-- Every instruction but assignments and calls. -/
theorem executeInstruction {code : Opcode} (hcode : code.isAssignmentOrCall = false) :
    𝓡 (Machine.execute code) (Machine.execute code) := by
  by_cases hrtn : code = .rtn
  · subst hrtn
    exact h𝓡.bind h𝓡.returnToCaller fun _ => h𝓡.quiet (quiet_pure _)
  · exact h𝓡.toTurningCongruence.executeInstruction hcode hrtn

end ReturningCongruence

namespace BindingCongruence

variable {𝓡 : ⦃α : Type⦄ → LispM α → LispM α → Prop} (h𝓡 : BindingCongruence 𝓡)

include h𝓡

/-- Every primitive but `set`. -/
theorem runBuiltin {b : Builtin} (hb : b ≠ .set) (argc : Nat) :
    𝓡 (runBuiltin b argc) (runBuiltin b argc) := by
  have h := h𝓡.toBasicCongruence
  cases hassigns : b.isAssignment with
  | false => exact h𝓡.toTurningCongruence.runBuiltin hassigns argc
  | true =>
    cases b with
    | set => exact absurd rfl hb
    | rplaca =>
      refine h.after quiet_popTwo fun _ => ?_
      exact h.after (quiet_pairArg ..) fun _ =>
        h.bind (h𝓡.setCar ..) fun _ => h.quiet (quiet_done _)
    | rplacd =>
      refine h.after quiet_popTwo fun _ => ?_
      exact h.after (quiet_pairArg ..) fun _ =>
        h.bind (h𝓡.setCdr ..) fun _ => h.quiet (quiet_done _)
    | _ => cases hassigns

end BindingCongruence

/-- What the machine asks for, given that this holds of calls, of walks to the end of a block
    and of compiling a top-level form in scopes of its own. -/
theorem TurningCongruence.serve {𝓡 : ⦃α : Type⦄ → LispM α → LispM α → Prop}
    (h𝓡 : TurningCongruence 𝓡) {compile compile' : CompileRule} {run run' : LispM Unit}
    (hc : ∀ form, 𝓡 (compileApart compile form) (compileApart compile' form))
    (hx : ∀ code args, 𝓡 (execute run code args) (execute run' code args)) (fuel : Nat) {r : Request}
    (hcall : ∀ argc mode, r = .call argc mode → 𝓡 (Machine.call argc mode) (Machine.call argc mode))
    (hexit : ∀ target value, r = .returnFrom target value →
      𝓡 (exitBlock target value fuel 0) (exitBlock target value fuel 0)) :
    𝓡 (serve compile run fuel r) (serve compile' run' fuel r) := by
  have h := h𝓡.toBasicCongruence
  cases r with
  | call argc mode => exact hcall argc mode rfl
  | returnFrom target value => exact h.bind (hexit target value rfl) fun _ => h.quiet (quiet_pure _)
  | macroexpandOnce form =>
    exact h.bind (h𝓡.macroexpandOnce (h𝓡.expandMacro hx) form) fun _ => h.quiet (quiet_done _)
  | macroexpand form =>
    exact h.bind (h𝓡.macroexpandFrom (h𝓡.expandMacro hx) fuel form) fun _ => h.quiet (quiet_done _)
  -- The form is compiled apart and its code runs nested, one rule for each.
  | eval form =>
    refine h.bind (hc form) fun code => ?_
    exact h.bind (hx code []) fun _ => h.quiet (quiet_done _)

namespace RunningCongruence

variable {𝓡 : ⦃α : Type⦄ → LispM α → LispM α → Prop} (h𝓡 : RunningCongruence 𝓡)

include h𝓡

theorem runBuiltin (b : Builtin) (argc : Nat) : 𝓡 (runBuiltin b argc) (runBuiltin b argc) := by
  have h := h𝓡.toBasicCongruence
  by_cases hb : b = .set
  · subst hb
    refine h.after quiet_popTwo fun x => ?_
    refine h.after (quiet_symbolArg ..) fun id => ?_
    exact h.bind (h𝓡.setValue id _) fun _ => h.quiet (quiet_done _)
  · exact h𝓡.toBindingCongruence.runBuiltin hb argc

theorem call (argc : Nat) (mode : CallMode) : 𝓡 (call argc mode) (call argc mode) :=
  h𝓡.toTurningCongruence.call h𝓡.runBuiltin argc mode

theorem executeInstruction (code : Opcode) : 𝓡 (Machine.execute code) (Machine.execute code) := by
  by_cases hrtn : code = .rtn
  · exact h𝓡.toReturningCongruence.executeInstruction (hrtn ▸ rfl)
  · exact h𝓡.toTurningCongruence.executeAny h𝓡.runBuiltin h𝓡.setValue hrtn

/-- Every such congruence holds of every step. -/
theorem step : 𝓡 step step := by
  have h := h𝓡.toBasicCongruence
  rw [step_eq]
  refine h.bind h𝓡.count fun _ => ?_
  refine h.after quiet_fetch fun code => ?_
  refine h.after (quiet_noteStep code) fun _ => ?_
  exact h𝓡.executeInstruction code

end RunningCongruence

namespace MachineCongruence

variable {𝓡 : ⦃α : Type⦄ → LispM α → LispM α → Prop} (h𝓡 : MachineCongruence 𝓡)

include h𝓡

section

variable {compile compile' : CompileRule} {run run' : LispM Unit}
  (hc : ∀ form env cont, 𝓡 (compile form env cont) (compile' form env cont)) (hr : 𝓡 run run')

include hc hr

/-- It goes from the compiler and the runs inside to everything the machine asks for. -/
theorem serve (fuel : Nat) (r : Request) :
    𝓡 (serve compile run fuel r) (serve compile' run' fuel r) :=
  h𝓡.toTurningCongruence.serve (h𝓡.toCongruence.compileApart hc) (h𝓡.execute hr) fuel
    (fun argc mode _ => h𝓡.toRunningCongruence.call argc mode)
    fun target value _ => h𝓡.exitBlock target value fuel 0

end

/-- The compiler and the machine as a whole. -/
theorem engine (fuel : Nat) :
    (∀ form env cont, 𝓡 (compileFrom fuel form env cont) (compileFrom fuel form env cont)) ∧
      ∀ flow, 𝓡 (runFrom fuel flow) (runFrom fuel flow) := by
  have h := h𝓡.toBasicCongruence
  -- Compiler and machine call each other with one unit of fuel less, so the induction is on both at
  -- once.
  induction fuel with
  | zero =>
    refine ⟨fun form env cont => ?_, fun flow => ?_⟩
    · rw [compileFrom]
      exact h𝓡.endless
    · rw [runFrom]
      exact h𝓡.endless
  | succ fuel ih =>
    obtain ⟨hc, hr⟩ := ih
    refine ⟨fun form env cont => ?_, fun flow => ?_⟩
    · rw [compileFrom]
      exact h𝓡.toDefiningCongruence.compileForm hc (h𝓡.expandMacro (h𝓡.execute (hr .next))) ..
    · cases flow with
      | stop =>
        rw [runFrom]
        exact h.quiet (quiet_pure _)
      | next =>
        rw [runFrom]
        exact h.bind h𝓡.toRunningCongruence.step hr
      | request r =>
        rw [runFrom]
        exact h.bind (h𝓡.serve hc (hr .next) fuel r) hr

end MachineCongruence

end StackLisp
