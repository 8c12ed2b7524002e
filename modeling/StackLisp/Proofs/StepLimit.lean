import StackLisp.Proofs.Actions.Marked
import StackLisp.Proofs.Binding

/-!
# The limit on steps

A limit on the steps bounds the outermost run together with all the runs inside of it.
Only the machine's count of steps grows, and only by one before an instruction; it
starts anew with an outermost run alone. So what an action does inside of a run is
*limited* (`Limited`): the count stays within the limit, with as many instructions
executed as steps are counted, unless the action fails for want of steps. Then the
count is one beyond the limit, and as nothing else fails this way, no such failure is
lost in the runs further out.

* `limited_marked`: everything that happens inside of a run is limited;
* `execute_limited`: so an outermost run executes as many instructions as its limit at
  most, and fails for want of steps exactly if the count ends beyond the limit, which
  is so if any run inside of it fails for want of steps.
-/

namespace StackLisp

open Interpreter Compiler Machine

variable {α β : Type}

/-! ## What is counted -/

/-- How many instructions have been marked. -/
def Interpreter.instructions (s : Interpreter) : Nat := s.image.log.marks.count Mark.instruction

/-- How many runs inside of other ones have been marked to be out of steps. -/
def Interpreter.exhaustions (s : Interpreter) : Nat := s.image.log.marks.count Mark.exhausted

/-- Nothing has become of what is counted. -/
structure Uncounted (s s' : Interpreter) : Prop where
  nesting : s'.machine.nesting = s.machine.nesting
  steps : s'.machine.steps = s.machine.steps
  maxSteps : s'.machine.maxSteps = s.machine.maxSteps
  marks : s'.image.log.marks = s.image.log.marks

theorem Uncounted.refl (s : Interpreter) : Uncounted s s := ⟨rfl, rfl, rfl, rfl⟩

theorem Uncounted.trans {s s' s'' : Interpreter} (h : Uncounted s s') (h' : Uncounted s' s'') :
    Uncounted s s'' :=
  ⟨h'.nesting.trans h.nesting, h'.steps.trans h.steps, h'.maxSteps.trans h.maxSteps,
    h'.marks.trans h.marks⟩

theorem Uncounted.instructions {s s' : Interpreter} (h : Uncounted s s') :
    s'.instructions = s.instructions := congrArg (List.count Mark.instruction) h.marks

theorem Uncounted.exhaustions {s s' : Interpreter} (h : Uncounted s s') :
    s'.exhaustions = s.exhaustions := congrArg (List.count Mark.exhausted) h.marks

/-- What is tame leaves the counts alone. -/
theorem Tame.uncounted {s s' : Interpreter} (h : Tame s s') : Uncounted s s' :=
  ⟨h.nesting, h.steps, h.maxSteps, h.marks⟩

/-- The action counts nothing, and does not fail for want of steps. -/
structure Uncounts (x : LispM α) : Prop where
  leads : ∀ s, Leads x s (fun _ s' => Uncounted s s') fun e s' =>
    e ≠ .error .stepLimit ∧ Uncounted s s'

section

variable {x : LispM α} {f : α → LispM β}

/-- An ordinary failure has nothing to do with the steps. -/
theorem Tames.uncounts (hx : Tames x) : Uncounts x where
  leads s := ((hx.tame s).and (hx.ordinary s)).mono (fun _ _ h => h.1.uncounted)
    fun _ _ h => ⟨h.2.ne_stepLimit, h.1.uncounted⟩

theorem Calms.uncounts (hx : Calms x) : Uncounts x := hx.tames.uncounts

theorem Quiet.uncounts (hx : Quiet x) : Uncounts x := hx.toCalms.uncounts

theorem Uncounts.bind (hx : Uncounts x) (hf : ∀ a, Uncounts (f a)) : Uncounts (x >>= f) where
  leads s := (leads_bind f).2 ((hx.leads s).mono
    (fun a s₁ h => ((hf a).leads s₁).mono (fun _ _ h' => h.trans h') fun _ _ h' => ⟨h'.1, h.trans h'.2⟩)
    fun _ _ h => h)

theorem Uncounts.forM {f : α → LispM PUnit} (hf : ∀ a, Uncounts (f a)) : ∀ l : List α, Uncounts (l.forM f)
  | [] => (quiet_pure PUnit.unit).uncounts
  | a :: l => (hf a).bind fun _ => Uncounts.forM hf l

theorem uncounts_get {f : Interpreter → LispM β} (hf : ∀ s, Uncounts (f s)) : Uncounts (get >>= f) :=
  ⟨fun s => (hf s).leads s⟩

theorem uncounts_modifyScopes (g : Scopes → Scopes) : Uncounts (modifyScopes g) :=
  ⟨fun _ => ⟨rfl, rfl, rfl, rfl⟩⟩

/-- A walk only fails by not ending. -/
theorem uncounts_walk (g : Image → Except Failure α) (hends : ∀ i e, g i = .error e → e = .endless) :
    Uncounts (walk g) where
  leads s := by
    rw [leads_walk]
    split
    · exact ⟨rfl, rfl, rfl, rfl⟩
    · next heq =>
      rw [hends _ _ heq]
      exact ⟨nofun, rfl, rfl, rfl, rfl⟩

theorem uncounts_modifyHeap (g : Heap → Heap) : Uncounts (liftM (modify g : HeapM Unit) : LispM Unit) :=
  ⟨fun _ => ⟨rfl, rfl, rfl, rfl⟩⟩

theorem uncounts_update (id : SymbolId) (g : Symbol → Symbol) :
    Uncounts (liftM (SymbolTable.update id g) : LispM Unit) where
  leads s := by
    rw [leads_update]
    split
    · exact ⟨nofun, .refl s⟩
    · exact ⟨rfl, rfl, rfl, rfl⟩

theorem uncounts_gensym (stem : String) : Uncounts (liftM (SymbolTable.gensym stem) : LispM SymbolId) :=
  ⟨fun _ => leads_gensym.2 ⟨rfl, rfl, rfl, rfl⟩⟩

theorem uncounts_bindSpecial (id : SymbolId) (v : Value) : Uncounts (bindSpecial id v) :=
  ⟨fun _ => leads_bindSpecial.2 ⟨rfl, rfl, rfl, rfl⟩⟩

theorem uncounts_unbindSpecial (id : SymbolId) : Uncounts (unbindSpecial id) where
  leads s := by
    rw [leads_unbindSpecial]
    split
    · exact ⟨nofun, .refl s⟩
    · split
      · exact ⟨rfl, rfl, rfl, rfl⟩
      · exact ⟨nofun, rfl, rfl, rfl, rfl⟩

/-- Bindings are ended one by one, and the machine counts none of this. -/
theorem uncounts_unwindBindings (height : Nat) : Uncounts (unwindBindings height) :=
  ⟨fun _ => leads_unwindBindings.2 ⟨rfl, rfl, rfl, rfl⟩⟩

/-- A call in tail position is noted in the scopes. -/
theorem uncounts_emitApply (argc : Nat) (cont : Value) : Uncounts (emitApply argc cont) := by
  unfold emitApply
  refine (quiet_tailOf cont).uncounts.bind fun tail => ?_
  split
  · exact (quiet_emit ..).uncounts
  · refine (quiet_emit ..).uncounts.bind fun code => ?_
    split
    · exact (uncounts_modifyScopes _).bind fun _ => (quiet_pure _).uncounts
    · exact (quiet_pure _).uncounts
  · exact (quiet_emit ..).uncounts

theorem uncounts_closeBlock : Uncounts closeBlock := by
  unfold closeBlock
  refine uncounts_get fun s => ?_
  dsimp only
  split
  · refine (uncounts_modifyScopes _).bind fun _ => .forM (fun index => ?_) _
    refine (uncounts_modifyScopes _).bind fun _ => ?_
    refine uncounts_get fun s => ?_
    split
    · split
      · exact uncounts_modifyHeap _
      · exact (quiet_pure _).uncounts
    · exact (quiet_pure _).uncounts
  · exact (quiet_pure _).uncounts

end

/-! ## Limited actions -/

/-- What an action inside of a run leaves, within a limit. -/
structure WithinLimit (n : Nat) (s s' : Interpreter) : Prop where
  nesting : s'.machine.nesting = s.machine.nesting
  maxSteps : s'.machine.maxSteps = s.machine.maxSteps
  le : s.machine.steps ≤ s'.machine.steps
  limit : s'.machine.steps ≤ n
  instructions : s'.instructions + s.machine.steps ≤ s.instructions + s'.machine.steps
  exhaustions : s'.exhaustions = s.exhaustions

/-- What an action inside of a run leaves, when the limit has refused a step. -/
structure BeyondLimit (n : Nat) (s s' : Interpreter) : Prop where
  nesting : s'.machine.nesting = s.machine.nesting
  maxSteps : s'.machine.maxSteps = s.machine.maxSteps
  steps : s'.machine.steps = n + 1
  instructions : s'.instructions + s.machine.steps ≤ s.instructions + n

/-- Where nothing is counted, the limit is kept. -/
theorem Uncounted.within {n : Nat} {s s' : Interpreter} (h : Uncounted s s') (hs : s.machine.steps ≤ n) :
    WithinLimit n s s' where
  nesting := h.nesting
  maxSteps := h.maxSteps
  le := Nat.le_of_eq h.steps.symm
  limit := h.steps ▸ hs
  instructions := Nat.le_of_eq (by rw [h.steps, h.instructions])
  exhaustions := h.exhaustions

/-- Steps and marks of two parts add up. -/
theorem WithinLimit.trans {n : Nat} {s s' s'' : Interpreter} (h : WithinLimit n s s')
    (h' : WithinLimit n s' s'') : WithinLimit n s s'' where
  nesting := h'.nesting.trans h.nesting
  maxSteps := h'.maxSteps.trans h.maxSteps
  le := Nat.le_trans h.le h'.le
  limit := h'.limit
  instructions := by have := h.instructions; have := h'.instructions; omega
  exhaustions := h'.exhaustions.trans h.exhaustions

/-- The limit may be met in the second part. -/
theorem WithinLimit.beyond {n : Nat} {s s' s'' : Interpreter} (h : WithinLimit n s s')
    (h' : BeyondLimit n s' s'') : BeyondLimit n s s'' where
  nesting := h'.nesting.trans h.nesting
  maxSteps := h'.maxSteps.trans h.maxSteps
  steps := h'.steps
  instructions := by have := h.instructions; have := h'.instructions; omega

/-- Once it is met, nothing more is counted on the way out. -/
theorem BeyondLimit.uncounted {n : Nat} {s s' s'' : Interpreter} (h : BeyondLimit n s s')
    (h' : Uncounted s' s'') : BeyondLimit n s s'' where
  nesting := h'.nesting.trans h.nesting
  maxSteps := h'.maxSteps.trans h.maxSteps
  steps := h'.steps.trans h.steps
  instructions := h'.instructions ▸ h.instructions

/-- What an action inside of a run leaves when it fails. -/
def FailsLimited (n : Nat) (s : Interpreter) (e : Failure) (s' : Interpreter) : Prop :=
  if e = .error .stepLimit then BeyondLimit n s s' else WithinLimit n s s'

/-- Inside of a run, the action counts no further than the limit, with no more instructions
    executed than steps are counted, or it fails for want of steps, one beyond the limit. -/
structure Limited (x : LispM α) : Prop where
  leads : ∀ {n : Nat} {s : Interpreter}, s.machine.nesting ≠ 0 → s.machine.maxSteps = some n →
    s.machine.steps ≤ n → Leads x s (fun _ s' => WithinLimit n s s') (FailsLimited n s)

section

variable {x : LispM α} {f : α → LispM β}

/-- The failure of the second part is one of the whole. -/
theorem WithinLimit.fails {n : Nat} {s s' s'' : Interpreter} {e : Failure} (h : WithinLimit n s s')
    (h' : FailsLimited n s' e s'') : FailsLimited n s e s'' := by
  unfold FailsLimited at h' ⊢
  split at h'
  · next he => exact (if_pos he).mpr (h.beyond h')
  · next he => exact (if_neg he).mpr (h.trans h')

/-- What follows a failure does not count. -/
theorem FailsLimited.uncounted {n : Nat} {s s' s'' : Interpreter} {e : Failure}
    (h : FailsLimited n s e s') (h' : Uncounted s' s'') : FailsLimited n s e s'' := by
  unfold FailsLimited at h ⊢
  split at h
  · next he => exact (if_pos he).mpr (h.uncounted h')
  · next he => exact (if_neg he).mpr (h.trans (h'.within h.limit))

theorem Uncounts.limited (hx : Uncounts x) : Limited x where
  leads _ _ hs := (hx.leads _).mono (fun _ _ h => h.within hs)
    fun _ _ h => (if_neg h.1).mpr (h.2.within hs)

/-- The second part starts within the limit, where the first one has ended. -/
theorem Limited.bind (hx : Limited x) (hf : ∀ a, Limited (f a)) : Limited (x >>= f) where
  leads {n s} hnesting hlimit hs := by
    rw [leads_bind]
    refine (hx.leads hnesting hlimit hs).mono (fun a s₁ h₁ => ?_) fun _ _ h => h
    exact ((hf a).leads (h₁.nesting ▸ hnesting) (h₁.maxSteps.trans hlimit) h₁.limit).mono
      (fun b s₂ h₂ => h₁.trans h₂) fun e s₂ h₂ => h₁.fails h₂

/-- A failure is passed on after something that is not counted. -/
theorem Limited.guard {f : Except Failure α → LispM β} (hx : Limited x) (hok : ∀ a, Uncounts (f (.ok a)))
    (herr : ∀ e s, Leads (f (.error e)) s (fun _ _ => False) fun e' s' => e' = e ∧ Uncounted s s') :
    Limited (attempt x >>= f) where
  leads {n s} hnesting hlimit hs := by
    rw [leads_bind, leads_attempt]
    refine (hx.leads hnesting hlimit hs).mono (fun a s₁ h₁ => ?_) fun e s₁ h₁ => ?_
    · exact ((hok a).limited.leads (h₁.nesting ▸ hnesting) (h₁.maxSteps.trans hlimit) h₁.limit).mono
        (fun b s₂ h₂ => h₁.trans h₂) fun e s₂ h₂ => h₁.fails h₂
    · refine (herr e s₁).mono (fun _ _ h => h.elim) ?_
      rintro _ s₂ ⟨rfl, h₂⟩
      exact h₁.uncounted h₂

/-- Looking at the state counts nothing. -/
theorem limited_get {f : Interpreter → LispM β} (hf : ∀ s, Limited (f s)) : Limited (get >>= f) :=
  ⟨fun hnesting hlimit hs => (hf _).leads hnesting hlimit hs⟩

/-- That a target is missing is an error of its own. -/
theorem uncounts_unmatched (kind : TargetKind) (name : String) :
    Uncounts (raise (.unmatchedTarget kind name) : LispM α) :=
  ⟨fun s => ⟨nofun, .refl s⟩⟩

/-- The rules of the compiler count nothing themselves, so they are limited if the compiler for the
    forms inside is. -/
theorem limited_congruence : Congruence fun _ x _ => Limited x where
  quiet hx := hx.uncounts.limited
  bind := Limited.bind
  gensym stem := (uncounts_gensym stem).limited
  tame hx _ := hx.uncounts.limited
  guard hx hok herr _ := hx.guard (fun a => (hok a).uncounts) fun e s => by
    obtain ⟨s', heq, h'⟩ := (herr e).eq s
    exact (leads_of_error heq).2 ⟨rfl, h'.uncounted⟩
  declareSpecial id := (uncounts_update id _).limited
  emitApply argc cont := (uncounts_emitApply argc cont).limited
  reject kind name := (uncounts_unmatched kind name).limited
  forget := (uncounts_modifyScopes _).limited
  -- Settling the calls of a block does not count steps, and it is done after a failure too.
  closeBlock hx := hx.guard (fun a => uncounts_closeBlock.bind fun _ => (quiet_pure a).uncounts) fun e s => by
    obtain ⟨_, s', heq, -⟩ := closeBlock_ends s
    rw [leads_bind, leads_of_ok heq]
    exact ⟨rfl, (leads_of_ok heq).1 (uncounts_closeBlock.leads s)⟩
  apart hx := limited_get fun s => (uncounts_modifyScopes _).limited.bind fun _ =>
    hx.guard (fun a => (uncounts_modifyScopes _).bind fun _ => (quiet_pure a).uncounts)
      fun e s' => ⟨rfl, rfl, rfl, rfl, rfl⟩

/-- Changing a function cell counts nothing. -/
theorem uncounted_withCell (s : Interpreter) (id : SymbolId) (cell : FunctionCell) :
    Uncounted s (s.withCell id cell) := ⟨rfl, rfl, rfl, rfl⟩

/-- A definition whose function does not compile for want of steps fails for want of steps: its
    name, which is no constant, is given its earlier function back. -/
theorem limited_definitionBy {make : SymbolId → Value → Value → LispM FunctionId}
    (hretains : ∀ name params body, Steady Retains (fun _ => True) (make name params body))
    (hmake : ∀ name params body, Limited (make name params body)) (kind : FunctionKind)
    (args cont : Value) : Limited (definitionBy make kind args cont) where
  leads {n s} hnesting hlimit hs := by
    refine leads_definitionBy_of_retains hretains
      (fun e he => (if_neg he.ne_stepLimit).mpr ((Uncounted.refl s).within hs)) ?_ ?_
    · intro name arity s₁ _ _ h₁
      exact (if_neg heapOverflow_ne_stepLimit).mpr (((uncounted_withCell ..).trans h₁.tame.uncounted).within hs)
    -- The cell is set, the body compiled and the cell set again; only the body may use up the
    -- steps.
    · intro name form params body frame s₁ _ _ _ h₁
      have hbegun := (uncounted_withCell ..).trans h₁.tame.uncounted
      have hwithin := hbegun.within hs
      refine ((hmake name params body).leads (hwithin.nesting ▸ hnesting)
        (hwithin.maxSteps.trans hlimit) hwithin.limit).mono ?_ ?_
      · intro f s₂ h₂ _ s₃ h₃ _
        have hdefined := (uncounted_withCell ..).trans h₃.uncounted
        have hend := hwithin.trans (h₂.trans (hdefined.within h₂.limit))
        exact ⟨fun _ => hend, fun _ => (if_neg heapOverflow_ne_stepLimit).mpr hend⟩
      · exact fun e s₂ h₂ _ => (hwithin.fails h₂).uncounted (uncounted_withCell ..)

/-! ## Steps and runs -/

/-- A mark for an instruction is counted as one. -/
theorem instructions_marked (s : Interpreter) :
    (s.marked .instruction).instructions = s.instructions + 1 ∧
      (s.marked .instruction).exhaustions = s.exhaustions := by
  have hne : Mark.instruction ≠ Mark.exhausted := by decide
  simp [Interpreter.instructions, Interpreter.exhaustions, marks_marked, hne]

/-- A mark for a run out of steps is counted apart. -/
theorem instructions_exhausted (s : Interpreter) :
    (s.marked .exhausted).instructions = s.instructions := by
  have hne : Mark.exhausted ≠ Mark.instruction := by decide
  simp [Interpreter.instructions, marks_marked, hne]

/-- The interpreter with one more step counted. -/
def Interpreter.counted (s : Interpreter) : Interpreter :=
  { s with machine.steps := s.machine.steps + 1 }

/-- A step is counted, and refused beyond the limit. -/
theorem leads_count {n : Nat} {s : Interpreter} {ok : Unit → Interpreter → Prop}
    {err : Failure → Interpreter → Prop} (hlimit : s.machine.maxSteps = some n) :
    Leads count s ok err ↔
      if n < s.machine.steps + 1 then err (.error .stepLimit) s.counted else ok () s.counted := by
  have hcount : count s = if n < s.machine.steps + 1 then .error (.error .stepLimit) s.counted
      else .ok () s.counted := by
    simp only [count, Bind.bind, EStateM.bind, modifyMachine_apply, view, hlimit, id, Interpreter.counted]
    split <;> rfl
  split at hcount
  · next hbeyond => rw [leads_of_error hcount, if_pos hbeyond]
  · next hroom => rw [leads_of_ok hcount, if_neg hroom]

/-- There is room for another step. -/
theorem WithinLimit.counted {n : Nat} {s : Interpreter} (hroom : ¬n < s.machine.steps + 1) :
    WithinLimit n s s.counted :=
  ⟨rfl, rfl, Nat.le_succ _, Nat.le_of_not_lt hroom, Nat.add_le_add_left (Nat.le_succ _) _, rfl⟩

/-- There is none, and the count is one beyond the limit. -/
theorem BeyondLimit.counted {n : Nat} {s : Interpreter} (hs : s.machine.steps ≤ n)
    (hbeyond : n < s.machine.steps + 1) : BeyondLimit n s s.counted where
  nesting := rfl
  maxSteps := rfl
  steps := congrArg (· + 1) (Nat.le_antisymm hs (Nat.le_of_lt_succ hbeyond))
  instructions := Nat.add_le_add_left hs _

/-- The only place where steps are counted. -/
theorem limited_count : Limited count where
  leads {n s} _ hlimit hs := by
    rw [leads_count hlimit]
    split
    · next hbeyond => exact (if_pos rfl).mpr (.counted hs hbeyond)
    · next hroom => exact .counted hroom

/-- The instruction of a step may be marked, as the step has been counted. -/
theorem limited_markedFetch :
    Limited (do count; let code ← fetch; mark .instruction; pure code) where
  leads {n s} hnesting hlimit hs := by
    rw [leads_bind, leads_count hlimit]
    split
    · next hbeyond => exact (if_pos rfl).mpr (.counted hs hbeyond)
    · next hroom =>
      have hcounted : WithinLimit n s s.counted := .counted hroom
      rw [leads_bind]
      refine (quiet_fetch.uncounts.leads _).mono (fun code s₁ h₁ => ?_) fun e s₁ h₁ =>
        (if_neg h₁.1).mpr (hcounted.trans (h₁.2.within hcounted.limit))
      rw [leads_bind, leads_mark, leads_pure]
      have hsteps : (s₁.marked .instruction).machine.steps = s.machine.steps + 1 := h₁.steps
      have hinstructions : s₁.instructions = s.instructions := h₁.instructions
      obtain ⟨hmarked, hexhaustions⟩ := instructions_marked s₁
      exact ⟨h₁.nesting, h₁.maxSteps, by omega, by omega, by omega, hexhaustions.trans h₁.exhaustions⟩

section

variable {n : Nat} {s s' : Interpreter} {h : Heap} {env code : Value} {registers : Registers}

/-- Ending bindings counts nothing. -/
theorem uncounted_withoutBindings (s : Interpreter) (n : Nat) : Uncounted s (s.withoutBindings n) :=
  ⟨rfl, rfl, rfl, rfl⟩

/-- A run inside of another one goes on to count. -/
theorem steps_entering (hnesting : s.machine.nesting ≠ 0) :
    (({ s with image.heap := h } : Interpreter).entering env code).machine.steps = s.machine.steps :=
  if_neg hnesting

/-- What the run has counted stays counted, when the registers are given back. -/
theorem WithinLimit.leaving (hnesting : s.machine.nesting ≠ 0)
    (hw : WithinLimit n (({ s with image.heap := h } : Interpreter).entering env code) s') :
    WithinLimit n s (s'.leaving registers) where
  nesting := by
    have hrun : s'.machine.nesting = s.machine.nesting + 1 := hw.nesting
    change s'.machine.nesting - 1 = s.machine.nesting
    omega
  maxSteps := hw.maxSteps
  le := steps_entering hnesting ▸ hw.le
  limit := hw.limit
  instructions := steps_entering hnesting ▸ hw.instructions
  exhaustions := hw.exhaustions

/-- Also if it has met the limit. -/
theorem BeyondLimit.leaving (hnesting : s.machine.nesting ≠ 0)
    (hb : BeyondLimit n (({ s with image.heap := h } : Interpreter).entering env code) s') :
    BeyondLimit n s (s'.leaving registers) where
  nesting := by
    have hrun : s'.machine.nesting = s.machine.nesting + 1 := hb.nesting
    change s'.machine.nesting - 1 = s.machine.nesting
    omega
  maxSteps := hb.maxSteps
  steps := hb.steps
  instructions := steps_entering hnesting ▸ hb.instructions

end

/-- The bindings that a failed run has left are ended before the registers are given back. -/
theorem limited_execute {run : LispM Unit} (hrun : Limited run) (code : Value) (args : List Value) :
    Limited (Interpreter.execute run code args) where
  leads {n s} hnesting hlimit hs := by
    refine leads_execute (fun h _ => (if_neg heapOverflow_ne_stepLimit).mpr (Uncounted.within ⟨rfl, rfl, rfl, rfl⟩ hs))
      fun env h _ => ?_
    -- Entering a nested run keeps the count of the run around it.
    have hentered : (({ s with image.heap := h } : Interpreter).entering env code).machine.steps ≤ n :=
      steps_entering hnesting ▸ hs
    refine (hrun.leads (s := ({ s with image.heap := h } : Interpreter).entering env code)
      (Nat.succ_ne_zero _) hlimit hentered).mono (fun _ s₁ h₁ => ⟨fun v s₂ _ h₂ => ?_, fun _ => ?_⟩) fun e s₁ h₁ => ?_
    · exact (h₁.trans (h₂.tame.uncounted.within h₁.limit)).leaving hnesting
    · exact (if_neg stackUnderflow_ne_stepLimit).mpr
        ((h₁.trans ((uncounted_withoutBindings ..).within h₁.limit)).leaving hnesting)
    · have hended := h₁.uncounted (uncounted_withoutBindings s₁
        (s₁.machine.bindings.height - s.machine.bindings.height))
      -- Leaving puts the registers back, which have no part in the count.
      unfold FailsLimited at hended ⊢
      split at hended
      · next he => exact (if_pos he).mpr (hended.leaving hnesting)
      · next he => exact (if_neg he).mpr (hended.leaving hnesting)

/-- The instructions count nothing besides the step that they are. -/
theorem limited_runningCongruence : RunningCongruence fun _ x _ => Limited x where
  toBasicCongruence := limited_congruence.toBasicCongruence
  walk g _ hends := (uncounts_walk g hends).limited
  count := limited_count
  turns hx := hx.calms.uncounts.limited
  bindSpecial id v := (uncounts_bindSpecial id v).limited
  unbindSpecial id := (uncounts_unbindSpecial id).limited
  unwindBindings height := (uncounts_unwindBindings height).limited
  returnToCaller := calms_returnToCaller.uncounts.limited
  execute := limited_execute
  setCar _ _ := (uncounts_modifyHeap _).limited
  setCdr _ _ := (uncounts_modifyHeap _).limited
  setValue id _ := (uncounts_update id _).limited

/-- Everything that happens inside of a run is limited. -/
theorem limited_machineCongruence :
    MachineCongruence fun _ x _ => Steady Retains (fun _ => True) x ∧ Limited x :=
  limited_runningCongruence.machineCongruence limited_congruence limited_definitionBy

/-- A step is counted before its instruction is marked, so there are never more marks than steps. -/
theorem limited_markedStep : Steady Retains (fun _ => True) markedStep ∧ Limited markedStep := by
  have hR := retains_failsWith
  have hexecute (code : Opcode) := limited_machineCongruence.toRunningCongruence.executeInstruction code
  have hstep : markedStep = (do count; let code ← fetch; mark .instruction; pure code) >>=
      fun code => noteStep code >>= fun _ => Machine.execute code := by
    simp only [markedStep, bind_assoc, pure_bind]
  rw [hstep]
  refine ⟨hR.bind ?_ fun code => hR.bind (hR.mild (quiet_noteStep code).mild) fun _ => (hexecute code).1,
    limited_markedFetch.bind fun code => (quiet_noteStep code).uncounts.limited.bind fun _ =>
      (hexecute code).2⟩
  refine hR.bind (hR.mild mild_count) fun _ => ?_
  refine hR.bind (hR.mild quiet_fetch.mild) fun code => ?_
  exact hR.bind ⟨fun s => retains_marked s _⟩ fun _ => hR.mild (quiet_pure code).mild

/-- A run that is out of steps is marked, and its failure is passed on. -/
theorem limited_markedInside {run : LispM Unit} (hrun : Limited run) : Limited (markedInside run) where
  leads {n s} hnesting hlimit hs := by
    unfold markedInside
    rw [leads_bind, leads_attempt]
    refine (hrun.leads hnesting hlimit hs).mono (fun _ s₁ h₁ => h₁) fun e s₁ h₁ => ?_
    split
    · next heq =>
      obtain rfl := Except.error.inj heq
      have hbeyond : BeyondLimit n s s₁ := h₁
      have hexhausted : BeyondLimit n s (s₁.marked .exhausted) :=
        ⟨hbeyond.nesting, hbeyond.maxSteps, hbeyond.steps, instructions_exhausted s₁ ▸ hbeyond.instructions⟩
      exact hexhausted
    · exact h₁

/-- Marking a run does not change the symbols that it may leave behind. -/
theorem retains_markedInside {run : LispM Unit} (hrun : Steady Retains (fun _ => True) run) :
    Steady Retains (fun _ => True) (markedInside run) := by
  unfold markedInside
  refine ⟨fun s => ?_⟩
  rw [leads_bind, leads_attempt]
  refine (hrun.leads s).mono (fun _ _ h => h) fun e s₁ h => ?_
  split
  · exact fun _ => (h trivial).trans (retains_marked s₁ .exhausted)
  · exact h

/-- A run of marked steps, by induction on its fuel, together with the runs and the compiler inside
    of it. -/
theorem limited_markedRun (fuel : Nat) (flow : Flow) : Limited (markedRun .instructions fuel flow) := by
  refine ((limited_machineCongruence.marked limited_markedStep (fun hx => hx) (fun {run run'} hrun => ?_) fuel).2 flow).2
  exact ⟨retains_markedInside hrun.1, limited_markedInside hrun.2⟩

end

/-! ## Outermost runs -/

section

variable {n : Nat} {s : Interpreter} {env : Value} {h : Heap} {args : List Value} {run : LispM Unit}

/-- An outermost run starts to count anew, and ends within its limit or fails beyond it. -/
theorem leads_outermost (hrun : Limited run) (code : Value) (hnesting : s.machine.nesting = 0)
    (hlimit : s.machine.maxSteps = some n) (hargs : argumentEnv args s.image.heap = .ok env h) :
    Leads (Interpreter.execute run code args) s
      (fun _ s' => s'.machine.steps ≤ n ∧ s'.instructions ≤ s.instructions + n ∧
        s'.exhaustions = s.exhaustions)
      fun e s' => (s'.machine.steps ≤ n + 1 ∧ (s'.machine.steps = n + 1 ↔ e = .error .stepLimit)) ∧
        s'.instructions ≤ s.instructions + n ∧
        (s'.exhaustions ≠ s.exhaustions → e = .error .stepLimit) := by
  refine leads_execute (fun h' hroom => ?_) fun env' h' _ => ?_
  · rw [hargs] at hroom
    cases hroom
  -- The outermost run starts its counter anew, so the limit holds for this run as a whole.
  · have hzero : (({ s with image.heap := h' } : Interpreter).entering env' code).machine.steps = 0 :=
      if_pos hnesting
    have hends {s₁ : Interpreter}
        (h₁ : WithinLimit n (({ s with image.heap := h' } : Interpreter).entering env' code) s₁) :
        s₁.machine.steps ≤ n ∧ s₁.instructions ≤ s.instructions + n ∧ s₁.exhaustions = s.exhaustions := by
      have hinstructions : s₁.instructions + 0 ≤ s.instructions + s₁.machine.steps :=
        hzero ▸ h₁.instructions
      have hlimit := h₁.limit
      exact ⟨hlimit, by omega, h₁.exhaustions⟩
    have hfails {e : Failure} {s₁ : Interpreter} (he : e ≠ .error .stepLimit)
        (h₁ : WithinLimit n (({ s with image.heap := h' } : Interpreter).entering env' code) s₁) :
        (s₁.machine.steps ≤ n + 1 ∧ (s₁.machine.steps = n + 1 ↔ e = .error .stepLimit)) ∧
          s₁.instructions ≤ s.instructions + n ∧
          (s₁.exhaustions ≠ s.exhaustions → e = .error .stepLimit) := by
      obtain ⟨hsteps, hinstructions, hexhaustions⟩ := hends h₁
      exact ⟨⟨Nat.le_succ_of_le hsteps, iff_of_false (by omega) he⟩, hinstructions,
        fun hne => absurd hexhaustions hne⟩
    -- The run may succeed, succeed without a value, or fail; leaving its bindings counts no steps.
    refine (hrun.leads (s := ({ s with image.heap := h' } : Interpreter).entering env' code)
      (Nat.succ_ne_zero _) hlimit (hzero ▸ Nat.zero_le n)).mono
      (fun _ s₁ h₁ => ⟨fun v s₂ _ h₂ => ?_, fun _ => ?_⟩) fun e s₁ h₁ => ?_
    · have hended := hends (h₁.trans (h₂.tame.uncounted.within h₁.limit))
      exact hended
    · have hended := hfails stackUnderflow_ne_stepLimit (h₁.trans ((uncounted_withoutBindings s₁
        (s₁.machine.bindings.height - s.machine.bindings.height)).within h₁.limit))
      exact hended
    · unfold FailsLimited at h₁
      split at h₁
      · next he =>
        subst he
        have hinstructions : s₁.instructions + 0 ≤ s.instructions + n := hzero ▸ h₁.instructions
        exact ⟨⟨Nat.le_of_eq h₁.steps, iff_of_true h₁.steps rfl⟩, hinstructions, fun _ => rfl⟩
      · next he =>
        have hended := hfails he (h₁.trans ((uncounted_withoutBindings s₁
          (s₁.machine.bindings.height - s.machine.bindings.height)).within h₁.limit))
        exact hended

/-- The limit on the steps bounds the outermost run with all the runs inside of it. The count
    ends at most one beyond the limit, and there exactly if the run fails for want of steps.
    In the marked run, which goes as the run does, no more instructions are marked than the
    limit allows, and if any run inside of it is out of steps, it fails for want of steps. -/
theorem execute_limited {fuel : Nat} (code : Value) (hnesting : s.machine.nesting = 0)
    (hlimit : s.machine.maxSteps = some n) (hargs : argumentEnv args s.image.heap = .ok env h) :
    Leads (Interpreter.execute (runFrom fuel .next) code args) s (fun _ s' => s'.machine.steps ≤ n)
        (fun e s' => s'.machine.steps ≤ n + 1 ∧ (s'.machine.steps = n + 1 ↔ e = .error .stepLimit)) ∧
      Matches Relogged (Interpreter.execute (markedRun .instructions fuel .next) code args s)
        (Interpreter.execute (runFrom fuel .next) code args s) ∧
      Leads (Interpreter.execute (markedRun .instructions fuel .next) code args) s
        (fun _ s' => s'.instructions ≤ s.instructions + n ∧ s'.exhaustions = s.exhaustions)
        fun e s' => s'.instructions ≤ s.instructions + n ∧
          (s'.exhaustions ≠ s.exhaustions → e = .error .stepLimit) := by
  have hplain := leads_outermost ((limited_machineCongruence.engine fuel).2 .next).2 code hnesting hlimit hargs
  have hmarked := leads_outermost (limited_markedRun fuel .next) code hnesting hlimit hargs
  refine ⟨hplain.mono (fun _ _ h => h.1) fun _ _ h => h.1, ?_,
    hmarked.mono (fun _ _ h => h.2) fun _ _ h => h.2⟩
  exact (relogged_execute (relogged_instructions fuel .next) code args).run (.intro s s.image.log)

end

/-- `LDC 1 POP STOP`, which takes three steps, with a limit of two. -/
def limitedToTwo : Interpreter :=
  { beforeCode [.op .ldc, .int 1, .op .pop, .op .stop] with machine.maxSteps := some 2 }

/-- Two of the three instructions are executed. -/
theorem execute_limited_two :
    Leads (Interpreter.execute (runFrom 9 .next) (.pair ⟨3⟩) []) limitedToTwo (fun _ _ => False)
        (fun e s' => e = .error .stepLimit ∧ s'.machine.steps = 3) ∧
      Leads (Interpreter.execute (markedRun .instructions 9 .next) (.pair ⟨3⟩) []) limitedToTwo (fun _ _ => False)
        fun e s' => e = .error .stepLimit ∧ s'.instructions ≤ limitedToTwo.instructions + 2 := by
  obtain ⟨hplain, -, hmarked⟩ :
      _ ∧ Matches Relogged (Interpreter.execute (markedRun .instructions 9 .next) (.pair ⟨3⟩) [] limitedToTwo) _ ∧ _ :=
    execute_limited (.pair ⟨3⟩) rfl rfl rfl
  have hplainFails : Leads (Interpreter.execute (runFrom 9 .next) (.pair ⟨3⟩) []) limitedToTwo
      (fun _ _ => False) fun e _ => e = .error .stepLimit := by decide +kernel
  have hmarkedFails : Leads (Interpreter.execute (markedRun .instructions 9 .next) (.pair ⟨3⟩) []) limitedToTwo
      (fun _ _ => False) fun e _ => e = .error .stepLimit := by decide +kernel
  exact ⟨(hplain.and hplainFails).mono (fun _ _ h => h.2) fun _ _ h => ⟨h.2, h.1.2.2 h.2⟩,
    (hmarked.and hmarkedFails).mono (fun _ _ h => h.2) fun _ _ h => ⟨h.2, h.1.1⟩⟩

end StackLisp
