import StackLisp.Proofs.Streams.Compiler
import StackLisp.Proofs.Streams.Observed
import StackLisp.Proofs.Streams.Write

/-!
# Code stays while the machine runs

The machine writes to pairs only where a program sees them, and a program sees no pair of code
(`Interpreter.Separate.not_isCode`). So runs keep all code, and also those that compile forms: what
the compiler changes is the code that it is making. With an observer at every moment, the same goes
for whatever lasts through what the observer marks (`Observes`, `tracks_and_preserves`).
-/

namespace StackLisp

open Interpreter Machine Compiler

variable {α β : Type} {K : Interpreter → Interpreter → Prop}

/-! ## What programs can write -/

section

variable {s s' : Interpreter} {flow : Flow} {part : Half} {p : PairId}

/-- The pair is an argument. -/
theorem Builtin.mem_of_writes? {b : Builtin} {items : List Value} (h : b.writes? items = some (part, p)) :
    .pair p ∈ items := by
  unfold Builtin.writes? at h
  split at h
  · cases h
    simp
  · cases h
    simp
  · cases h

/-- What is written is on the stack. -/
theorem Interpreter.mem_of_writes? (h : s.writes? flow = some (part, p)) : .pair p ∈ s.machine.stack.items := by
  have hby {id : PrimitiveId} {items : List Value} (h : s.writesBy? id items = some (part, p)) : .pair p ∈ items := by
    obtain ⟨b, -, hb⟩ := Option.bind_eq_some_iff.1 h
    exact Builtin.mem_of_writes? hb
  -- The arguments of a call and the function called lie on top of the stack.
  have hbelow {argc : Nat} (h : s.writesBelow? argc = some (part, p)) : .pair p ∈ s.machine.stack.items := by
    unfold writesBelow? at h
    split at h
    · exact List.mem_of_mem_eraseIdx (hby h)
    · cases h
  unfold writes? at h
  split at h
  · split at h
    · exact hby h
    · exact (Option.bind_eq_some_iff.1 h).elim fun _ h => hbelow h.2
    · exact (Option.bind_eq_some_iff.1 h).elim fun _ h => hbelow h.2
    · cases h
  · exact hbelow h
  · cases h

/-- Programs see no code. -/
theorem Interpreter.Separate.not_isCode {values : List Value} (hs : s.Separate values)
    (hp : s.Sees values (.pair p)) : ¬s.image.heap.IsCode p := by
  rintro (⟨op, among⟩ | ⟨instr, tail⟩ | ⟨cdr, op⟩)
  · exact hs.apart p hp (.instruction op among)
  · obtain ⟨id, rfl, -⟩ := Heap.car_of_instruction? instr
    exact hs.apart p hp (.table (.instruction instr) tail)
  · have hnext := Sees.cdr hp
    rw [cdr] at hnext
    exact hs.apart _ hnext (.instruction op .here)

/-- A step keeps code. -/
theorem Altered.keepsCode (h : Altered (s.writes? flow) s s') (hs : s.Separate []) :
    s.image.heap.KeepsCode s'.image.heap := by
  have hne (part : Half) (p : PairId) (hp : s.image.heap.IsCode p) : s.writes? flow ≠ some (part, p) := fun heq =>
    hs.not_isCode (.operand (mem_of_writes? heq)) hp
  exact ⟨h.pairCount, fun p hlt hp => h.half .car p hlt (hne .car p hp), fun p hlt hp => h.half .cdr p hlt (hne .cdr p hp)⟩

end

/-! ## Runs -/

/-- What writes to no pair adds pairs at most. -/
theorem preserves_of_alters (hK : Lasting K) {x : LispM α} (hx : ∀ s, Alters none x s) : Preserves K x := fun s _ =>
  Leads.mono (hx s) (fun _ _ h => .of_extended hK h.extended h.functions h.marks h.scopes)
    fun _ _ h => .of_extended hK h.extended h.functions h.marks h.scopes

/-- A run adds pairs for its arguments, and is said to keep code itself. -/
theorem preserves_execute (hK : Lasting K) {run : LispM Unit} (hr : Preserves K run) (code : Value) (args : List Value) :
    Preserves K (Interpreter.execute run code args) := by
  intro s hs
  have hmade := KeepsPairs.leads (x := argumentEnv args) s.image.heap
  refine leads_execute (fun h heq => ?_) fun env h heq => ?_
  · rw [leads_of_error heq] at hmade
    exact .of_extended hK hmade.2 rfl rfl rfl
  · rw [leads_of_ok heq] at hmade
    have hr₁ : Records K 0 [] [] s (({ s with image.heap := h } : Interpreter).entering env code) :=
      .of_extended hK hmade rfl rfl rfl
    -- Leaving a run puts back registers and bindings, which no record is about.
    have hleft {s₁ s₂ : Interpreter} (hr₂ : Records K 0 [] [] (({ s with image.heap := h } : Interpreter).entering env code) s₁)
        (heap : s₁.image.heap.Extended s₂.image.heap) (functions : s₂.image.functions = s₁.image.functions)
        (marks : s₂.image.log.marks = s₁.image.log.marks) (scopes : s₂.scopes.unwarned = s₁.scopes.unwarned) :
        Records K 0 [] [] s s₂ := (hr₁.trans hK hr₂).trans hK (.of_extended hK heap functions marks scopes)
    refine (hr _ (hr₁.bodied hs)).mono (fun _ s₁ hr₂ => ⟨fun v s₂ _ hcalm => ?_, fun _ => ?_⟩) fun e s₁ hr₂ => ?_
    · exact hleft hr₂ hcalm.heap hcalm.functions hcalm.marks hcalm.scopes
    · exact hleft hr₂ (.refl _) rfl rfl rfl
    · exact hleft hr₂ (.refl _) rfl rfl rfl

/-- What writes to no pair goes through the machine. -/
theorem preserves_returningCongruence (hK : Lasting K) : ReturningCongruence fun _ x _ => Preserves K x where
  quiet := preserves_quiet hK
  bind hx hf := hx.bind hK hf
  gensym := preserves_gensym hK
  walk g hg hends := preserves_of_alters hK (alters_turningCongruence.walk g hg hends)
  count := preserves_of_alters hK alters_turningCongruence.count
  turns hx := preserves_of_calms hK hx.calms
  bindSpecial id v := preserves_of_alters hK (alters_turningCongruence.bindSpecial id v)
  unbindSpecial id := preserves_of_alters hK (alters_turningCongruence.unbindSpecial id)
  unwindBindings height := preserves_of_alters hK (alters_turningCongruence.unwindBindings height)
  returnToCaller := preserves_of_calms hK calms_returnToCaller
  execute hr := preserves_execute hK hr

/-- What the machine asks for, calls apart. -/
theorem preserves_serve (hK : Lasting K) {compile : CompileRule} {run : LispM Unit} (hc : Tracks K compile)
    (hr : Preserves K run) (fuel : Nat) {r : Request} (hcall : ∀ argc mode, r ≠ .call argc mode) :
    Preserves K (serve compile run fuel r) :=
  have h := preserves_returningCongruence hK
  @TurningCongruence.serve (fun _ x _ => Preserves K x) h.toTurningCongruence compile compile run run
    (preserves_compileApart hK hc) (preserves_execute hK hr) fuel r
    (fun argc mode heq => absurd heq (hcall argc mode)) fun target value _ => h.exitBlock target value fuel 0

/-- What goes on from here keeps code and what lasts, whether or not it fails. -/
def PreservesFrom (K : Interpreter → Interpreter → Prop) (s : Interpreter) (x : LispM α) : Prop :=
  Leads x s (fun _ s' => Records K 0 [] [] s s') fun _ s' => Records K 0 [] [] s s'

/-- What comes after is known to preserve from any state. -/
theorem PreservesFrom.bind (hK : Lasting K) {s : Interpreter} {x : LispM α} {f : α → LispM β} (hx : PreservesFrom K s x)
    (hf : ∀ a, Preserves K (f a)) (hs : s.Bodied) : PreservesFrom K s (x >>= f) := by
  refine (leads_bind _).2 (Leads.mono hx (fun a s' hr => ?_) fun _ _ h => h)
  exact (hf a s' (hr.bodied hs)).mono (fun _ _ h => hr.trans hK h) fun _ _ h => hr.trans hK h

/-- A check only lets the run go on. -/
theorem preservesFrom_ensure (hK : Lasting K) {s : Interpreter} {P : Interpreter → Prop} {x : LispM α}
    (hx : P s → PreservesFrom K s x) : PreservesFrom K s (do ensure P; x) := by
  unfold PreservesFrom
  by_cases hP : P s
  · rw [leads_bind, leads_of_ok (ensure_of_holds hP)]
    exact hx hP
  · rw [leads_bind, leads_of_error (ensure_of_not hP)]
    exact .refl hK s

/-! ## Observed runs -/

/-- What an observer marks at a moment that is possible keeps something that lasts, and so do the
    steps and calls that it observes. -/
structure Observes (K : Interpreter → Interpreter → Prop) (o : Observer) : Prop extends Lasting K where
  compile {s : Interpreter} {cont : Value} {names : List Value} {ending : Ending} (opened : s.Open cont names ending) :
    K s (s.markedAll (o.before (.compile cont) s))
  compiled {s s' : Interpreter} {cont c : Value} {names : List Value} {ending : Ending}
    (opened : s.Open cont names ending) (coded : Coded K 0 names ending cont s c s') :
    K s' (s'.markedAll (o.after (.compile cont) s (some c) s'))
  fell {s s' : Interpreter} {cont : Value} {names : List Value} {ending : Ending}
    (opened : s.Open cont names ending) (fallen : Fallen K (ending.waits names) s s') :
    K s' (s'.markedAll (o.after (.compile cont) s none s'))
  go {s : Interpreter} {flow : Flow} (bodied : s.Bodied) : K s (s.markedAll (o.before (.go flow) s))
  altered {s s' : Interpreter} {flow : Flow} (bodied : s.Bodied)
    (keeps : (s.markedAll (o.before (.go flow) s)).image.heap.KeepsCode s'.image.heap)
    (altered : Altered (s.writes? flow) (s.markedAll (o.before (.go flow) s)) s') : K s s'
  gone {s s' : Interpreter} {flow : Flow} (bodied : s.Bodied) (lasting : K s s') (bodied' : s'.Bodied) :
    K s' (s'.markedAll (o.after (.go flow) s none s'))

section

variable {o : Observer} {s s' : Interpreter} {ms : List Mark}

/-- Marks are no change but in the log. -/
theorem Records.marked (h : K s (s.markedAll ms)) : Records K 0 [] [] s (s.markedAll ms) := by
  obtain ⟨log, heq⟩ := markedAll_eq ms s
  rw [heq] at h ⊢
  exact .of_kept h (.refl _) rfl rfl

/-- What is observed starts with the marks that come before it, and ends with those after it. -/
theorem leads_observe {task : Task} {code? : α → Option Value} {x : LispM α} {ok : α → Interpreter → Prop}
    {err : Failure → Interpreter → Prop} :
    Leads (observe o task code? x) s ok err ↔
      Leads x (s.markedAll (o.before task s))
        (fun a s' => ok a (s'.markedAll (o.after task s (code? a) s')))
        fun e s' => err e (s'.markedAll (o.after task s none s')) := by
  unfold observe
  simp only [leads_bind, leads_get, leads_markAll, leads_attempt]
  rfl

/-- The observer is told the code only when the form has compiled. -/
theorem codes_observe (ho : Observes K o) {x : LispM Value} {cont : Value} (hx : Codes K 0 x cont) :
    Codes K 0 (observe o (.compile cont) some x) cont := by
  intro s names ending hopen
  have hmarked := Records.marked (ho.compile hopen)
  refine leads_observe.2 ((hx (hopen.after hmarked)).mono (fun c s' h => ?_) fun e s' h => ?_)
  · have hcoded := h.after ho.toLasting hmarked
    exact hcoded.records ho.toLasting (Records.marked (ho.compiled hopen hcoded))
  · obtain ⟨rs, ts, hr⟩ := h.after ho.toLasting hmarked.any
    exact ⟨_, _, hr.trans ho.toLasting (Records.marked (ho.fell hopen ⟨_, _, hr⟩)).any⟩

/-- A step or a request leaves marks as well. -/
theorem preservesFrom_observe (ho : Observes K o) (hs : s.Bodied) {flow : Flow} {x : LispM Flow}
    (hx : Leads x (s.markedAll (o.before (.go flow) s)) (fun _ s' => Records K 0 [] [] s s')
      fun _ s' => Records K 0 [] [] s s') :
    PreservesFrom K s (observe o (.go flow) (fun _ => none) x) := by
  have hafter {s' : Interpreter} (hr : Records K 0 [] [] s s') :
      Records K 0 [] [] s (s'.markedAll (o.after (.go flow) s none s')) :=
    hr.trans ho.toLasting (.marked (ho.gone hs hr.lasting (hr.bodied hs)))
  exact leads_observe.2 (hx.mono (fun _ _ hr => hafter hr) fun _ _ hr => hafter hr)

/-- What is written by a step or a call is no code. -/
theorem preservesFrom_altered (ho : Observes K o) (hs : s.Bodied) (hsep : s.Separate []) {flow : Flow}
    {x : LispM Flow} (hx : ∀ s, Alters (s.writes? flow) x s) :
    PreservesFrom K s (observe o (.go flow) (fun _ => none) x) := by
  have hx := hx (s.markedAll (o.before (.go flow) s))
  have hmarked : (s.markedAll (o.before (.go flow) s)).writes? flow = s.writes? flow := by
    obtain ⟨log, heq⟩ := markedAll_eq (o.before (.go flow) s) s
    rw [heq]
    rfl
  rw [hmarked] at hx
  -- marks are about the log, so the heap before the step is that of `s`
  have hrecords {s' : Interpreter} (h : Altered (s.writes? flow) (s.markedAll (o.before (.go flow) s)) s') :
      Records K 0 [] [] s s' := by
    have hkeeps := Altered.keepsCode (hmarked ▸ h) (((Relogged.refl s).markedAll _).separate.2 hsep)
    have hlasting := ho.altered hs hkeeps h
    obtain ⟨log, heq⟩ := markedAll_eq (o.before (.go flow) s) s
    rw [heq] at h hkeeps
    exact .of_kept hlasting hkeeps h.functions h.scopes
  exact preservesFrom_observe ho hs (Leads.mono hx (fun _ _ h => hrecords h) fun _ _ h => hrecords h)

end

/-- Observed runs keep what lasts, and so do observed compilations. -/
theorem tracks_and_preserves {o : Observer} (ho : Observes K o) (fuel : Nat) :
    Tracks K (observedCompile o fuel) ∧ ∀ flow, Preserves K (observedRun o fuel flow) := by
  have hK := ho.toLasting
  induction fuel with
  | zero =>
    refine ⟨fun form env cont => ?_, fun flow => ?_⟩
    · rw [observedCompile]
      exact codes_throw hK _
    · rw [observedRun]
      exact (preserves_returningCongruence hK).endless
  | succ fuel ih =>
    obtain ⟨hc, hr⟩ := ih
    refine ⟨fun form env cont => ?_, fun flow s hs => ?_⟩
    · rw [observedCompile]
      have h := preserves_returningCongruence hK
      exact codes_observe ho (tracks_compileForm hK hc (fun f args => @BasicCongruence.expandMacro (fun _ x _ => Preserves K x)
        h.toBasicCongruence _ (observedRun o fuel .next) (preserves_execute hK (hr .next)) f args) form env cont)
    · cases flow with
      | stop =>
        rw [observedRun]
        exact preservesFrom_ensure hK fun _ => .refl hK s
      | next =>
        rw [observedRun]
        exact preservesFrom_ensure hK fun hsep => (preservesFrom_altered ho hs hsep alters_step).bind hK hr hs
      | request r =>
        rw [observedRun]
        refine preservesFrom_ensure hK fun hsep => PreservesFrom.bind hK ?_ hr hs
        -- a call may be of `rplaca` or `rplacd`; whatever else is asked for writes to no pair
        by_cases hcall : ∃ argc mode, r = .call argc mode
        · obtain ⟨argc, mode, rfl⟩ := hcall
          exact preservesFrom_altered ho hs hsep (alters_call argc mode)
        · have hmarked := Records.marked (ho.go hs : K s (s.markedAll (o.before (.go (.request r)) s)))
          refine preservesFrom_observe ho hs ((preserves_serve hK hc (hr .next) fuel (fun argc mode heq =>
            hcall ⟨argc, mode, heq⟩) _ (hmarked.bodied hs)).mono ?_ ?_)
          · exact fun _ _ h => hmarked.trans hK h
          · exact fun _ _ h => hmarked.trans hK h

end StackLisp
