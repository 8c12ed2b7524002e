import StackLisp.Proofs.Actions.Mark
import StackLisp.Proofs.Loops

/-!
# Relations between actions

The compiler and the machine are put together from few kinds of actions. Most of
them are *quiet*: they leave the symbols, the dynamic bindings, the pairs that there
are and the scopes alone, the number of runs going on and the steps that are counted,
fail in ordinary ways only, and do the same in parallel interpreters. A relation between actions that holds of each
quiet action and itself, and goes from the parts of an action to the whole, is a
*congruence* (`Congruence`). Whatever takes part in an action as a parameter, such
as the compiler for the forms inside, may then be replaced by something related.

The compiler also opens and closes scopes. Where that is all there is to it, and no tail
call becomes pending, an action is still *tame* (`Tames`). The machine leaves the scopes
to the compiler, so what goes through the machine need not know about this
(`BasicCongruence`).

A congruence that only looks at its first action is a property of actions. So this
is also how one shows that everything the compiler does has a property.

Where pairs and pending tail calls do not matter, it is enough that an action is
*mild* (`Mild`): it leaves the symbols and the bindings alone.
-/

namespace StackLisp

open Interpreter Machine

variable {α β : Type}

/-! ## Quiet actions -/

/-- The interpreters have the same symbols and dynamic bindings, as many runs are going on
    in them, and the same marks are in their logs. -/
structure Still (s s' : Interpreter) : Prop where
  symbols : s'.image.symbols = s.image.symbols
  bindings : s'.machine.bindings = s.machine.bindings
  nesting : s'.machine.nesting = s.machine.nesting
  marks : s'.image.log.marks = s.image.log.marks

theorem Still.refl (s : Interpreter) : Still s s := ⟨rfl, rfl, rfl, rfl⟩

theorem Still.trans {s s' s'' : Interpreter} (h : Still s s') (h' : Still s' s'') : Still s s'' :=
  ⟨h'.symbols.trans h.symbols, h'.bindings.trans h.bindings, h'.nesting.trans h.nesting,
    h'.marks.trans h.marks⟩

/-- The image has the functions of an earlier one, with the same code, and possibly more. -/
structure Image.KeepsFunctions (image image' : Image) : Prop where
  size : image.functions.size ≤ image'.functions.size
  code : ∀ f : FunctionId, f.index < image.functions.size →
    (image'.function f).code = (image.function f).code

theorem Image.KeepsFunctions.refl (image : Image) : image.KeepsFunctions image :=
  ⟨Nat.le_refl _, fun _ _ => rfl⟩

theorem Image.KeepsFunctions.trans {i i' i'' : Image} (h : i.KeepsFunctions i')
    (h' : i'.KeepsFunctions i'') : i.KeepsFunctions i'' where
  size := Nat.le_trans h.size h'.size
  code f hf := (h'.code f (Nat.lt_of_lt_of_le hf h.size)).trans (h.code f hf)

/-- Where the table of functions is the same, so are the functions. -/
theorem Image.KeepsFunctions.of_eq {i i' : Image} (h : i'.functions = i.functions) :
    i.KeepsFunctions i' := by
  refine ⟨Nat.le_of_eq (by rw [h]), fun f _ => ?_⟩
  simp only [Image.function, h]

/-- The interpreters are still, the later one has the pairs and the functions of the earlier one,
    as many steps are counted of those allowed, and no tail call has become pending. -/
structure Tame (s s' : Interpreter) : Prop extends Still s s' where
  heap : s.image.heap.Extended s'.image.heap
  functions : s.image.KeepsFunctions s'.image
  steps : s'.machine.steps = s.machine.steps
  maxSteps : s'.machine.maxSteps = s.machine.maxSteps
  pendingTails : s'.scopes.pendingTails = s.scopes.pendingTails

theorem Tame.refl (s : Interpreter) : Tame s s := ⟨.refl s, .refl _, .refl _, rfl, rfl, rfl⟩

theorem Tame.trans {s s' s'' : Interpreter} (h : Tame s s') (h' : Tame s' s'') : Tame s s'' :=
  ⟨h.toStill.trans h'.toStill, h.heap.trans h'.heap, h.functions.trans h'.functions,
    h'.steps.trans h.steps, h'.maxSteps.trans h.maxSteps, h'.pendingTails.trans h.pendingTails⟩

/-- What the compiler knows, but for the warnings it has given. -/
def Scopes.unwarned (c : Scopes) : Scopes := { c with warnings := #[] }

/-- The interpreters are still, the later one has the pairs of the earlier one and its functions,
    as many steps are counted of those allowed, and the scopes are the same, warnings apart. -/
structure Calm (s s' : Interpreter) : Prop extends Still s s' where
  heap : s.image.heap.Extended s'.image.heap
  functions : s'.image.functions = s.image.functions
  steps : s'.machine.steps = s.machine.steps
  maxSteps : s'.machine.maxSteps = s.machine.maxSteps
  scopes : s'.scopes.unwarned = s.scopes.unwarned

theorem Calm.refl (s : Interpreter) : Calm s s := ⟨.refl s, .refl _, rfl, rfl, rfl, rfl⟩

theorem Calm.trans {s s' s'' : Interpreter} (h : Calm s s') (h' : Calm s' s'') : Calm s s'' :=
  ⟨h.toStill.trans h'.toStill, h.heap.trans h'.heap, h'.functions.trans h.functions,
    h'.steps.trans h.steps, h'.maxSteps.trans h.maxSteps, h'.scopes.trans h.scopes⟩

/-- A calm change adds no functions, so it keeps those that there are. -/
theorem Calm.tame {s s' : Interpreter} (h : Calm s s') : Tame s s' :=
  ⟨h.toStill, h.heap, .of_eq h.functions, h.steps, h.maxSteps,
    congrArg (·.pendingTails) h.scopes⟩

/-- The action fails in ordinary ways only, so that it ends unless a list goes in circles. -/
structure FailsOrdinarily (x : LispM α) : Prop where
  ordinaryIn : ∀ s, Leads x s (fun _ _ => True) fun e s' => e.OrdinaryIn s'.image.heap

/-- An ordinary failure, without what it says of the heap. -/
theorem FailsOrdinarily.ordinary {x : LispM α} (hx : FailsOrdinarily x) (s : Interpreter) :
    Leads x s (fun _ _ => True) fun e _ => e.Ordinary :=
  (hx.ordinaryIn s).mono (fun _ _ h => h) fun _ _ h => h.ordinary

/-- The result is no failure but an ordinary one. -/
class OrdinaryResult (r : Except Error α) : Prop where
  ordinary : ∀ {e}, r = .error e → e.Ordinary

/-- A computation of two parts fails in the first one, or in the second one after it. -/
theorem bind_eq_error {r : Except Error α} {f : α → Except Error β} {e : Error}
    (h : (r >>= f) = .error e) : r = .error e ∨ ∃ a, r = .ok a ∧ f a = .error e := by
  cases r with
  | ok a => exact .inr ⟨a, rfl, h⟩
  | error e' =>
    cases h
    exact .inl rfl

instance (a : α) : OrdinaryResult (.ok a : Except Error α) := ⟨nofun⟩

instance (a : α) : OrdinaryResult (pure a : Except Error α) := ⟨nofun⟩

instance (r : Except Error α) (f : α → Except Error β) [hr : OrdinaryResult r] [hf : ∀ a, OrdinaryResult (f a)] :
    OrdinaryResult (r >>= f) where
  ordinary h := by
    rcases bind_eq_error h with h | ⟨a, -, h⟩
    · exact hr.ordinary h
    · exact (hf a).ordinary h

instance (h : Heap) (v : Value) : OrdinaryResult (h.head v) where
  ordinary heq := by
    unfold Heap.head at heq
    split at heq <;> cases heq
    trivial

instance (h : Heap) (v : Value) : OrdinaryResult (h.tail v) where
  ordinary heq := by
    unfold Heap.tail at heq
    split at heq <;> cases heq
    trivial

instance (h : Heap) (v : Value) : OrdinaryResult (h.second v) :=
  inferInstanceAs (OrdinaryResult (do h.head (← h.tail v)))

instance (h : Heap) (id : FrameId) : OrdinaryResult (h.filledSlots id) where
  ordinary heq := by
    unfold Heap.filledSlots at heq
    dsimp only at heq
    split at heq <;> cases heq
    trivial

instance (h : Heap) (id : FrameId) (slot : Nat) : OrdinaryResult (h.frameSlot id slot) where
  ordinary heq := by
    unfold Heap.frameSlot at heq
    obtain heq | ⟨slots, -, heq⟩ := bind_eq_error heq
    · exact OrdinaryResult.ordinary heq
    · split at heq <;> cases heq
      trivial

instance (t : SymbolTable) (id : SymbolId) : OrdinaryResult (t.value id) where
  ordinary heq := by
    unfold SymbolTable.value at heq
    split at heq <;> cases heq
    trivial

instance (t : SymbolTable) (id : SymbolId) : OrdinaryResult (t.functionValue id) where
  ordinary heq := by
    unfold SymbolTable.functionValue at heq
    split at heq <;> cases heq <;> trivial

instance (arity : Arity) (name : String) (argc : Nat) : OrdinaryResult (arity.check name argc) where
  ordinary heq := by
    unfold Arity.check at heq
    split at heq <;> cases heq
    trivial

/-- The action leaves the symbols and the dynamic bindings alone, and marks nothing, whether
    or not it fails. -/
structure Mild (x : LispM α) : Prop where
  leads : ∀ s, Leads x s (fun _ s' => Still s s') fun _ s' => Still s s'

/-- The action also leaves alone the pairs that there are, the steps and the pending tail
    calls. -/
structure Tames (x : LispM α) : Prop extends FailsOrdinarily x where
  tame : ∀ s, Leads x s (fun _ s' => Tame s s') fun _ s' => Tame s s'

/-- The action also leaves the scopes alone. -/
structure Calms (x : LispM α) : Prop extends FailsOrdinarily x where
  calm : ∀ s, Leads x s (fun _ s' => Calm s s') fun _ s' => Calm s s'

/-- Besides, the action does the same in parallel interpreters. -/
structure Quiet (x : LispM α) : Prop extends Calms x where
  even : Even x

/-- The action leaves everything alone. -/
structure Looks (x : LispM α) : Prop extends FailsOrdinarily x where
  leads : ∀ s, Leads x s (fun _ s' => s' = s) fun _ s' => s' = s
  even : Even x

/-- The action fails in a given way, and does nothing else that is not in the relation. -/
structure Rethrows (R : Interpreter → Interpreter → Prop) (e : Failure) (x : LispM α) : Prop where
  eq : ∀ s, ∃ s', x s = .error e s' ∧ R s s'

section

variable {x : LispM α} {f : α → LispM β}

/-- What the failure of the first part says of the heap, it says of the heap that is left. -/
theorem FailsOrdinarily.bind (hx : FailsOrdinarily x) (hf : ∀ a, FailsOrdinarily (f a)) : FailsOrdinarily (x >>= f) where
  ordinaryIn s := (leads_bind f).2 ((hx.ordinaryIn s).mono (fun a s' _ => (hf a).ordinaryIn s')
    fun _ _ h => h)

/-- Less is said of an action that is only mild. -/
theorem Tames.mild (hx : Tames x) : Mild x where
  leads s := (hx.tame s).mono (fun _ _ h => h.toStill) fun _ _ h => h.toStill

theorem Calms.tames (hx : Calms x) : Tames x where
  toFailsOrdinarily := hx.toFailsOrdinarily
  tame s := (hx.calm s).mono (fun _ _ h => h.tame) fun _ _ h => h.tame

theorem Calms.mild (hx : Calms x) : Mild x := hx.tames.mild

theorem Quiet.tames (hx : Quiet x) : Tames x := hx.toCalms.tames

theorem Quiet.mild (hx : Quiet x) : Mild x := hx.toCalms.mild

/-- A quiet action leaves the symbols and the bindings alone, also where it fails. -/
theorem Quiet.leads (hx : Quiet x) (s : Interpreter) :
    Leads x s (fun _ s' => Still s s') fun _ s' => Still s s' := hx.mild.leads s

theorem Mild.bind (hx : Mild x) (hf : ∀ a, Mild (f a)) : Mild (x >>= f) where
  leads s := (leads_bind f).2 ((hx.leads s).mono
    (fun a _ h => ((hf a).leads _).mono (fun _ _ h' => h.trans h') fun _ _ h' => h.trans h')
    fun _ _ h => h)

theorem Tames.bind (hx : Tames x) (hf : ∀ a, Tames (f a)) : Tames (x >>= f) where
  toFailsOrdinarily := hx.toFailsOrdinarily.bind fun a => (hf a).toFailsOrdinarily
  tame s := (leads_bind f).2 ((hx.tame s).mono
    (fun a _ h => ((hf a).tame _).mono (fun _ _ h' => h.trans h') fun _ _ h' => h.trans h')
    fun _ _ h => h)

theorem Calms.bind (hx : Calms x) (hf : ∀ a, Calms (f a)) : Calms (x >>= f) where
  toFailsOrdinarily := hx.toFailsOrdinarily.bind fun a => (hf a).toFailsOrdinarily
  calm s := (leads_bind f).2 ((hx.calm s).mono
    (fun a _ h => ((hf a).calm _).mono (fun _ _ h' => h.trans h') fun _ _ h' => h.trans h')
    fun _ _ h => h)

theorem Quiet.bind (hx : Quiet x) (hf : ∀ a, Quiet (f a)) : Quiet (x >>= f) where
  toCalms := hx.toCalms.bind fun a => (hf a).toCalms
  even := hx.even.bind fun a => (hf a).even

/-- An action that changes nothing is quiet. -/
theorem Looks.quiet (hx : Looks x) : Quiet x where
  toFailsOrdinarily := hx.toFailsOrdinarily
  calm s := (hx.leads s).mono (fun _ _ h => h ▸ .refl s) fun _ _ h => h ▸ .refl s
  even := hx.even

/-- An action that only looks leaves the state as it was, and its failures say something of the heap
    that it has looked at. -/
theorem Looks.leaves (hx : Looks x) (s : Interpreter) :
    Leads x s (fun _ s' => s' = s) fun e s' => s' = s ∧ e.OrdinaryIn s.image.heap := by
  refine ((hx.leads s).and (hx.ordinaryIn s)).mono (fun _ _ h => h.1) ?_
  rintro e s' ⟨rfl, he⟩
  exact ⟨rfl, he⟩

theorem Looks.bind (hx : Looks x) (hf : ∀ a, Looks (f a)) : Looks (x >>= f) where
  toFailsOrdinarily := hx.toFailsOrdinarily.bind fun a => (hf a).toFailsOrdinarily
  leads s := by
    refine (leads_bind f).2 ((hx.leads s).mono ?_ fun _ _ h => h)
    rintro a s' rfl
    exact (hf a).leads s'
  even := hx.even.bind fun a => (hf a).even

theorem rethrows_throw {R : Interpreter → Interpreter → Prop} (hR : ∀ s, R s s) (e : Failure) :
    Rethrows R e (throw e : LispM α) := ⟨fun s => ⟨s, rfl, hR s⟩⟩

/-- Something that always ends may be done before failing. -/
theorem Rethrows.after {R : Interpreter → Interpreter → Prop} {e : Failure} {y : LispM β}
    (hR : ∀ {s s' s''}, R s s' → R s' s'' → R s s'') (hy : Rethrows R e y)
    (hx : ∀ s, ∃ a s', x s = .ok a s' ∧ R s s') : Rethrows R e (x >>= fun _ => y) where
  eq s := by
    obtain ⟨a, s₁, h₁, hs₁⟩ := hx s
    obtain ⟨s₂, h₂, hs₂⟩ := hy.eq s₁
    refine ⟨s₂, ?_, hR hs₁ hs₂⟩
    simp only [Bind.bind, EStateM.bind, h₁, h₂]

/-- Less may be said of what is left when the failure is handed on. -/
theorem Rethrows.mono {R R' : Interpreter → Interpreter → Prop} {e : Failure} (hx : Rethrows R e x)
    (hR : ∀ s s', R s s' → R' s s') : Rethrows R' e x where
  eq s := by
    obtain ⟨s', hs', h⟩ := hx.eq s
    exact ⟨s', hs', hR s s' h⟩

theorem failsOrdinarily_raise {e : Error} (he : e.Ordinary) : FailsOrdinarily (raise e : LispM α) :=
  ⟨fun _ => he⟩

theorem looks_pure (a : α) : Looks (pure a : LispM α) := ⟨⟨fun _ => trivial⟩, fun _ => rfl, even_pure a⟩

theorem looks_raise (e : Error) (he : e.Ordinary) : Looks (raise e : LispM α) :=
  ⟨failsOrdinarily_raise he, fun _ => rfl, even_throw (.error e)⟩

/-- A look at the image, as long as it does not look at the log: in the log two runs that are
    compared may differ. -/
theorem looks_asks (g : Image → α) (hg : ∀ i log, g { i with log } = g i) :
    Looks (asks g) := ⟨⟨fun _ => trivial⟩, fun _ => rfl, even_asks hg⟩

theorem looks_shown (v : Value) : Looks (shown v) := looks_asks _ fun i log => i.print_log log v

theorem looks_nameOf (id : SymbolId) : Looks (nameOf id) := looks_asks _ fun _ _ => rfl

/-- A walk along the heap, if it is known to end unless the heap is twisted. -/
theorem looks_walk (g : Image → Except Failure α) (hg : ∀ i log, g { i with log } = g i)
    (hends : ∀ i e, g i = .error e → e.OrdinaryIn i.heap) : Looks (walk g) where
  ordinaryIn s := by
    rw [leads_walk]
    split
    · trivial
    · next heq => exact hends _ _ heq
  leads s := by
    rw [leads_walk]
    split <;> rfl
  even := even_walk hg

/-- A look that may fail, as its result tells. -/
theorem looks_query (g : Image → Except Error α) (hg : ∀ i log, g { i with log } = g i)
    [hordinary : ∀ i, OrdinaryResult (g i)] : Looks (query g) where
  ordinaryIn s := by
    rw [leads_query]
    split
    · trivial
    · next heq => exact (hordinary s.image).ordinary heq
  leads s := by
    rw [leads_query]
    split <;> rfl
  even := even_query hg

/-- A look at the machine, as long as it does not look at what may differ between two runs that are
    compared. -/
theorem looks_view (g : Machine → α) (hg : ∀ m steps depth dump exits,
      g { m with steps, maxDumpDepth := depth, dump, exits } = g m) :
    Looks (view g) := ⟨⟨fun _ => trivial⟩, fun _ => rfl, even_view hg⟩

theorem looks_ofExcept (r : Except Error α) [hr : OrdinaryResult r] : Looks (Interpreter.ofExcept r) := by
  cases r with
  | ok a => exact looks_pure a
  | error e => exact looks_raise e (hr.ordinary rfl)

/-- The elements of a list are found unless the list goes in circles. -/
theorem looks_elements? (v : Value) : Looks (elements? v) :=
  looks_walk _ (fun _ _ => rfl) fun _ _ => Heap.elements?_ordinary

/-- Nothing is done after a failure. -/
theorem looks_raise_bind (e : Error) (f : α → LispM β) (he : e.Ordinary) :
    Looks ((raise e : LispM α) >>= f) := ⟨⟨fun _ => he⟩, fun _ => rfl, even_throw_bind (.error e) f⟩

/-- What is done may depend on the scopes of the whole state, and on nothing else of it. -/
theorem Quiet.get {f : Interpreter → LispM β} (hf : ∀ s, Quiet (f s))
    (hsame : ∀ s t, s.scopes = t.scopes → f s = f t) : Quiet (get >>= f) where
  ordinaryIn s := (hf s).ordinaryIn s
  calm s := (hf s).calm s
  even := even_get (fun s => (hf s).even) hsame

theorem looks_fault (f : Fault) : Looks (fault f : LispM α) := looks_raise _ trivial

theorem looks_fault_bind (f : Fault) (g : α → LispM β) : Looks (fault f >>= g) :=
  looks_raise_bind _ _ trivial

theorem quiet_pure (a : α) : Quiet (pure a : LispM α) := (looks_pure a).quiet

theorem quiet_raise (e : Error) (he : e.Ordinary) : Quiet (raise e : LispM α) :=
  (looks_raise e he).quiet

theorem quiet_fault (f : Fault) : Quiet (fault f : LispM α) := (looks_fault f).quiet

theorem quiet_raise_bind (e : Error) (f : α → LispM β) (he : e.Ordinary) :
    Quiet ((raise e : LispM α) >>= f) := (looks_raise_bind e f he).quiet

theorem quiet_fault_bind (f : Fault) (g : α → LispM β) : Quiet (fault f >>= g) :=
  (looks_fault_bind f g).quiet

theorem quiet_asks (g : Image → α) (hg : ∀ i log, g { i with log } = g i) :
    Quiet (asks g) := (looks_asks g hg).quiet

theorem quiet_view (g : Machine → α) (hg : ∀ m steps depth dump exits,
      g { m with steps, maxDumpDepth := depth, dump, exits } = g m) :
    Quiet (view g) := (looks_view g hg).quiet

theorem quiet_shown (v : Value) : Quiet (shown v) := (looks_shown v).quiet

theorem quiet_nameOf (id : SymbolId) : Quiet (nameOf id) := (looks_nameOf id).quiet

theorem quiet_query (g : Image → Except Error α) (hg : ∀ i log, g { i with log } = g i)
    [∀ i, OrdinaryResult (g i)] : Quiet (query g) := (looks_query g hg).quiet

theorem quiet_walk (g : Image → Except Failure α) (hg : ∀ i log, g { i with log } = g i)
    (hends : ∀ i e, g i = .error e → e.OrdinaryIn i.heap) : Quiet (walk g) := (looks_walk g hg hends).quiet

theorem quiet_elements? (v : Value) : Quiet (elements? v) := (looks_elements? v).quiet

theorem quiet_ofExcept (r : Except Error α) [OrdinaryResult r] : Quiet (Interpreter.ofExcept r) :=
  (looks_ofExcept r).quiet

/-- Changes of the scopes that no tail call becomes pending by. -/
theorem tames_modifyScopes (g : Scopes → Scopes)
    (hg : ∀ c, (g c).pendingTails = c.pendingTails) : Tames (modifyScopes g) where
  ordinaryIn _ := trivial
  tame s := ⟨⟨rfl, rfl, rfl, rfl⟩, .refl _, .refl _, rfl, rfl, hg s.scopes⟩

/-- Warnings. -/
theorem quiet_modifyScopes (g : Scopes → Scopes) (hg : ∀ c, (g c).unwarned = c.unwarned) :
    Quiet (modifyScopes g) where
  ordinaryIn _ := trivial
  calm s := ⟨⟨rfl, rfl, rfl, rfl⟩, .refl _, rfl, rfl, rfl, hg s.scopes⟩
  even := even_modifyScopes g

/-- A look at any part of the machine is calm, if not quiet. -/
theorem calms_view (g : Machine → α) : Calms (view g) := ⟨⟨fun _ => trivial⟩, Calm.refl⟩

/-- Changes of the machine that are neither about bindings nor about steps. -/
theorem calms_modifyMachine {g : Machine → Machine}
    (hg : ∀ m, (g m).bindings = m.bindings ∧ (g m).nesting = m.nesting)
    (hsteps : ∀ m, (g m).steps = m.steps ∧ (g m).maxSteps = m.maxSteps) : Calms (modifyMachine g) where
  ordinaryIn _ := trivial
  calm s := ⟨⟨rfl, (hg s.machine).1, (hg s.machine).2, rfl⟩, .refl _, rfl, (hsteps s.machine).1,
    (hsteps s.machine).2, rfl⟩

/-- Changes of the machine that are neither about bindings nor about where a run goes on. -/
theorem quiet_modifyMachine {g : Machine → Machine}
    (hg : ∀ m, (g m).bindings = m.bindings ∧ (g m).nesting = m.nesting)
    (hsteps : ∀ m, (g m).steps = m.steps ∧ (g m).maxSteps = m.maxSteps)
    (heven : ∀ m steps depth dump exits, g { m with steps, maxDumpDepth := depth, dump, exits } =
      { g m with steps, maxDumpDepth := depth, dump, exits }) :
    Quiet (modifyMachine g) where
  toCalms := calms_modifyMachine hg hsteps
  even := even_modifyMachine (fun m => (hsteps m).2) heven

/-- So are actions on the image that never fail and leave the symbols, the pairs, the functions
    and the marks in the log alone. -/
theorem quiet_image {x : ImageM α} (heven : Even (liftM x : LispM α))
    (hx : ∀ i, Leads x i (fun _ i' => i'.symbols = i.symbols ∧ i'.heap = i.heap ∧
      i'.log.marks = i.log.marks ∧ i'.functions = i.functions) fun _ _ => False) :
    Quiet (liftM x : LispM α) where
  ordinaryIn s := leads_image.2 ((hx s.image).mono (fun _ _ _ => trivial) fun _ _ h => h.elim)
  calm s := by
    have hcalm (i : Image) (h : i.symbols = s.image.symbols ∧ i.heap = s.image.heap ∧
        i.log.marks = s.image.log.marks ∧ i.functions = s.image.functions) : Calm s { s with image := i } :=
      ⟨⟨h.1, rfl, rfl, h.2.2.1⟩, h.2.1 ▸ .refl _, h.2.2.2, rfl, rfl, rfl⟩
    rw [leads_image]
    exact (hx s.image).mono (fun _ i h => hcalm i h) fun _ _ h => h.elim
  even := heven

/-- A function is added behind those there are. -/
theorem Image.keepsFunctions_push (image : Image) (f : CompiledFunction) :
    image.KeepsFunctions { image with functions := image.functions.push f } where
  size := by simp
  code g hg := by simp [Image.function, Array.getElem?_push, Nat.ne_of_lt hg]

/-- A new function is entered after all others. -/
theorem tames_addFunction (f : CompiledFunction) :
    Tames (liftM (Image.addFunction f) : LispM FunctionId) where
  ordinaryIn _ := trivial
  tame s := ⟨⟨rfl, rfl, rfl, rfl⟩, .refl _, s.image.keepsFunctions_push f, rfl, rfl, rfl⟩

/-- A line of the log is quiet unless it is a mark. -/
theorem quiet_record (level : LogLevel) (text : Image → String) (hlevel : level ≠ .off) :
    Quiet (liftM (Image.record level text) : LispM Unit) := quiet_image (even_record level text) fun i => by
  unfold Leads Image.record
  split <;> next heq =>
    split at heq <;> cases heq <;> exact ⟨rfl, rfl, by simp [Log.marks_add hlevel], rfl⟩

end

/-! ## Actions on the heap -/

/-- The action on the heap leaves alone the pairs that there are, whether or not it fails, which
    is not for want of steps. -/
class KeepsPairs (x : HeapM α) : Prop where
  leads : ∀ h, Leads x h (fun _ h' => h.Extended h') fun e h' =>
    e.OrdinaryIn h' ∧ h.Extended h'

/-- Such actions are quiet. -/
theorem quiet_heap (x : HeapM α) [hx : KeepsPairs x] : Quiet (liftM x : LispM α) where
  ordinaryIn s := leads_heap.2 ((hx.leads s.image.heap).mono (fun _ _ _ => trivial) fun _ _ h => h.1)
  calm s := by
    have hcalm (h : Heap) (he : s.image.heap.Extended h) : Calm s { s with image.heap := h } :=
      ⟨⟨rfl, rfl, rfl, rfl⟩, he, rfl, rfl, rfl, rfl⟩
    rw [leads_heap]
    exact (hx.leads s.image.heap).mono (fun _ h he => hcalm h he) fun _ h he => hcalm h he.2
  even := even_heap x

/-- Whatever wants nothing but room keeps the pairs. -/
theorem KeepsPairs.of_gains {x : HeapM α} {n : Nat}
    (hx : ∀ h, Leads x h (fun _ h' => h.Gains n h') fun e h' => h.OutOfRoom n e h') : KeepsPairs x where
  leads h := (hx h).mono (fun _ _ g => g.extended) fun _ _ he =>
    ⟨he.overflows.1 ▸ trivial, he.extended⟩

instance (a d : Value) : KeepsPairs (Heap.cons a d) := .of_gains (Heap.leads_cons_gains a d)

instance (a d : Value) : KeepsPairs (Heap.alloc a d) where
  leads h := by
    rw [Heap.leads_alloc_iff]
    split
    · exact h.extended_push a d
    · exact ⟨trivial, .refl h⟩

instance (vs : List Value) (tail : Value) : KeepsPairs (Heap.listWithTail vs tail) :=
  .of_gains (Heap.leads_listWithTail_gains vs tail)

instance (vs : List Value) : KeepsPairs (Heap.list vs) :=
  inferInstanceAs (KeepsPairs (Heap.listWithTail vs .nil))

instance (frame : Frame) : KeepsPairs (Heap.allocRaw frame) :=
  .of_gains (Heap.leads_allocRaw_gains frame)

instance (slots : List Value) : KeepsPairs (Heap.allocFrame slots) :=
  inferInstanceAs (KeepsPairs (Heap.allocRaw _))

instance (size : Nat) : KeepsPairs (Heap.allocDummyFrame size) :=
  inferInstanceAs (KeepsPairs (Heap.allocRaw _))

instance (id : FrameId) (values : List Value) : KeepsPairs (Heap.fillFrame id values) where
  leads h := by
    unfold Leads Heap.fillFrame
    dsimp only
    split
    · next heq =>
      split at heq
      · cases heq
      · split at heq <;> cases heq
        exact ⟨Nat.le_refl _, fun _ _ => rfl, fun _ _ => rfl⟩
    · next heq =>
      split at heq
      · cases heq
        exact ⟨trivial, .refl h⟩
      · split at heq <;> cases heq
        exact ⟨trivial, .refl h⟩

instance (id : FrameId) (slot : Nat) (v : Value) : KeepsPairs (Heap.setFrameSlot id slot v) where
  leads h := by
    unfold Leads Heap.setFrameSlot
    cases hslot : h.frameSlot id slot with
    | ok _ => exact ⟨Nat.le_refl _, fun _ _ => rfl, fun _ _ => rfl⟩
    | error e => exact ⟨OrdinaryResult.ordinary hslot, .refl h⟩

instance (id : FrameId) (slot : Nat) : KeepsPairs (Heap.frameRest id slot) where
  leads h := by
    unfold Leads Heap.frameRest
    cases hslots : h.filledSlots id with
    | ok slots => exact KeepsPairs.leads (x := Heap.list (slots.toList.drop slot)) h
    | error e => exact ⟨OrdinaryResult.ordinary hslots, .refl h⟩

instance (id : FrameId) (slot : Nat) (v : Value) : KeepsPairs (Heap.setFrameRest id slot v) where
  leads h := by
    unfold Leads Heap.setFrameRest
    cases hitems : h.elements? v with
    | error e => exact ⟨Heap.elements?_ordinary hitems, .refl h⟩
    | ok items =>
      cases items with
      | none => exact ⟨trivial, .refl h⟩
      | some items =>
        cases hslots : h.filledSlots id with
        | error e => exact ⟨OrdinaryResult.ordinary hslots, .refl h⟩
        | ok _ => exact ⟨Nat.le_refl _, fun _ _ => rfl, fun _ _ => rfl⟩

instance (args : List Value) : KeepsPairs (argumentEnv args) :=
  .of_gains (Heap.leads_argumentEnv_gains args)

/-! ## Actions over a list -/

section

/-- By induction on the list, from its end. -/
theorem Quiet.foldrM {f : α → β → LispM β} (hf : ∀ a b, Quiet (f a b)) :
    ∀ (l : List α) (b : β), Quiet (l.foldrM f b)
  | [], b => by
    rw [List.foldrM_nil]
    exact quiet_pure b
  | a :: l, b => by
    rw [List.foldrM_cons]
    exact (Quiet.foldrM hf l b).bind (hf a)

theorem Quiet.foldlM {f : β → α → LispM β} (hf : ∀ b a, Quiet (f b a)) :
    ∀ (l : List α) (b : β), Quiet (l.foldlM f b)
  | [], b => by
    rw [List.foldlM_nil]
    exact quiet_pure b
  | a :: l, b => by
    rw [List.foldlM_cons]
    exact (hf b a).bind (Quiet.foldlM hf l)

theorem Quiet.mapM {f : α → LispM β} (hf : ∀ a, Quiet (f a)) : ∀ l : List α, Quiet (l.mapM f)
  | [] => by
    rw [List.mapM_nil]
    exact quiet_pure []
  | a :: l => by
    rw [List.mapM_cons]
    exact (hf a).bind fun b => (Quiet.mapM hf l).bind fun bs => quiet_pure (b :: bs)

end

/-! ## Congruences -/

/-- An action in scopes of its own. -/
def Interpreter.apart (x : LispM α) : LispM α := do
  let scopes := (← get).scopes
  modifyScopes fun _ => {}
  let result ← attempt x
  modifyScopes fun _ => scopes
  resume result

/-- A relation between actions that holds of quiet actions and of making symbols, and goes from
    actions to one after the other. -/
structure BasicCongruence (𝓡 : ⦃α : Type⦄ → LispM α → LispM α → Prop) : Prop where
  quiet : ∀ {α : Type} {x : LispM α}, Quiet x → 𝓡 x x
  bind : ∀ {α β : Type} {x y : LispM α} {f g : α → LispM β}, 𝓡 x y → (∀ a, 𝓡 (f a) (g a)) →
    𝓡 (x >>= f) (y >>= g)
  gensym : ∀ stem, 𝓡 (liftM (SymbolTable.gensym stem) : LispM SymbolId) (SymbolTable.gensym stem)

/-- A relation between actions that also goes through calls in front of a continuation and
    declarations, so through all that the compiler does without opening or closing a scope. -/
structure LevelCongruence (𝓡 : ⦃α : Type⦄ → LispM α → LispM α → Prop) : Prop
    extends BasicCongruence 𝓡 where
  declareSpecial : ∀ id, 𝓡 (liftM (SymbolTable.declareSpecial id) : LispM Unit)
    (SymbolTable.declareSpecial id)
  emitApply : ∀ argc cont, 𝓡 (Compiler.emitApply argc cont) (Compiler.emitApply argc cont)

/-- A relation between actions that also goes through scopes. -/
structure Congruence (𝓡 : ⦃α : Type⦄ → LispM α → LispM α → Prop) : Prop
    extends LevelCongruence 𝓡 where
  /-- An exit without a target is refused. -/
  reject : ∀ {α : Type} (kind : TargetKind) (name : String),
    𝓡 (raise (.unmatchedTarget kind name) : LispM α) (raise (.unmatchedTarget kind name))
  tame : ∀ {α : Type} {x : LispM α}, Tames x → Even x → 𝓡 x x
  /-- Something tame may be done after an action, also if it fails. -/
  guard : ∀ {α β : Type} {x y : LispM α} {f : Except Failure α → LispM β}, 𝓡 x y →
    (∀ a, Tames (f (.ok a))) → (∀ e, Rethrows Tame e (f (.error e))) → (∀ r, Even (f r)) →
    𝓡 (attempt x >>= f) (attempt y >>= f)
  /-- A top-level form is compiled without pending tail calls of earlier ones. -/
  forget : 𝓡 (modifyScopes fun c => { c.clear with pendingTails := #[] })
    (modifyScopes fun c => { c.clear with pendingTails := #[] })
  /-- A block is closed after its body. -/
  closeBlock : ∀ {α : Type} {x y : LispM α}, 𝓡 x y →
    𝓡 (do let result ← attempt x; Compiler.closeBlock; resume result)
      (do let result ← attempt y; Compiler.closeBlock; resume result)
  apart : ∀ {α : Type} {x y : LispM α}, 𝓡 x y → 𝓡 (apart x) (apart y)

/-- A relation between actions that holds of mild actions and of making symbols, and goes
    from the parts of an action to the whole. -/
structure MildCongruence (𝓡 : ⦃α : Type⦄ → LispM α → LispM α → Prop) : Prop where
  mild : ∀ {α : Type} {x : LispM α}, Mild x → 𝓡 x x
  bind : ∀ {α β : Type} {x y : LispM α} {f g : α → LispM β}, 𝓡 x y → (∀ a, 𝓡 (f a) (g a)) →
    𝓡 (x >>= f) (y >>= g)
  /-- Something mild may be done after an action, also if it fails. -/
  guard : ∀ {α β : Type} {x y : LispM α} {f : Except Failure α → LispM β}, 𝓡 x y →
    (∀ a, Mild (f (.ok a))) → (∀ e, Rethrows Still e (f (.error e))) →
    𝓡 (attempt x >>= f) (attempt y >>= f)
  gensym : ∀ stem, 𝓡 (liftM (SymbolTable.gensym stem) : LispM SymbolId) (SymbolTable.gensym stem)
  declareSpecial : ∀ id, 𝓡 (liftM (SymbolTable.declareSpecial id) : LispM Unit)
    (SymbolTable.declareSpecial id)

namespace BasicCongruence

variable {𝓡 : ⦃α : Type⦄ → LispM α → LispM α → Prop} (h𝓡 : BasicCongruence 𝓡)

include h𝓡

/-- Something quiet first. -/
theorem after {x : LispM α} {f g : α → LispM β} (hx : Quiet x) (hf : ∀ a, 𝓡 (f a) (g a)) :
    𝓡 (x >>= f) (x >>= g) := h𝓡.bind (h𝓡.quiet hx) hf

/-- Looking at the scopes first. -/
theorem afterScopes {f g : Interpreter → LispM β} (hfg : ∀ s, 𝓡 (f s) (g s))
    (hf : ∀ s t, s.scopes = t.scopes → f s = f t) (hg : ∀ s t, s.scopes = t.scopes → g s = g t) :
    𝓡 (get >>= f) (get >>= g) := by
  have hlook (k : Interpreter → LispM β) (hk : ∀ s t, s.scopes = t.scopes → k s = k t) :
      (get >>= k) = (do let s ← get; pure s.scopes) >>= fun scopes => k { (default : Interpreter) with scopes } := by
    funext s
    exact congrFun (hk s { (default : Interpreter) with scopes := s.scopes } rfl) s
  rw [hlook f hf, hlook g hg]
  exact h𝓡.after (Quiet.get (fun _ => quiet_pure _) fun _ _ h => by rw [h]) fun scopes => hfg _

/-- Two folds are related if what they do for each element is. -/
theorem foldrM {f g : α → β → LispM β} (hf : ∀ a b, 𝓡 (f a b) (g a b)) :
    ∀ (l : List α) (b : β), 𝓡 (l.foldrM f b) (l.foldrM g b)
  | [], b => by
    rw [List.foldrM_nil, List.foldrM_nil]
    exact h𝓡.quiet (quiet_pure b)
  | a :: l, b => by
    rw [List.foldrM_cons, List.foldrM_cons]
    exact h𝓡.bind (foldrM hf l b) (hf a)

theorem foldlM {f g : β → α → LispM β} (hf : ∀ b a, 𝓡 (f b a) (g b a)) :
    ∀ (l : List α) (b : β), 𝓡 (l.foldlM f b) (l.foldlM g b)
  | [], b => by
    rw [List.foldlM_nil, List.foldlM_nil]
    exact h𝓡.quiet (quiet_pure b)
  | a :: l, b => by
    rw [List.foldlM_cons, List.foldlM_cons]
    exact h𝓡.bind (hf b a) (foldlM hf l)

end BasicCongruence

end StackLisp
