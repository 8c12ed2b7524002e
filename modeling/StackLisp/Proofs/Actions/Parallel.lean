import StackLisp.Proofs.Outcome

/-!
# Interpreters side by side

The machine keeps some things that no value depends on, as long as nothing goes
wrong: what it counts and logs, and where it will go on, that is the dump and the
exits. Two interpreters are *parallel* if they differ in these only, without a limit
on the steps; what the dumps and the exits have to do with each other is left open,
as a relation.

With a limit, it also depends on the steps when a run is given up. So more generally,
interpreters are *beside* each other if they differ in these things only, and a relation
holds between their counts (`Beside`).

Actions that go *together* end alike in related interpreters: in the same result or
the same failure, and again in related interpreters (`Together`). An action is *even*
if it goes together with itself in interpreters beside each other, whatever the relations
between the counts and between the dumps and the exits: it neither looks at them nor
changes them (`Even`).
-/

namespace StackLisp

open Interpreter Machine

variable {α β : Type}

/-- A relation between the dumps and the exits of two machines. -/
abbrev Ways := Stack DumpEntry → Stack Exit → Stack DumpEntry → Stack Exit → Prop

/-- The interpreter with another log, other counts, another dump and other exits. -/
def Interpreter.diverted (s : Interpreter) (log : Log) (steps depth : Nat) (dump : Stack DumpEntry)
    (exits : Stack Exit) : Interpreter :=
  { s with
    image := { s.image with log }
    machine := { s.machine with steps, maxDumpDepth := depth, dump, exits } }

/-- A relation between the counts of two machines: the limit on the steps, the steps and the
    greatest height of the dump of the one, and the steps and that height of the other, which
    has the same limit. -/
abbrev Counts := Option Nat → Nat → Nat → Nat → Nat → Prop

/-- The interpreters differ in the log, the counts, the dump and the exits only; the counts are
    related, and so are the dumps and the exits. -/
inductive Beside (κ : Counts) (ρ : Ways) : Interpreter → Interpreter → Prop
  | intro {s : Interpreter} {log : Log} {steps depth : Nat} {dump : Stack DumpEntry}
      {exits : Stack Exit} : κ s.machine.maxSteps s.machine.steps s.machine.maxDumpDepth steps depth →
      ρ s.machine.dump s.machine.exits dump exits → Beside κ ρ s (s.diverted log steps depth dump exits)

/-- The interpreters differ in the log, the counts, the dump and the exits only; there is no
    limit on the steps, and the dumps and the exits are related. -/
inductive Parallel (ρ : Ways) : Interpreter → Interpreter → Prop
  | intro {s : Interpreter} {log : Log} {steps depth : Nat} {dump : Stack DumpEntry}
      {exits : Stack Exit} : s.machine.maxSteps = none →
      ρ s.machine.dump s.machine.exits dump exits → Parallel ρ s (s.diverted log steps depth dump exits)

/-- Both are the same result or the same failure, in related interpreters. -/
inductive Matches (R : Interpreter → Interpreter → Prop) :
    EStateM.Result Failure Interpreter α → EStateM.Result Failure Interpreter α → Prop
  | ok {a : α} {s t : Interpreter} : R s t → Matches R (.ok a s) (.ok a t)
  | error {e : Failure} {s t : Interpreter} : R s t → Matches R (.error e s) (.error e t)

/-- In related interpreters the actions end alike. -/
structure Together (R : Interpreter → Interpreter → Prop) (x y : LispM α) : Prop where
  run : ∀ {s t}, R s t → Matches R (x s) (y t)

/-- The action does the same in all interpreters beside each other. -/
structure Even (x : LispM α) : Prop where
  beside : ∀ κ ρ, Together (Beside κ ρ) x x

/-- Ends that match do so up to any weaker relation. -/
theorem Matches.mono {R R' : Interpreter → Interpreter → Prop} (hR : ∀ s t, R s t → R' s t)
    {r r' : EStateM.Result Failure Interpreter α} (h : Matches R r r') : Matches R' r r' := by
  cases h with
  | ok hst => exact .ok (hR _ _ hst)
  | error hst => exact .error (hR _ _ hst)

/-- What is known of an end is known of one that matches it, up to the relation. -/
theorem Matches.leads {R : Interpreter → Interpreter → Prop} {x y : LispM α} {s t : Interpreter}
    {ok : α → Interpreter → Prop} {err : Failure → Interpreter → Prop} (h : Matches R (x s) (y t))
    (hy : Leads y t ok err) :
    Leads x s (fun a s' => ∃ t', R s' t' ∧ ok a t') fun e s' => ∃ t', R s' t' ∧ err e t' := by
  unfold Leads at hy ⊢
  generalize x s = r, y t = r' at h hy
  cases h with
  | ok h => exact ⟨_, h, hy⟩
  | error h => exact ⟨_, h, hy⟩

theorem Parallel.mono {ρ ρ' : Ways} (hρ : ∀ d e d' e', ρ d e d' e' → ρ' d e d' e')
    {s t : Interpreter} (h : Parallel ρ s t) : Parallel ρ' s t := by
  obtain ⟨hmax, hways⟩ := h
  exact .intro hmax (hρ _ _ _ _ hways)

/-- Parallel interpreters are beside each other, without a limit on the steps. -/
theorem parallel_iff {ρ : Ways} {s t : Interpreter} :
    Parallel ρ s t ↔ Beside (fun limit _ _ _ _ => limit = none) ρ s t := by
  constructor <;>
  · rintro ⟨hmax, hways⟩
    exact .intro hmax hways

/-- An even action does the same in all parallel interpreters. -/
theorem Even.together {x : LispM α} (hx : Even x) (ρ : Ways) : Together (Parallel ρ) x x where
  run h := ((hx.beside _ ρ).run (parallel_iff.1 h)).mono fun _ _ => parallel_iff.2

/-! ## Actions that go together -/

section

variable {R : Interpreter → Interpreter → Prop} {x y : LispM α} {f g : α → LispM β}

theorem together_pure (a : α) : Together R (pure a) (pure a : LispM α) := ⟨fun h => .ok h⟩

theorem together_throw (e : Failure) : Together R (throw e) (throw e : LispM α) := ⟨fun h => .error h⟩

/-- Where the first actions fail alike, nothing more is done. Where they have a result, it is the
    same, and the second ones go on from there. -/
theorem Together.bind (hx : Together R x y) (hf : ∀ a, Together R (f a) (g a)) :
    Together R (x >>= f) (y >>= g) where
  run {s t} h := by
    simp only [Bind.bind, EStateM.bind]
    have hend := hx.run h
    generalize x s = r, y t = r' at hend
    cases hend with
    | ok h' => exact (hf _).run h'
    | error h' => exact .error h'

/-- A failure that is caught is the same on both sides. -/
theorem Together.attempt (hx : Together R x y) : Together R (attempt x) (attempt y) where
  run {s t} h := by
    unfold Interpreter.attempt
    have hend := hx.run h
    generalize x s = r, y t = r' at hend
    cases hend with
    | ok h' => exact .ok h'
    | error h' => exact .ok h'

theorem together_resume (r : Except Failure α) : Together R (resume r) (resume r) := by
  cases r with
  | ok a => exact together_pure a
  | error e => exact together_throw e

end

/-! ## Even actions -/

/-- Writing the rest of a list goes on with what writes its elements, whatever the log is. -/
theorem Image.writeRest_log (image : Image) (log : Log) (write : Value → String → String) :
    ∀ (room : Nat) (v : Value) (out : String),
      { image with log }.writeRest write room v out = image.writeRest write room v out
  | _, .nil, _ | 0, .pair _, _ => by simp only [writeRest]
  | room + 1, .pair id, out => by
    simp only [writeRest]
    exact writeRest_log image log write room _ _
  | room, .t, _ | room, .int _, _ | room, .symbol _, _ | room, .function _, _ | room, .closure _, _
  | room, .primitive _, _ | room, .frame _, _ | room, .op _, _ => by cases room <;> simp only [writeRest]

/-- Writing a value goes along the heap and the names of symbols. -/
theorem Image.write_log (image : Image) (log : Log) :
    ∀ depth, { image with log }.write depth = image.write depth
  | 0 => by
    funext v out
    simp only [write]
  | depth + 1 => by
    funext v out
    have ih := write_log image log depth
    cases v with
    | pair id =>
      have hshort : { image with log }.shortForm? id = image.shortForm? id := rfl
      simp only [write, hshort, ih, writeRest_log]
    | _ => rfl

/-- The text of a value does not depend on the log. -/
theorem Image.print_log (image : Image) (log : Log) (v : Value) :
    { image with log }.print v = image.print v := by
  rw [print, write_log, print]

section

variable {x : LispM α} {f : α → LispM β}

/-- Even actions one after the other. -/
theorem Even.bind (hx : Even x) (hf : ∀ a, Even (f a)) : Even (x >>= f) :=
  ⟨fun κ ρ => (hx.beside κ ρ).bind fun a => (hf a).beside κ ρ⟩

theorem Even.attempt (hx : Even x) : Even (attempt x) := ⟨fun κ ρ => (hx.beside κ ρ).attempt⟩

theorem even_pure (a : α) : Even (pure a : LispM α) := ⟨fun _ _ => together_pure a⟩

theorem even_throw (e : Failure) : Even (throw e : LispM α) := ⟨fun _ _ => together_throw e⟩

theorem even_raise (e : Error) : Even (raise e : LispM α) := even_throw _

theorem even_resume (r : Except Failure α) : Even (resume r) := ⟨fun _ _ => together_resume r⟩

/-- Nothing is done after a failure. -/
theorem even_throw_bind (e : Failure) (f : α → LispM β) : Even ((throw e : LispM α) >>= f) :=
  (even_throw e : Even (throw e : LispM β))

/-- Views of the image do not depend on the log. -/
theorem even_asks {g : Image → α} (hg : ∀ i log, g { i with log } = g i) : Even (asks g) where
  beside κ ρ := ⟨by
    rintro s _ ⟨hcounts, hways⟩
    unfold asks
    simp only [diverted, hg]
    exact .ok (.intro hcounts hways)⟩

/-- Looking at the image may fail, as the result tells. -/
theorem even_query {g : Image → Except Error α} (hg : ∀ i log, g { i with log } = g i) :
    Even (query g) where
  beside κ ρ := ⟨by
    rintro s _ ⟨hcounts, hways⟩
    unfold query
    simp only [diverted, hg]
    cases g s.image with
    | ok a => exact .ok (.intro hcounts hways)
    | error e => exact .error (.intro hcounts hways)⟩

/-- So may a walk, which goes along the same heap. -/
theorem even_walk {g : Image → Except Failure α} (hg : ∀ i log, g { i with log } = g i) :
    Even (walk g) where
  beside κ ρ := ⟨by
    rintro s _ ⟨hcounts, hways⟩
    unfold walk
    simp only [diverted, hg]
    cases g s.image with
    | ok a => exact .ok (.intro hcounts hways)
    | error e => exact .error (.intro hcounts hways)⟩

/-- Views of the machine that do not depend on what it counts, the dump and the exits. -/
theorem even_view {g : Machine → α}
    (hg : ∀ m steps depth dump exits,
      g { m with steps, maxDumpDepth := depth, dump, exits } = g m) : Even (view g) where
  beside κ ρ := ⟨by
    rintro s _ ⟨hcounts, hways⟩
    unfold view
    simp only [diverted, hg]
    exact .ok (.intro hcounts hways)⟩

/-- Changes of the machine that leave these alone. -/
theorem even_modifyMachine {g : Machine → Machine} (hmax : ∀ m, (g m).maxSteps = m.maxSteps)
    (hg : ∀ m steps depth dump exits, g { m with steps, maxDumpDepth := depth, dump, exits } =
      { g m with steps, maxDumpDepth := depth, dump, exits }) : Even (modifyMachine g) where
  beside κ ρ := ⟨by
    rintro s _ ⟨hcounts, hways⟩
    rename_i log steps depth dump exits
    have hkept := hg s.machine s.machine.steps s.machine.maxDumpDepth s.machine.dump s.machine.exits
    have hother := hg s.machine steps depth dump exits
    simp only [modifyMachine_apply, diverted, hother]
    have hsteps : (g s.machine).steps = s.machine.steps := congrArg (·.steps) hkept
    have hdepth : (g s.machine).maxDumpDepth = s.machine.maxDumpDepth := congrArg (·.maxDumpDepth) hkept
    have hdump : (g s.machine).dump = s.machine.dump := congrArg (·.dump) hkept
    have hexits : (g s.machine).exits = s.machine.exits := congrArg (·.exits) hkept
    refine .ok (.intro (s := { s with machine := g s.machine }) ?_ ?_)
    · simp only [hmax, hsteps, hdepth]
      exact hcounts
    · simp only [hdump, hexits]
      exact hways⟩

/-- The scopes are the same, and stay so. -/
theorem even_modifyScopes (g : Scopes → Scopes) : Even (modifyScopes g) where
  beside κ ρ := ⟨by
    rintro s _ ⟨hcounts, hways⟩
    exact .ok (.intro (s := { s with scopes := g s.scopes }) hcounts hways)⟩

/-- Looking at the scopes. -/
theorem even_get {f : Interpreter → LispM β} (hf : ∀ s, Even (f s))
    (hsame : ∀ s t, s.scopes = t.scopes → f s = f t) : Even (get >>= f) where
  beside κ ρ := ⟨by
    rintro s t h
    have heq : f t = f s := hsame t s (by obtain ⟨-, -⟩ := h; rfl)
    refine (?_ : Matches _ (f s s) (f t t))
    rw [heq]
    exact ((hf s).beside κ ρ).run h⟩

/-- The heap is the same, and nothing else is touched. -/
theorem even_heap (x : HeapM α) : Even (liftM x : LispM α) where
  beside κ ρ := ⟨by
    rintro s _ ⟨hcounts, hways⟩
    change Matches _ (onImage (Image.onHeap x) s) (onImage (Image.onHeap x) (s.diverted _ _ _ _ _))
    simp only [onImage, Image.onHeap, diverted]
    cases x s.image.heap with
    | ok a h => exact .ok (.intro (s := { s with image.heap := h }) hcounts hways)
    | error e h => exact .error (.intro (s := { s with image.heap := h }) hcounts hways)⟩

/-- The table of symbols is the same, too. -/
theorem even_symbols (x : SymbolM α) : Even (liftM x : LispM α) where
  beside κ ρ := ⟨by
    rintro s _ ⟨hcounts, hways⟩
    change Matches _ (onImage (Image.onSymbols x) s) (onImage (Image.onSymbols x) (s.diverted _ _ _ _ _))
    simp only [onImage, Image.onSymbols, diverted]
    cases x s.image.symbols with
    | ok a t => exact .ok (.intro (s := { s with image.symbols := t }) hcounts hways)
    | error e t => exact .error (.intro (s := { s with image.symbols := t }) hcounts hways)⟩

/-- The table of functions is the same, and the new function gets the same number. -/
theorem even_addFunction (f : CompiledFunction) :
    Even (liftM (Image.addFunction f) : LispM FunctionId) where
  beside κ ρ := ⟨by
    rintro s _ ⟨hcounts, hways⟩
    exact .ok (.intro (s := { s with image.functions := s.image.functions.push f }) hcounts hways)⟩

theorem even_modifyFunction (id : FunctionId) (f : CompiledFunction → CompiledFunction) :
    Even (liftM (Image.modifyFunction id f) : LispM Unit) where
  beside κ ρ := ⟨by
    rintro s _ ⟨hcounts, hways⟩
    exact .ok (.intro (s := { s with image.functions := s.image.functions.modify id.index f })
      hcounts hways)⟩

/-- What is recorded, or whether anything is, may differ. -/
theorem even_record (level : LogLevel) (text : Image → String) :
    Even (liftM (Image.record level text) : LispM Unit) where
  beside κ ρ := ⟨by
    rintro s _ ⟨hcounts, hways⟩
    rename_i log steps depth dump exits
    obtain ⟨log₁, h₁⟩ := record_eq level text s
    obtain ⟨log₂, h₂⟩ := record_eq level text (s.diverted log steps depth dump exits)
    rw [h₁, h₂]
    exact .ok (.intro (s := { s with image.log := log₁ }) hcounts hways)⟩

end

section

/-- By induction on the list, from its end. -/
theorem Even.foldrM {f : α → β → LispM β} (hf : ∀ a b, Even (f a b)) :
    ∀ (l : List α) (b : β), Even (l.foldrM f b)
  | [], b => by
    rw [List.foldrM_nil]
    exact even_pure b
  | a :: l, b => by
    rw [List.foldrM_cons]
    exact (Even.foldrM hf l b).bind (hf a)

theorem Even.foldlM {f : β → α → LispM β} (hf : ∀ b a, Even (f b a)) :
    ∀ (l : List α) (b : β), Even (l.foldlM f b)
  | [], b => by
    rw [List.foldlM_nil]
    exact even_pure b
  | a :: l, b => by
    rw [List.foldlM_cons]
    exact (hf b a).bind (Even.foldlM hf l)

theorem Even.mapM {f : α → LispM β} (hf : ∀ a, Even (f a)) : ∀ l : List α, Even (l.mapM f)
  | [] => by
    rw [List.mapM_nil]
    exact even_pure []
  | a :: l => by
    rw [List.mapM_cons]
    exact (hf a).bind fun b => (Even.mapM hf l).bind fun bs => even_pure (b :: bs)

end

end StackLisp
