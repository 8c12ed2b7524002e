import StackLisp.Proofs.Safety.Builtin

/-!
# Calls in order

A call of a primitive leaves one value or a request. A call of a function enters it:
an ordinary call by a new level of the trail, and a tail call in place of the
function it stands in, whose blocks are left. The code that runs then is that of
the function (`safe_call`).
-/

namespace StackLisp

open Interpreter Layout Machine

/-- The innermost frame of the environment. -/
def Interpreter.frame? (s : Interpreter) : Option FrameId :=
  match s.machine.env with
  | .pair id =>
    match s.image.heap.car id with
    | .frame f => some f
    | _ => none
  | _ => none

/-- The function that a call of a value enters. -/
def Heap.callee? (h : Heap) : Value → Option FunctionId
  | .function f => some f
  | .closure id =>
    match h.car id with
    | .function f => some f
    | _ => none
  | _ => none

/-- The innermost frame is known to have so many slots. -/
def Layout.Entered (L : Layout) (s : Interpreter) (m : Nat) : Prop :=
  ∃ f, s.frame? = some f ∧ L.slots f = some m

/-- A call of the value below `argc` arguments has entered a function: its frame has a slot for
    each argument that it requires. -/
def Layout.Enters (L' : Layout) (s : Interpreter) (argc : Nat) (s' : Interpreter) : Prop :=
  ∀ callee f, s.machine.stack.items[argc]? = some callee → s.image.heap.callee? callee = some f →
    L'.Entered s' (s.image.function f).arity.min

section

variable {n : Nat} {L : Layout} {rest : List SavedValue} {K : Trail} {env : List FrameShape}
  {st : List Slot} {s : Interpreter} {argc : Nat}

/-! ## Primitives -/

/-- The check of a number of arguments passes only numbers that are accepted. -/
theorem inert_checkArity {arity : Arity} {name : String} :
    Inert (checkArity arity name argc) s fun _ => arity.accepts argc := by
  cases h : arity.check name argc with
  | ok _ => exact .inl ⟨(), by simp [checkArity, Interpreter.ofExcept, h]; rfl, Arity.check_eq_ok_iff.1 h⟩
  | error e =>
    exact .inr ⟨_, by simp [checkArity, Interpreter.ofExcept, h]; rfl, Arity.check_benign h⟩

/-- A primitive that is found takes so many arguments. -/
theorem inert_checkPrimitive (hs : Sound L s) {id : PrimitiveId} :
    Inert (checkPrimitive id argc) s fun b => b.Takes argc := by
  refine (show Inert (asks (·.primitives.get id)) s (· = s.image.primitives.get id) from
    .inl ⟨_, rfl, rfl⟩).bind ?_
  rintro p rfl
  refine (show Inert (nameOf _) s fun _ => True from .inl ⟨_, rfl, trivial⟩).bind fun name _ => ?_
  refine inert_checkArity.bind fun _ haccepts => ?_
  cases hb : (s.image.primitives.get id).builtin with
  | some b => exact .pure (hs.primitives id b argc hb haccepts)
  | none => exact .raise trivial

/-- The call of a primitive replaces its arguments with a value, or asks for something that will. -/
theorem safe_callPrimitive {id : PrimitiveId}
    (hi : Inside n L rest K env (List.replicate argc .value ++ st) s)
    (hcode : L.Code s.image.heap K.base env (.value :: st) K.context s.machine.control) :
    Safe (Moves n) L (callPrimitive id argc) s fun L' flow s' =>
      Yields n L' rest K env st flow s' :=
  (inert_checkPrimitive hi.sound).safe_bind hi.moves fun _ hb => safe_runBuiltin hb hi hcode

/-! ## Functions -/

/-- A call is a new level of the trail. -/
theorem Inside.enterCall (hi : Inside n L rest K env st s) {next outer inner code : Value}
    {sh : List FrameShape} (hnext : L.Code s.image.heap K.base env (.value :: st) K.context next)
    (houter : L.IsEnv s.image.heap env outer) (hinner : L.IsEnv s.image.heap sh inner)
    (hcode : L.Code s.image.heap .function sh [] [] code) {m : Machine}
    (hstack : m.stack = s.machine.stack) (henv : m.env = inner) (hcontrol : m.control = code)
    (hdump : m.dump.items =
      .call outer next s.machine.exits.height :: s.machine.dump.items)
    (hexits : m.exits = s.machine.exits) (hbindings : m.bindings = s.machine.bindings) :
    Continues n rest K L .next { s with machine := m } := by
  obtain ⟨l, hl, -, -, -, hi'⟩ := hi.enter .call outer sh { s with machine := m } hnext houter
    (fun _ _ _ _ _ _ _ h => by cases h) (hi.sound.registers (by rw [hbindings])) rfl hstack
    (henv ▸ hinner) (fun l hl hnext' houter' _ => by
      refine ⟨?_, ?_, ?_⟩
      · simp [Trail.dump, hl, hnext', houter', hdump, hi.dump, s.machine.exits.height_eq, hi.exits]
      · simp [Trail.exits, hl, hexits, hi.exits]
      · simp [Trail.saved, hl, hbindings, hi.bindings])
  -- The level that is opened records the code and the frames of the caller, which the body returns
  -- to.
  refine ⟨l :: K, .inr ⟨l, rfl⟩, .code hi' ?_⟩
  simpa only [Trail.base, Trail.context, hl, LevelKind.construct?, hcontrol] using hcode

/-- A tail call takes the place of the function it stands in. -/
theorem Inside.enterTail (hi : Inside n L rest K env st s) {inner code : Value}
    {sh : List FrameShape}
    (hnext : L.Code s.image.heap K.base env (.value :: st) K.context s.machine.control)
    (hreturns : L.Returns s.image.heap s.machine.control)
    (hinner : L.IsEnv s.image.heap sh inner)
    (hcode : L.Code s.image.heap .function sh [] [] code) :
    ∃ outer next exits, s.machine.dump.top? = some (.call outer next exits) ∧
      Continues n rest K L .next
        { s with
          machine.exits := s.machine.exits.truncate exits
          machine.env := inner
          machine.control := code } := by
  -- As the code returns, past the ends of blocks, the innermost call of the trail is on top of the
  -- dump.
  obtain ⟨rfl, l, K', hl, hsuffix, ho, hf, hsaved, hdump⟩ := hi.valid.returns hnext hreturns
  obtain ⟨vs, fs, hop, hstack, hd⟩ := hi.operands
  obtain ⟨rfl, rfl⟩ : vs = [] ∧ fs = [] := by
    cases hop
    exact ⟨rfl, rfl⟩
  have hexits : K'.exits rest.length <:+ s.machine.exits.items := by
    rw [hi.exits]
    exact Trail.exits_suffix _ ((List.suffix_cons l K').trans hsuffix)
  have htop : s.machine.dump.items =
      .call l.outer l.next (K'.exits rest.length).length :: K'.dump rest.length := by
    rw [hi.dump, hdump]
    simp [Trail.dump, hl]
  refine ⟨l.outer, l.next, (K'.exits rest.length).length, by simp [Stack.top?, htop], l :: K',
    .inl hsuffix, ?_⟩
  -- The function takes over that level, so the dump stays as it is, and the blocks above are left.
  refine .code ⟨hi.sound.registers rfl, hi.around, hi.valid.suffix hsuffix,
    hinner, ⟨[], [], .nil, ?_, ?_⟩, ?_, ?_, ?_⟩ ?_
  · rw [hstack, ho]
  · rwa [hf] at hd
  · rw [hi.dump, hdump]
  · rw [Stack.items_truncate hexits]
    simp [Trail.exits, hl]
  · rw [hi.bindings, hsaved]
  · simpa only [Trail.base, Trail.context, hl, LevelKind.construct?] using hcode

/-- In an environment of this shape, the innermost frame has the slots of the parameters. -/
theorem Layout.IsEnv.entered {m : FrameShape} {sh : List FrameShape} {v : Value}
    (hv : L.IsEnv s.image.heap (m :: sh) v) (henv : s.machine.env = v) : L.Entered s m.params := by
  cases hv with
  | cons own car slots rest => exact ⟨_, by simp only [Interpreter.frame?, henv, car], slots⟩

/-- Starting to run a function. -/
theorem safe_enter (hi : Inside n L rest K env st s)
    (hcode : L.Code s.image.heap K.base env (.value :: st) K.context s.machine.control)
    {m : FrameShape} {sh : List FrameShape} {code outer : Value} {args : List Value} {mode : CallMode}
    (hf : L.Code s.image.heap .function (m :: sh) [] [] code)
    (henv : L.IsEnv s.image.heap sh outer) (hlen : m.params ≤ args.length)
    (hargs : ∀ v ∈ args, L.Visible v)
    (hmode : mode = .tail → L.Returns s.image.heap s.machine.control) :
    Safe (Goes n rest) L (Machine.enter code outer args mode) s fun L' _ s' =>
      Continues n rest K L' .next s' ∧ L'.Entered s' m.params := by
  -- A frame with the arguments, in front of the environment closed over.
  refine (hi.safe_quiet (safe_heap hi.sound (safe_allocFrame hi.sound.fits hlen hargs))).bind ?_
  rintro L₁ frame s₁ - ⟨e₁, hframe⟩
  refine ((hi.evolves e₁).safe_quiet (safe_heap e₁.sound
    (safe_cons_frame e₁.sound.fits hframe (henv.grows e₁.grows)))).bind ?_
  rintro L₂ env₂ s₂ - ⟨e₂, henv₂, -⟩
  have e := Evolution.trans e₁ e₂
  have hi₂ := hi.evolves e
  have hcode₂ : L₂.Code s₂.image.heap K.base env (.value :: st) K.context s₂.machine.control := by
    rw [congrArg Registers.control e.registers]
    exact hcode.grows e.grows
  -- Both kinds of calls go on with the same code, in a new level or in the one of the caller.
  cases mode with
  | push =>
    refine ⟨L₂, ⟨.refl n L₂ _, hi₂.sound.registers rfl, fun h => h, K.saved, hi₂.bindings.symm⟩, ?_⟩
    exact ⟨hi₂.enterCall hcode₂ hi₂.isEnv henv₂ (hf.grows e.grows) rfl rfl rfl rfl rfl rfl,
      Layout.IsEnv.entered (by exact henv₂) rfl⟩
  | tail =>
    have hreturns : L₂.Returns s₂.image.heap s₂.machine.control := by
      rw [congrArg Registers.control e.registers]
      exact (hmode rfl).grows e.grows
    obtain ⟨env₃, next, exits, htop, hgo⟩ :=
      hi₂.enterTail hcode₂ hreturns henv₂ (hf.grows e.grows)
    refine safe_view_bind.2 ?_
    rw [htop]
    exact ⟨L₂, ⟨.refl n L₂ _, hi₂.sound.registers rfl, fun h => h, K.saved, hi₂.bindings.symm⟩, hgo,
      Layout.IsEnv.entered (by exact henv₂) rfl⟩

/-- The code of a function runs in its own frame and the environment closed over. -/
theorem Sound.code (hs : Sound L s) {f : FunctionId} {m : FrameShape} {sh : List FrameShape}
    (hf : L.shape f = some (m :: sh)) :
    m = (s.image.function f).arity.frame ∧
      L.Code s.image.heap .function (m :: sh) [] [] (s.image.function f).code := by
  obtain ⟨-, hframes, hcode⟩ := hs.functions f _ hf
  exact ⟨by simpa using hframes.1, hcode⟩

/-- Accepted arguments are as many as are required, at least. -/
theorem Arity.min_le {a : Arity} {k : Nat} (h : a.accepts k) : a.min ≤ k := by
  unfold Arity.accepts at h
  simp only [Bool.and_eq_true, decide_eq_true_eq] at h
  exact h.1

/-- A function is entered, a primitive called, and anything else refused. -/
theorem safe_callFunction (hi : Inside n L rest K env st s)
    (hcode : L.Code s.image.heap K.base env (.value :: st) K.context s.machine.control)
    {callee : Value} {args : List Value} {mode : CallMode} (hcallee : L.Visible callee)
    (hargs : ∀ v ∈ args, L.Visible v)
    (hmode : mode = .tail → L.Returns s.image.heap s.machine.control) :
    Safe (Goes n rest) L (callFunction callee args mode) s fun L' _ s' =>
      Continues n rest K L' .next s' ∧ ∀ f, s.image.heap.callee? callee = some f →
        L'.Entered s' (s.image.function f).arity.min := by
  -- A macro is refused, and so is what is no function.
  cases callee with
  | function f =>
    obtain ⟨m, hf⟩ := hcallee
    obtain ⟨rfl, hbody⟩ := hi.sound.code hf
    simp only [callFunction, safe_asks_bind]
    cases (s.image.function f).isMacro with
    | true => exact safe_raise_bind hi.goes trivial
    | false =>
      refine inert_checkArity.safe_bind hi.goes fun _ haccepts => ?_
      refine (safe_enter hi hcode hbody .nil (Arity.min_le haccepts) hargs hmode).mono ?_
      rintro L' _ s' - ⟨hgo, hentered⟩
      refine ⟨hgo, fun g hg => ?_⟩
      obtain rfl : f = g := Option.some.inj hg
      exact hentered
  -- The closure is a pair of the function and of an environment for it.
  | closure id =>
    obtain ⟨hown, f, m, sh, hcar, hf, henv⟩ := hi.sound.fits.closure id hcallee
    obtain ⟨rfl, hbody⟩ := hi.sound.code hf
    have hparts : closureParts id s = .ok (f, s.image.heap.cdr id) s := by
      simp [closureParts, bind, EStateM.bind, asks, hcar, pure, EStateM.pure]
    simp only [callFunction]
    refine (safe_bind_of_ok hparts).2 ?_
    simp only [safe_asks_bind]
    refine inert_checkArity.safe_bind hi.goes fun _ haccepts => ?_
    refine (safe_enter hi hcode hbody henv (Arity.min_le haccepts) hargs hmode).mono ?_
    rintro L' _ s' - ⟨hgo, hentered⟩
    refine ⟨hgo, fun g hg => ?_⟩
    obtain rfl : f = g := by simpa [Heap.callee?, hcar] using hg
    exact hentered
  | _ => exact safe_shown_bind.2 (safe_raise hi.goes trivial)

/-- The value that a call pops after its arguments is the one below them. -/
theorem callee_of_pops {args : List Value} {callee : Value} {s₁ s₂ : Interpreter}
    (hargs : Machine.popMany argc s = .ok args s₁) (hcallee : Machine.pop s₁ = .ok callee s₂) :
    s.machine.stack.items[argc]? = some callee ∧ s₂.image = s.image := by
  -- Under the arguments comes the callee, and popping writes nothing but the stack.
  unfold Machine.popMany Stack.popMany? at hargs
  split at hargs
  · next heq =>
    split at heq
    · cases heq
    · cases heq
      cases hargs
      unfold Machine.pop at hcallee
      split at hcallee
      · next v stack hpop =>
        cases hcallee
        have htop : (s.machine.stack.drop argc).top? = some callee := by rw [Stack.top?_eq_pop?, hpop]; rfl
        refine ⟨?_, rfl⟩
        rw [Stack.top?, Stack.items_drop, List.head?_drop] at htop
        exact htop
      · cases hcallee
  · cases hargs

/-- A call of the value below its arguments. -/
theorem safe_call {mode : CallMode}
    (hi : Inside n L rest K env (List.replicate (argc + 1) .value ++ st) s)
    (hcode : L.Code s.image.heap K.base env (.value :: st) K.context s.machine.control)
    (hmode : mode = .tail → L.Returns s.image.heap s.machine.control) :
    Safe (Goes n rest) L (call argc mode) s fun L' flow s' =>
      Continues n rest K L' flow s' ∧ L'.Enters s argc s' := by
  have hi' : Inside n L rest K env (List.replicate argc .value ++ .value :: st) s := by
    rwa [List.replicate_succ', List.append_assoc] at hi
  refine (hi'.safe_moves hi'.safe_popMany.reached).bind ?_
  rintro L args s₁ - ⟨m₁, ⟨rfl, hlen, hargs, hi₁⟩, hpopped₁⟩
  refine (hi₁.safe_moves hi₁.safe_pop.reached).bind ?_
  rintro L callee s₂ - ⟨m₂, ⟨rfl, hcallee, hi₂⟩, hpopped₂⟩
  -- The callee is what was below the arguments, looked at in the image from before they were
  -- popped.
  obtain ⟨hbelow, himage⟩ := callee_of_pops hpopped₁ hpopped₂
  have m := Evolution.trans m₁ m₂
  have hcode₂ : L.Code s₂.image.heap K.base env (.value :: st) K.context s₂.machine.control :=
    m.control ▸ hcode.grows m.grows
  have hmode₂ : mode = .tail → L.Returns s₂.image.heap s₂.machine.control := fun hm =>
    m.control ▸ (hmode hm).grows m.grows
  have hfunction : Safe (Goes n rest) L
      (do callFunction callee args mode; return Flow.next : LispM Flow) s₂
      fun L' flow s' => Continues n rest K L' flow s' ∧ L'.Enters s argc s' := by
    refine (safe_callFunction hi₂ hcode₂ hcallee hargs hmode₂).bind ?_
    rintro L' _ s' g ⟨hgo, hentered⟩
    refine Safe.pure (Evolution.refl g) ⟨hgo, fun callee' f hcallee' hf => ?_⟩
    obtain rfl := Option.some.inj (hbelow.symm.trans hcallee')
    exact himage ▸ hentered f (himage ▸ hf)
  -- A primitive gets its arguments back on the stack. Anything else is entered, or refused.
  cases callee with
  | primitive id =>
    have hi₃ := hi₂.pushMany hargs
    rw [hlen] at hi₃
    refine (hi₂.safe_moves (show Safe (Moves n) L (pushMany args) s₂ fun L' _ s' => L' = L ∧
      s' = { s₂ with machine.stack := s₂.machine.stack.pushMany args } from
        ⟨L, hi₂.moves_setStack _, rfl, rfl⟩)).bind ?_
    rintro L _ _ - ⟨-, rfl, rfl⟩
    refine (hi₃.safe_yields hcode₂ (safe_callPrimitive hi₃ hcode₂)).mono ?_
    intro L' flow s' _ hgo
    refine ⟨hgo, fun callee' f hcallee' hf => ?_⟩
    obtain rfl := Option.some.inj (hbelow.symm.trans hcallee')
    cases hf
  | _ => exact hfunction

end

end StackLisp
