import StackLisp.Proofs.Safety.Trail

/-!
# Access to the registers of a run

What the single actions of the machine do to a machine that is `Inside` a trail:
operands come and go, and the control moves along its stream. As long as only the
stack changes, the effect of an action is a `Moves`; actions that `Evolves` is
about are among them (`Inside.quiet`).
-/

namespace StackLisp

open Interpreter Layout Machine

/-! ## Stacks -/

namespace Stack

variable {α : Type} {s : Stack α} {a b : α} {top below : List α}

/-- A stack with an element on top. -/
theorem pop?_of_items (h : s.items = a :: below) :
    ∃ t, s.pop? = some (a, t) ∧ t.items = below := by
  obtain ⟨items, height, hs⟩ := s
  subst h
  exact ⟨_, rfl, rfl⟩

/-- An empty one has nothing to pop. -/
theorem pop?_of_nil (h : s.items = []) : s.pop? = none := by
  obtain ⟨items, height, hs⟩ := s
  subst h
  rfl

/-- Popped values come in the order they were pushed. -/
theorem popMany?_of_items (h : s.items = top ++ below) :
    s.popMany? top.length = some (top.reverse, s.drop top.length) := by
  have hlt : ¬s.height < top.length := by simp [s.height_eq, h]
  simp [popMany?, hlt, h]

/-- Cut down to the height of a part that is below, a stack has that part left. -/
theorem items_truncate (h : below <:+ s.items) : (s.truncate below.length).items = below := by
  obtain ⟨top, h⟩ := h
  simp [truncate, s.height_eq, ← h]

end Stack

/-! ## The instruction stream -/

section

variable {L : Layout} {s : Interpreter} {code : Opcode} {v k : Value} {vs : List Value}

/-- The stream has an operand, and goes on with the others. -/
theorem operand_eq (ho : L.Operands s.image.heap (v :: vs) s.machine.control k) :
    ∃ c, operand s = .ok v { s with machine.control := c } ∧
      L.Operands s.image.heap vs c k := by
  generalize hc : s.machine.control = c at ho
  obtain _ | @⟨id, _, _, own, plain, rest⟩ := ho
  exact ⟨s.image.heap.cdr id, by simp only [operand, hc], rest⟩

/-- As many operands are skipped as the instruction has. -/
theorem skipOperands_eq :
    ∀ {vs : List Value} {s : Interpreter}, L.Operands s.image.heap vs s.machine.control k →
      skipOperands vs.length s = .ok () { s with machine.control := k }
  | [], s, ho => by
    generalize hc : s.machine.control = c at ho
    cases ho
    subst hc
    rfl
  | v :: vs, s, ho => by
    obtain ⟨c, hoperand, ho'⟩ := operand_eq ho
    have ih := skipOperands_eq (s := { s with machine.control := c }) ho'
    simp only [skipOperands, List.length_cons, bind, EStateM.bind, hoperand, ih]

/-- Fetching an instruction leaves its operands. -/
theorem fetch_eq (hi : L.Instr s.image.heap code vs s.machine.control k) :
    ∃ c, fetch s = .ok code { s with machine.control := c } ∧
      L.Operands s.image.heap vs c k := by
  generalize hc : s.machine.control = c at hi
  obtain @⟨id, _, own, op, operands⟩ := hi
  refine ⟨s.image.heap.cdr id, ?_, operands⟩
  simp [fetch, bind, EStateM.bind, view, operand, hc, op, Value.isNil, pure, EStateM.pure]

end

/-! ## Changes of the stack -/

/-- Only the stack of the machine has changed. -/
structure Moves (n : Nat) (L : Layout) (s : Interpreter) (L' : Layout) (s' : Interpreter) :
    Prop where
  grows : Grows n L s.image.heap L' s'.image.heap
  sound : Sound L' s'
  registers : s'.machine.toRegisters = { s.machine.toRegisters with stack := s'.machine.stack }
  bindings : s'.machine.bindings = s.machine.bindings
  history : History L s.image → History L' s'.image

instance {n : Nat} : Evolution (Moves n) where
  refl m := ⟨.refl n _ _, m.sound, rfl, rfl, id⟩
  trans m m' :=
    ⟨m.grows.trans m'.grows, m'.sound, by rw [m'.registers, m.registers],
      m'.bindings.trans m.bindings, m'.history ∘ m.history⟩

section

variable {n : Nat} {L L' : Layout} {rest : List SavedValue} {K : Trail} {env : List FrameShape}
  {st : List Slot} {s s' : Interpreter} {α β : Type}

/-- The control is one of the registers that have not changed. -/
theorem Moves.control (m : Moves n L s L' s') : s'.machine.control = s.machine.control := by
  have := congrArg Registers.control m.registers
  exact this

/-- No change at all is one of the stack. -/
theorem Inside.moves (hi : Inside n L rest K env st s) : Moves n L s L s :=
  ⟨.refl n L _, hi.sound, rfl, rfl, id⟩

/-- It is one that goes on in order, too. -/
theorem Inside.goes (hi : Inside n L rest K env st s) : Goes n rest L s L s :=
  ⟨.refl n L _, hi.sound, id, K.saved, hi.bindings.symm⟩

/-- Actions that leave the registers alone keep the machine inside its trail. -/
theorem Inside.evolves (hi : Inside n L rest K env st s) (e : Evolves L s L' s') :
    Inside n L' rest K env st s' := by
  obtain ⟨vs, fs, ho, hstack, hd⟩ := hi.operands
  refine ⟨e.sound, Nat.le_trans hi.around e.grows.frames, hi.valid.grows e.grows, ?_,
    ⟨vs, fs, ho.grows e.grows, ?_, hd.grows e.grows⟩, ?_, ?_, ?_⟩
  · rw [congrArg Registers.env e.registers]
    exact hi.isEnv.grows e.grows
  · rw [congrArg Registers.stack e.registers, hstack]
  · rw [congrArg Registers.dump e.registers, hi.dump]
  · rw [congrArg Registers.exits e.registers, hi.exits]
  · rw [e.bindings, hi.bindings]

/-- An action that leaves the registers alone, in terms of what it does to the stack. -/
theorem Inside.quiet (hi : Inside n L rest K env st s) {x : LispM α}
    {post : Layout → α → Interpreter → Prop} (hx : Safe Evolves L x s post) :
    Safe (Moves n) L x s fun L' a s' => post L' a s' ∧ Inside n L' rest K env st s' := by
  have hmoves {L' s'} (e : Evolves L s L' s') : Moves n L s L' s' :=
    ⟨e.grows.weaken hi.around, e.sound, by
      rw [congrArg Registers.stack e.registers]
      exact e.registers, e.bindings, e.history⟩
  refine Leads.mono hx ?_ ?_
  · rintro a s' ⟨L', e, hp⟩
    exact ⟨L', hmoves e, hp, hi.evolves e⟩
  · rintro f s' ⟨hf, L', e⟩
    exact ⟨hf, L', hmoves e⟩

/-- Changes of the stack are changes of the registers. -/
theorem Inside.safe_moves (hi : Inside n L rest K env st s) {x : LispM α}
    {post : Layout → α → Interpreter → Prop} (hx : Safe (Moves n) L x s post) :
    Safe (Goes n rest) L x s fun L' a s' => Moves n L s L' s' ∧ post L' a s' := by
  have hgoes {L' s'} (m : Moves n L s L' s') : Goes n rest L s L' s' :=
    ⟨m.grows, m.sound, m.history, K.saved, by rw [m.bindings, hi.bindings]⟩
  refine Leads.mono hx ?_ ?_
  · rintro a s' ⟨L', m, hp⟩
    exact ⟨L', hgoes m, m, hp⟩
  · rintro e s' ⟨he, L', m⟩
    exact ⟨he, L', hgoes m⟩

/-- Actions that leave the registers alone go on in order. -/
theorem Inside.safe_quiet (hi : Inside n L rest K env st s) {x : LispM α}
    {post : Layout → α → Interpreter → Prop} (hx : Safe Evolves L x s post) :
    Safe (Goes n rest) L x s fun L' a s' => Evolves L s L' s' ∧ post L' a s' := by
  have hgoes {L' s'} (e : Evolves L s L' s') : Goes n rest L s L' s' :=
    ⟨e.grows.weaken hi.around, e.sound, e.history, K.saved, by rw [e.bindings, hi.bindings]⟩
  refine Leads.mono hx ?_ ?_
  · rintro a s' ⟨L', e, hp⟩
    exact ⟨L', hgoes e, e, hp⟩
  · rintro f s' ⟨hf, L', e⟩
    exact ⟨hf, L', hgoes e⟩

/-- An instruction that leaves one value, in front of code that expects it. -/
theorem Inside.safe_yields (hi : Inside n L rest K env st s) {st' : List Slot} {x : LispM Flow}
    (hcode : L.Code s.image.heap K.base env (.value :: st') K.context s.machine.control)
    (hx : Safe (Moves n) L x s fun L' flow s' => Yields n L' rest K env st' flow s') :
    Safe (Goes n rest) L x s (Continues n rest K) := by
  refine (hi.safe_moves hx).mono ?_
  rintro L' flow s' - ⟨m, hy⟩
  have hcode' : L'.Code s'.image.heap K.base env (.value :: st') K.context s'.machine.control :=
    m.control ▸ hcode.grows m.grows
  refine ⟨K, .inl (List.suffix_refl K), ?_⟩
  cases flow with
  | next => exact .code hy hcode'
  | stop => exact hy.elim
  | request r => exact ⟨env, st', hy, hcode'⟩

/-- The control may move. -/
theorem Inside.setControl (hi : Inside n L rest K env st s) (c : Value) :
    Inside n L rest K env st { s with machine.control := c } :=
  ⟨hi.sound.registers rfl, hi.around, hi.valid, hi.isEnv, hi.operands, hi.dump, hi.exits,
    hi.bindings⟩

/-- A changed stack, whose operands are in order. -/
theorem Inside.setStack (hi : Inside n L rest K env st s) (st' : List Slot) (stack : Stack Value)
    (ho : ∃ vs fs, Operate L s.image.heap st' vs fs ∧ stack.items = vs ++ K.operands ∧
      Dummies n s.image.heap (fs ++ K.frames)) :
    Inside n L rest K env st' { s with machine.stack := stack } :=
  ⟨hi.sound.registers rfl, hi.around, hi.valid, hi.isEnv, ho, hi.dump, hi.exits, hi.bindings⟩

/-- Any other stack may be set, as far as the rest of the machine goes. -/
theorem Inside.moves_setStack (hi : Inside n L rest K env st s) (stack : Stack Value) :
    Moves n L s L { s with machine.stack := stack } :=
  ⟨.refl n L _, hi.sound.registers rfl, rfl, rfl, id⟩

/-- Pushing a value. -/
theorem Inside.push (hi : Inside n L rest K env st s) {v : Value} (hv : L.Visible v) :
    Inside n L rest K env (.value :: st) { s with machine.stack := s.machine.stack.push v } := by
  obtain ⟨vs, fs, ho, hstack, hd⟩ := hi.operands
  exact hi.setStack _ _ ⟨v :: vs, fs, .value hv ho, by simp [hstack], hd⟩

/-- Pushing values. -/
theorem Inside.pushMany (hi : Inside n L rest K env st s) {top : List Value}
    (hv : ∀ v ∈ top, L.Visible v) :
    Inside n L rest K env (List.replicate top.length .value ++ st)
      { s with machine.stack := s.machine.stack.pushMany top } := by
  obtain ⟨vs, fs, ho, hstack, hd⟩ := hi.operands
  refine hi.setStack _ _ ⟨top.reverse ++ vs, fs, ?_, by simp [hstack], hd⟩
  exact Operate.replicate_append_iff.2 ⟨top.reverse, vs, rfl, by simp, by simpa using hv, ho⟩

/-- Popping values. -/
theorem Inside.popMany {k : Nat} (hi : Inside n L rest K env (List.replicate k .value ++ st) s) :
    ∃ top, s.machine.stack.popMany? k = some (top, s.machine.stack.drop k) ∧ top.length = k ∧
      (∀ v ∈ top, L.Visible v) ∧
      Inside n L rest K env st { s with machine.stack := s.machine.stack.drop k } := by
  obtain ⟨vs, fs, ho, hstack, hd⟩ := hi.operands
  obtain ⟨top, below, rfl, rfl, hv, hbelow⟩ := Operate.replicate_append_iff.1 ho
  rw [List.append_assoc] at hstack
  refine ⟨top.reverse, Stack.popMany?_of_items hstack, by simp, by simpa using hv, ?_⟩
  exact hi.setStack _ _ ⟨below, fs, hbelow, by simp [hstack], hd⟩

/-- As many values are taken off as there are slots for values on top. -/
theorem Inside.safe_popMany {k : Nat}
    (hi : Inside n L rest K env (List.replicate k .value ++ st) s) :
    Safe (Moves n) L (Machine.popMany k) s fun L' vs s' => L' = L ∧ vs.length = k ∧
      (∀ v ∈ vs, L.Visible v) ∧ Inside n L rest K env st s' := by
  obtain ⟨top, hpop, hlen, hv, hi'⟩ := hi.popMany
  have hx : Machine.popMany k s =
      .ok top { s with machine.stack := s.machine.stack.drop k } := by
    simp only [Machine.popMany, hpop]
  unfold Safe
  rw [leads_of_ok hx]
  exact ⟨L, hi.moves_setStack _, rfl, hlen, hv, hi'⟩

/-- Popping a value. -/
theorem Inside.pop (hi : Inside n L rest K env (.value :: st) s) :
    ∃ v stack, s.machine.stack.pop? = some (v, stack) ∧ L.Visible v ∧
      Inside n L rest K env st { s with machine.stack := stack } := by
  obtain ⟨vs, fs, ho, hstack, hd⟩ := hi.operands
  obtain _ | ⟨hv, ho⟩ := ho
  obtain ⟨stack, hpop, hitems⟩ := Stack.pop?_of_items hstack
  exact ⟨_, stack, hpop, hv, hi.setStack _ _ ⟨_, fs, ho, hitems, hd⟩⟩

/-- The value that is popped is visible. -/
theorem Inside.safe_pop (hi : Inside n L rest K env (.value :: st) s) :
    Safe (Moves n) L Machine.pop s fun L' v s' => L' = L ∧ L.Visible v ∧
      Inside n L rest K env st s' := by
  obtain ⟨v, stack, hpop, hv, hi'⟩ := hi.pop
  have hx : Machine.pop s = .ok v { s with machine.stack := stack } := by
    simp only [Machine.pop, hpop]
  unfold Safe
  rw [leads_of_ok hx]
  exact ⟨L, hi.moves_setStack _, rfl, hv, hi'⟩

/-- So are two of them. -/
theorem Inside.safe_popTwo (hi : Inside n L rest K env (.value :: .value :: st) s) :
    Safe (Moves n) L Machine.popTwo s fun L' p s' => L' = L ∧ L.Visible p.1 ∧ L.Visible p.2 ∧
      Inside n L rest K env st s' := by
  obtain ⟨vs, fs, ho, hstack, hd⟩ := hi.operands
  obtain _ | @⟨_, w, _, _, hw, _ | @⟨_, v, vs, _, hv, ho⟩⟩ := ho
  have hx : Machine.popTwo s =
      .ok (v, w) { s with machine.stack := s.machine.stack.drop 2 } := by
    simp only [Machine.popTwo, hstack, List.cons_append]
  unfold Safe
  rw [leads_of_ok hx]
  exact ⟨L, hi.moves_setStack _, rfl, hv, hw, hi.setStack _ _ ⟨vs, fs, ho, by simp [hstack], hd⟩⟩

/-- The value on top. -/
theorem Inside.peek (hi : Inside n L rest K env (.value :: st) s) :
    ∃ v, Machine.peek s = .ok v s ∧ L.Visible v := by
  obtain ⟨vs, fs, ho, hstack, hd⟩ := hi.operands
  obtain _ | @⟨_, v, vs, _, hv, ho⟩ := ho
  exact ⟨v, by simp [Machine.peek, Stack.top?, hstack], hv⟩

/-- Entering a level: the operands so far lie below it, and the registers show it. -/
theorem Inside.enter (hi : Inside n L rest K env st s) (kind : LevelKind) (outer : Value)
    (env' : List FrameShape) (s' : Interpreter) {next : Value}
    (hcode : L.Code s.image.heap K.base env (.value :: st) K.context next)
    (houter : L.IsEnv s.image.heap env outer)
    (htargets : ∀ l : Level, l.kind = kind → l.env = env → l.below = st → l.next = next →
      ∀ id table, kind = .tagbody id table → ∃ entries : List (Value × Value),
        L.tags id = some (entries.map (·.1)) ∧ L.IsTable s.image.heap entries table ∧
          ∀ e ∈ entries, L.Code s.image.heap (Trail.base (l :: K)) env [] (Trail.context (l :: K)) e.2)
    (hs : Sound L s') (hheap : s'.image.heap = s.image.heap)
    (hstack : s'.machine.stack = s.machine.stack)
    (henv : L.IsEnv s.image.heap env' s'.machine.env)
    (hregisters : ∀ l : Level, l.kind = kind → l.next = next → l.outer = outer →
      s.machine.stack.items = Trail.operands (l :: K) →
      s'.machine.dump.items = Trail.dump rest.length (l :: K) ∧
        s'.machine.exits.items = Trail.exits rest.length (l :: K) ∧
        s'.machine.bindings.items = Trail.saved (l :: K) ++ rest) :
    ∃ l : Level, l.kind = kind ∧ l.env = env ∧ l.below = st ∧ l.next = next ∧
      Inside n L rest (l :: K) env' [] s' := by
  obtain ⟨vs, fs, ho, hitems, hd⟩ := hi.operands
  -- The new level has what the registers held at its entry.
  let l : Level := ⟨kind, env, st, next, outer, vs, fs⟩
  obtain ⟨hdump, hexits, hbindings⟩ := hregisters l rfl rfl rfl hitems
  refine ⟨l, rfl, rfl, rfl, rfl, hs, hheap ▸ hi.around, ?_, hheap ▸ henv, ⟨[], [], .nil, ?_, ?_⟩, hdump,
    hexits, hbindings⟩
  · rw [hheap]
    exact ⟨⟨hcode, ho, houter, htargets l rfl rfl rfl rfl⟩, hi.valid⟩
  · rw [hstack]
    exact hitems
  · rw [hheap]
    exact hd

/-- Leaving a result. -/
theorem Inside.safe_done (hi : Inside n L rest K env st s) {v : Value} (hv : L.Visible v) :
    Safe (Moves n) L (done v) s fun L' flow s' => Yields n L' rest K env st flow s' :=
  ⟨L, hi.moves_setStack _, hi.push hv⟩

theorem Inside.safe_doneBool (hi : Inside n L rest K env st s) {b : Bool} :
    Safe (Moves n) L (doneBool b) s fun L' flow s' => Yields n L' rest K env st flow s' := by
  refine hi.safe_done ?_
  cases b <;> trivial

end

end StackLisp
