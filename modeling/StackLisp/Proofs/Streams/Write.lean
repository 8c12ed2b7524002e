import StackLisp.Proofs.Binding
import StackLisp.Proofs.Streams.Kept

/-!
# What a step writes

A step of the machine makes pairs, but it writes to none that there are, unless it calls
`rplaca` or `rplacd`: these write one half of the pair that they are given. `Interpreter.writes?`
tells beforehand which one that is, from what comes next and from the stack, and `Altered` says
that nothing else is different afterwards (`leads_step_altered`, `leads_call_altered`).
-/

namespace StackLisp

open Interpreter Machine

variable {α β : Type}

/-! ## Halves of pairs -/

/-- The halves of a pair. -/
inductive Half where
  | car
  | cdr
deriving DecidableEq, Repr

/-- What is in a half of a pair. -/
def Heap.half (h : Heap) : Half → PairId → Value
  | .car, p => h.car p
  | .cdr, p => h.cdr p

/-- The half of a pair that a primitive writes, if it is called on a stack. -/
def Builtin.writes? : Builtin → List Value → Option (Half × PairId)
  | .rplaca, _ :: .pair p :: _ => some (.car, p)
  | .rplacd, _ :: .pair p :: _ => some (.cdr, p)
  | _, _ => none

namespace Interpreter

/-- The half of a pair that a primitive writes, called on a stack. -/
def writesBy? (s : Interpreter) (id : PrimitiveId) (items : List Value) : Option (Half × PairId) :=
  (s.image.primitives.get id).builtin.bind (·.writes? items)

/-- The half of a pair that a call of what is below the arguments writes. -/
def writesBelow? (s : Interpreter) (argc : Nat) : Option (Half × PairId) :=
  match s.machine.stack.items[argc]? with
  | some (.primitive id) => s.writesBy? id (s.machine.stack.items.eraseIdx argc)
  | _ => none

/-- The half of a pair that is written next, if one is. -/
def writes? (s : Interpreter) : Flow → Option (Half × PairId)
  | .next =>
    match s.image.heap.instruction? s.machine.control with
    | some (.callp, [.primitive id, _], _) => s.writesBy? id s.machine.stack.items
    | some (.ap, [v], _) | some (.tap, [v], _) => v.count?.bind s.writesBelow?
    | _ => none
  | .request (.call argc _) => s.writesBelow? argc
  | _ => none

end Interpreter

/-- There may be more pairs, and one half of a pair may have been written; apart from that, no
    pair, no function, no mark in the log and nothing that the compiler knows is different. -/
structure Altered (w : Option (Half × PairId)) (s s' : Interpreter) : Prop where
  pairCount : s.image.heap.pairCount ≤ s'.image.heap.pairCount
  half : ∀ (part : Half) (p : PairId), p.index < s.image.heap.pairCount → w ≠ some (part, p) →
    s'.image.heap.half part p = s.image.heap.half part p
  functions : s'.image.functions = s.image.functions
  marks : s'.image.log.marks = s.image.log.marks
  scopes : s'.scopes.unwarned = s.scopes.unwarned

section

variable {w : Option (Half × PairId)} {s s' s'' : Interpreter}

/-- Where pairs are only added, no half is written. -/
theorem Altered.of_extended (heap : s.image.heap.Extended s'.image.heap)
    (functions : s'.image.functions = s.image.functions) (marks : s'.image.log.marks = s.image.log.marks)
    (scopes : s'.scopes.unwarned = s.scopes.unwarned) : Altered w s s' where
  pairCount := heap.pairCount
  half part p hp _ := by
    cases part with
    | car => exact heap.car p hp
    | cdr => exact heap.cdr p hp
  functions := functions
  marks := marks
  scopes := scopes

/-- A calm change adds pairs at most. -/
theorem Altered.of_calm (h : Calm s s') : Altered w s s' := .of_extended h.heap h.functions h.marks h.scopes

theorem Altered.refl (s : Interpreter) : Altered w s s := .of_calm (.refl s)

/-- The same half may be written twice. -/
theorem Altered.trans (h : Altered w s s') (h' : Altered w s' s'') : Altered w s s'' where
  pairCount := Nat.le_trans h.pairCount h'.pairCount
  half part p hp hw := (h'.half part p (Nat.lt_of_lt_of_le hp h.pairCount) hw).trans (h.half part p hp hw)
  functions := h'.functions.trans h.functions
  marks := h'.marks.trans h.marks
  scopes := h'.scopes.trans h.scopes

/-- Nothing is written, so no pair is different. -/
theorem Altered.mono (h : Altered none s s') : Altered w s s' :=
  { h with half := fun part p hp _ => h.half part p hp nofun }

/-- Where nothing is written, pairs are only added. -/
theorem Altered.extended (h : Altered none s s') : s.image.heap.Extended s'.image.heap where
  pairCount := h.pairCount
  car p hp := h.half .car p hp nofun
  cdr p hp := h.half .cdr p hp nofun

end

/-- The action alters nothing but one half of a pair, whether or not it fails. -/
def Alters (w : Option (Half × PairId)) (x : LispM α) (s : Interpreter) : Prop :=
  Leads x s (fun _ s' => Altered w s s') fun _ s' => Altered w s s'

section

variable {w : Option (Half × PairId)} {s : Interpreter} {x : LispM α} {f : α → LispM β}

theorem Calms.alters (hx : Calms x) (s : Interpreter) : Alters w x s :=
  (hx.calm s).mono (fun _ _ h => .of_calm h) fun _ _ h => .of_calm h

theorem Quiet.alters (hx : Quiet x) (s : Interpreter) : Alters w x s := hx.toCalms.alters s

/-- To write nothing is to write no other half than a given one. -/
theorem Alters.mono (hx : Alters none x s) : Alters w x s :=
  Leads.mono hx (fun _ _ h => h.mono) fun _ _ h => h.mono

/-- Both parts write no other half. -/
theorem Alters.bind (hx : Alters w x s) (hf : ∀ a s', x s = .ok a s' → Alters w (f a) s') :
    Alters w (x >>= f) s := by
  unfold Alters at *
  rw [leads_bind]
  unfold Leads at hx ⊢
  split
  · next a s' heq =>
    rw [heq] at hx
    exact Leads.mono (hf a s' heq) (fun _ _ h => hx.trans h) fun _ _ h => hx.trans h
  · next e s' heq =>
    rw [heq] at hx
    exact hx

/-- Whatever is no call writes nothing. -/
theorem alters_turningCongruence : TurningCongruence fun _ x _ => ∀ s, Alters none x s where
  quiet hx := hx.alters
  bind hx hf s := (hx s).bind fun a s' _ => hf a s'
  gensym _ s := leads_gensym.2 (.of_extended (.refl _) rfl rfl rfl)
  -- The heap is only read here, or nothing but the registers is written.
  walk _ _ _ s := by
    refine leads_walk.2 ?_
    split <;> exact .refl s
  count s := by
    have h : Altered none s { s with machine.steps := s.machine.steps + 1 } := .of_extended (.refl _) rfl rfl rfl
    show Leads count s _ _
    unfold count
    rw [leads_bind, leads_modifyMachine, leads_bind, leads_view]
    dsimp only
    split
    · split
      · exact h
      · exact h
    · exact h
  turns hx := hx.calms.alters
  bindSpecial _ _ s := leads_bindSpecial.2 (.of_extended (.refl _) rfl rfl rfl)
  unbindSpecial _ s := by
    refine leads_unbindSpecial.2 ?_
    split
    · exact .refl s
    · split <;> exact .of_extended (.refl _) rfl rfl rfl
  unwindBindings _ s := leads_unwindBindings.2 (.of_extended (.refl _) rfl rfl rfl)

/-! ## Primitives -/

/-- The first component of a pair is written. -/
theorem alters_setCar (p : PairId) (v : Value) (s : Interpreter) :
    Alters (some (.car, p)) (liftM (modify (·.setCar p v) : HeapM Unit) : LispM Unit) s := by
  refine leads_heap.2 ((leads_modify _).2 ⟨Nat.le_of_eq Heap.pairCount_setCar.symm, ?_, rfl, rfl, rfl⟩)
  intro part q _ hne
  cases part with
  | car => exact Heap.car_setCar_of_ne fun heq => hne (by rw [heq])
  | cdr => rfl

/-- The second one is. -/
theorem alters_setCdr (p : PairId) (v : Value) (s : Interpreter) :
    Alters (some (.cdr, p)) (liftM (modify (·.setCdr p v) : HeapM Unit) : LispM Unit) s := by
  refine leads_heap.2 ((leads_modify _).2 ⟨Nat.le_refl _, ?_, rfl, rfl, rfl⟩)
  intro part q _ hne
  cases part with
  | car => rfl
  | cdr => exact Heap.cdr_setCdr_of_ne fun heq => hne (by rw [heq])

/-- The two arguments of a primitive that gets a pair and a value. -/
theorem alters_onPair {w : Option (Half × PairId)} {operation : String} {f : Value → PairId → Value → LispM Flow}
    (hf : ∀ p v rest, s.machine.stack.items = v :: .pair p :: rest → ∀ s', Alters w (f (.pair p) p v) s') :
    Alters w (do
      let (x, v) ← popTwo
      let p ← pairArg operation x
      f x p v) s := by
  refine (quiet_popTwo.alters s).bind ?_
  rintro ⟨x, v⟩ s₁ h₁
  refine ((quiet_pairArg ..).alters s₁).bind fun p s₂ h₂ => ?_
  -- what is on the stack can be read off the values that have been popped
  obtain ⟨rest, hitems⟩ : ∃ rest, s.machine.stack.items = v :: x :: rest := by
    unfold popTwo at h₁
    split at h₁
    · next b a rest heq =>
      cases h₁
      exact ⟨rest, heq⟩
    · cases h₁
  obtain rfl : x = .pair p := by
    unfold pairArg at h₂
    split at h₂
    · cases h₂
      rfl
    · cases h₂
  exact hf p v rest hitems s₂

/-- Apart from `rplaca` and `rplacd`, a primitive writes nothing. These find the pair below the
    value on the stack. -/
theorem alters_runBuiltin (b : Builtin) (argc : Nat) (s : Interpreter) :
    Alters (b.writes? s.machine.stack.items) (runBuiltin b argc) s := by
  have hdone {w : Option (Half × PairId)} {x : LispM Unit} {v : Value} {s' : Interpreter} (hx : Alters w x s') :
      Alters w (do x; done v) s' := hx.bind fun _ s'' _ => (quiet_done v).alters s''
  -- Only the primitives that assign can change a pair.
  cases hassigns : b.isAssignment with
  | false => exact (alters_turningCongruence.runBuiltin hassigns argc s).mono
  | true =>
    cases b with
    | set =>
      refine (quiet_popTwo.alters s).bind fun x s₁ _ => ((quiet_symbolArg ..).alters s₁).bind fun id s₂ _ => hdone ?_
      refine leads_update.2 ?_
      split
      · exact .refl s₂
      · exact .of_extended (.refl _) rfl rfl rfl
    | rplaca =>
      refine alters_onPair (f := fun x p v => do (modify (·.setCar p v) : HeapM Unit); done x)
        fun p v rest hitems s' => hdone ?_
      rw [hitems]
      exact alters_setCar p v s'
    | rplacd =>
      refine alters_onPair (f := fun x p v => do (modify (·.setCdr p v) : HeapM Unit); done x)
        fun p v rest hitems s' => hdone ?_
      rw [hitems]
      exact alters_setCdr p v s'
    | _ => cases hassigns

/-! ## Calls and steps -/

/-- Checking the arity writes nothing. -/
theorem alters_callPrimitive (id : PrimitiveId) (argc : Nat) (s : Interpreter) :
    Alters (s.writesBy? id s.machine.stack.items) (callPrimitive id argc) s := by
  refine (leads_bind _).2 (leads_checkPrimitive.mono ?_ fun e s' h => h ▸ .refl _)
  rintro b _ ⟨hb, rfl⟩
  unfold Interpreter.writesBy?
  rw [hb]
  exact alters_runBuiltin b argc _

/-- An element of a stack, and those below it. -/
theorem getElem?_of_drop {l : List Value} {n : Nat} {v : Value} {rest : List Value}
    (h : l.drop n = v :: rest) : l[n]? = some v ∧ l.drop (n + 1) = rest := by
  refine ⟨?_, ?_⟩
  · rw [← List.head?_drop, h, List.head?_cons]
  · rw [← List.drop_drop, h]
    rfl

/-- The callee is below the arguments. If it is a primitive, it is taken out from there before it is
    called. -/
theorem alters_call (argc : Nat) (mode : CallMode) (s : Interpreter) :
    Alters (s.writesBelow? argc) (call argc mode) s := by
  unfold Alters call
  rw [leads_bind]
  refine leads_popMany (fun _ => .refl s) ?_
  rw [leads_bind]
  refine leads_pop (fun _ => .of_extended (.refl _) rfl rfl rfl) fun callee rest hrest => ?_
  have hpopped (stack : Stack Value) : Altered (s.writesBelow? argc) s { s with machine.stack := stack } :=
    .of_extended (.refl _) rfl rfl rfl
  obtain ⟨hcallee, hbelow⟩ := getElem?_of_drop hrest
  split
  · next id =>
    have hcall (s' : Interpreter) (hprimitives : s'.image.primitives = s.image.primitives)
        (hitems : s'.machine.stack.items = s.machine.stack.items.eraseIdx argc) :
        Alters (s.writesBelow? argc) (callPrimitive id argc) s' := by
      -- the callee is taken out from below its arguments, which are what the primitive sees
      have := alters_callPrimitive id argc s'
      rw [Interpreter.writesBy?, hprimitives, hitems] at this
      rw [Interpreter.writesBelow?, hcallee]
      exact this
    rw [leads_bind, leads_pushMany]
    refine Leads.mono (hcall _ rfl ?_) (fun _ _ h => (hpopped _).trans h) fun _ _ h => (hpopped _).trans h
    simp [List.eraseIdx_eq_take_drop_succ, hbelow]
  · have henter (args : List Value) (s' : Interpreter) : Alters (s.writesBelow? argc) (do
        callFunction callee args mode
        return Flow.next) s' :=
      (Alters.mono (alters_turningCongruence.callFunction callee args mode s')).bind fun _ s'' _ =>
        (quiet_pure _).alters s''
    exact Leads.mono (henter _ _) (fun _ _ h => (hpopped _).trans h) fun _ _ h => (hpopped _).trans h

/-- What holds of a step before its instruction is executed. -/
theorem alters_step_of {w : Option (Half × PairId)}
    (hgo : ∀ {id : PairId} {code : Opcode} {s' : Interpreter}, s.machine.control = .pair id →
      s.image.heap.car id = .op code → s'.machine.control = s.image.heap.cdr id → Alike s s' →
      Alters w (Machine.execute code) s') : Alters w step s := by
  rw [step_eq]
  refine (Alters.mono (alters_turningCongruence.count s)).bind fun _ s₁ h₁ => ?_
  refine (quiet_fetch.alters s₁).bind fun code s₂ h₂ => ?_
  refine ((quiet_noteStep code).alters s₂).bind fun _ s₃ h₃ => ?_
  -- counting and logging leave the registers alone, and fetching moves the control behind the opcode
  obtain ⟨s₁', halike, hcontrol, -, hcount⟩ := count_eq s
  obtain rfl : s₁' = s₁ := by
    rcases hcount with hcount | hcount <;> cases h₁.symm.trans hcount
    rfl
  have hfetch : Leads fetch s₁' (fun code s₂ => ∃ id, s₁'.machine.control = .pair id ∧
      s₁'.image.heap.car id = .op code ∧ s₂ = { s₁' with machine.control := s₁'.image.heap.cdr id }) fun _ _ => True := by
    unfold fetch
    rw [leads_bind, leads_view]
    dsimp only
    split
    · trivial
    · rw [leads_bind]
      refine leads_operand (fun _ _ => trivial) fun id hid => ?_
      split
      · next code hcode => exact ⟨id, hid, hcode, rfl⟩
      · trivial
  obtain ⟨id, hid, hcode, rfl⟩ := (leads_of_ok h₂).1 hfetch
  obtain ⟨log, -, hlog⟩ := noteStep_ends code { s₁' with machine.control := s₁'.image.heap.cdr id }
  obtain rfl : _ = s₃ := by
    injection hlog.symm.trans h₃
  exact hgo (hcontrol.symm.trans hid) (halike.heap ▸ hcode) (congrArg (Heap.cdr · id) halike.heap)
    ⟨halike.heap, halike.symbols, halike.primitives, halike.functions, halike.scopes, halike.stack, halike.env,
      halike.dump, halike.exits, halike.bindings⟩

/-- An operand is what is in the next pair of the stream. -/
theorem leads_operand_car (s : Interpreter) :
    Leads operand s (fun v s' => ∃ id, s.machine.control = .pair id ∧ v = s.image.heap.car id ∧
      s' = { s with machine.control := s.image.heap.cdr id }) fun _ _ => True :=
  leads_operand (fun _ _ => trivial) fun id hid => ⟨id, hid, rfl, rfl⟩

/-- So is a count. -/
theorem leads_operandIndex_count (s : Interpreter) :
    Leads operandIndex s (fun n s' => ∃ id, s.machine.control = .pair id ∧ (s.image.heap.car id).count? = some n ∧
      s' = { s with machine.control := s.image.heap.cdr id }) fun _ _ => True := by
  unfold operandIndex
  rw [leads_bind]
  refine leads_operand (fun _ _ => trivial) fun id hid => ?_
  split
  · next n hn =>
    split
    · next hle => exact ⟨id, hid, by simp [hn, Value.count?, hle], rfl⟩
    · trivial
  · trivial

/-- A step writes what a call that comes next writes, and nothing else. -/
theorem alters_step (s : Interpreter) : Alters (s.writes? .next) step s := by
  refine alters_step_of fun {id code s'} hid hcode hcontrol ha => ?_
  by_cases hrtn : code = .rtn
  · subst hrtn
    exact Calms.alters (calms_returnToCaller.bind fun _ => (quiet_pure Flow.next).toCalms) s'
  -- an instruction that calls what is below its arguments
  have hcall (mode : CallMode) (hcall : code = .ap ∨ code = .tap) :
      Alters (s.writes? .next) (do call (← operandIndex) mode) s' := by
    refine (quiet_operandIndex.alters s').bind fun argc s₁ h₁ => ?_
    obtain ⟨q, hq, hcount, rfl⟩ := (leads_of_ok h₁).1 (leads_operandIndex_count s')
    rw [ha.heap] at hcount
    rw [hcontrol] at hq
    have hinstr : s.image.heap.instruction? s.machine.control =
        some (code, [s.image.heap.car q], s.image.heap.cdr q) := by
      rw [hid]
      refine Heap.instruction?_of_car hcode ?_
      rcases hcall with rfl | rfl <;> simp [Opcode.operandCount, hq, Heap.operandsAt]
    have hwrites : s.writes? .next = s.writesBelow? argc := by
      unfold Interpreter.writes?
      rw [hinstr]
      rcases hcall with rfl | rfl <;> simp [hcount]
    have h := alters_call argc mode { s' with machine.control := s'.image.heap.cdr q }
    rw [hwrites]
    unfold Interpreter.writesBelow? Interpreter.writesBy? at h ⊢
    rwa [ha.stack, ha.primitives] at h
  cases hassigns : code.isAssignmentOrCall with
  | false => exact (alters_turningCongruence.executeInstruction hassigns hrtn s').mono
  | true =>
    cases code with
    | setg =>
      refine (quiet_operandSymbol.alters s').bind fun name s₁ _ => ?_
      refine (quiet_peek.alters s₁).bind fun v s₂ _ => ?_
      -- an assignment writes to a value cell, and no pair is one
      refine Alters.bind (leads_update.2 ?_) fun _ s₃ _ => (quiet_pure _).alters s₃
      split
      · exact .refl s₂
      · exact .of_extended (.refl _) rfl rfl rfl
    | ap => exact hcall .push (.inl rfl)
    | tap => exact hcall .tail (.inr rfl)
    | callp =>
      refine (quiet_operand.alters s').bind fun v s₁ h₁ => ?_
      obtain ⟨q, hq, rfl, rfl⟩ := (leads_of_ok h₁).1 (leads_operand_car s')
      split
      · next id' hprimitive =>
        refine (quiet_operandIndex.alters _).bind fun argc s₂ h₂ => ?_
        obtain ⟨r, hr, -, rfl⟩ := (leads_of_ok h₂).1 (leads_operandIndex_count _)
        dsimp only at hr hprimitive
        rw [ha.heap] at hr hprimitive
        rw [hcontrol] at hq
        have hinstr : s.image.heap.instruction? s.machine.control =
            some (.callp, [.primitive id', s.image.heap.car r], s.image.heap.cdr r) := by
          rw [hid]
          refine Heap.instruction?_of_car hcode ?_
          simp [Opcode.operandCount, hq, hr, hprimitive, Heap.operandsAt]
        have hwrites : s.writes? .next = s.writesBy? id' s.machine.stack.items := by
          unfold Interpreter.writes?
          rw [hinstr]
        have h := alters_callPrimitive id' argc
          { s' with machine.control := s'.image.heap.cdr r }
        rw [hwrites]
        unfold Interpreter.writesBy? at h ⊢
        rwa [ha.stack, ha.primitives] at h
      · exact (quiet_fault _).alters _
    | _ => cases hassigns

end

end StackLisp
