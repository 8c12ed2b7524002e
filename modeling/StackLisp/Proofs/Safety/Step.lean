import StackLisp.Proofs.Safety.Call
import StackLisp.Proofs.Safety.Exit

/-!
# Instructions in order

Every step of the machine on code that is in order leads to a state of the same
kind, on the same trail, on one a level further in, or on one further out
(`safe_step`). There is one case for each instruction.
-/

namespace StackLisp

open Interpreter Layout Machine

section

variable {n : Nat} {L : Layout} {rest : List SavedValue} {K : Trail} {env : List FrameShape}
  {st : List Slot} {s : Interpreter} {β : Type} {post : Layout → β → Interpreter → Prop}
  {v k : Value} {vs : List Value}

/-! ## Operands of instructions -/

/-- A move of the control, before another action. -/
theorem safe_setControl {x : LispM β} (c : Value)
    (hx : Safe (Goes n rest) L x { s with machine.control := c } post) :
    Leads x { s with machine.control := c } (fun a s' => ∃ L', Goes n rest L s L' s' ∧ post L' a s')
      fun e s' => e.Benign ∧ ∃ L', Goes n rest L s L' s' :=
  Leads.mono hx (fun _ _ ⟨L', g, hp⟩ => ⟨L', ⟨g.grows, g.sound, g.history, g.bindings⟩, hp⟩)
    fun _ _ ⟨he, L', g⟩ => ⟨he, L', g.grows, g.sound, g.history, g.bindings⟩

/-- The code says which operand comes next. Where the stream goes on after it may be taken as it
    is. -/
theorem safe_operand_bind {f : Value → LispM β}
    (ho : L.Operands s.image.heap (v :: vs) s.machine.control k)
    (hf : ∀ c, L.Operands s.image.heap vs c k →
      Safe (Goes n rest) L (f v) { s with machine.control := c } post) :
    Safe (Goes n rest) L (operand >>= f) s post := by
  obtain ⟨c, hoperand, ho'⟩ := operand_eq ho
  unfold Safe
  rw [leads_bind, leads_of_ok hoperand]
  exact safe_setControl c (hf c ho')

/-- An operand that is a count is read as that count. -/
theorem operandIndex_eq {i : Nat} (ho : L.Operands s.image.heap (v :: vs) s.machine.control k)
    (hv : v.count? = some i) :
    ∃ c, operandIndex s = .ok i { s with machine.control := c } ∧ L.Operands s.image.heap vs c k := by
  obtain ⟨c, hoperand, ho'⟩ := operand_eq ho
  refine ⟨c, ?_, ho'⟩
  cases v with
  | int m =>
    simp only [Value.count?] at hv
    split at hv
    · next hm =>
      obtain rfl := Option.some.inj hv
      simp [operandIndex, bind, EStateM.bind, hoperand, hm, pure, EStateM.pure]
    · cases hv
  | _ => cases hv

theorem safe_operandIndex_bind {f : Nat → LispM β} {i : Nat}
    (ho : L.Operands s.image.heap (v :: vs) s.machine.control k) (hv : v.count? = some i)
    (hf : ∀ c, L.Operands s.image.heap vs c k →
      Safe (Goes n rest) L (f i) { s with machine.control := c } post) :
    Safe (Goes n rest) L (operandIndex >>= f) s post := by
  obtain ⟨c, hindex, ho'⟩ := operandIndex_eq ho hv
  unfold Safe
  rw [leads_bind, leads_of_ok hindex]
  exact safe_setControl c (hf c ho')

theorem safe_operandSymbol_bind {f : SymbolId → LispM β} {id : SymbolId}
    (ho : L.Operands s.image.heap (.symbol id :: vs) s.machine.control k)
    (hf : ∀ c, L.Operands s.image.heap vs c k →
      Safe (Goes n rest) L (f id) { s with machine.control := c } post) :
    Safe (Goes n rest) L (operandSymbol >>= f) s post := by
  obtain ⟨c, hoperand, ho'⟩ := operand_eq ho
  have hsymbol : operandSymbol s = .ok id { s with machine.control := c } := by
    simp [operandSymbol, bind, EStateM.bind, hoperand, Value.symbol?, pure, EStateM.pure]
  unfold Safe
  rw [leads_bind, leads_of_ok hsymbol]
  exact safe_setControl c (hf c ho')

/-! ## Environments -/

/-- An environment goes on outward. -/
theorem Layout.IsEnv.outward {h : Heap} :
    ∀ {i : Nat} {env : List FrameShape} {e : Value} {m : FrameShape}, L.IsEnv h env e →
      env[i]? = some m → ∃ id f, Machine.outward h i e = .ok (.pair id) ∧ h.car id = .frame f ∧
        L.slots f = some m.params
  | _, [], _, _, _, hm => by cases hm
  | 0, _ :: _, _, _, .cons _ hcar hslots _, hm => by
    obtain rfl := Option.some.inj hm
    exact ⟨_, _, rfl, hcar, hslots⟩
  | i + 1, _ :: _, _, _, .cons _ _ _ hrest, hm => by
    obtain ⟨id', f, hout, hcar, hslots⟩ := hrest.outward (i := i) (by simpa using hm)
    refine ⟨id', f, ?_, hcar, hslots⟩
    simpa [Machine.outward, Heap.tail, bind, Except.bind] using hout

/-- The environment has a frame for each one that the code was compiled for, and of its size. -/
theorem Inside.frameAt (hi : Inside n L rest K env st s) {i : Nat} {m : FrameShape}
    (hm : env[i]? = some m) : ∃ f, Machine.frameAt i s = .ok f s ∧ L.slots f = some m.params := by
  obtain ⟨id, f, hout, hcar, hslots⟩ := hi.isEnv.outward hm
  refine ⟨f, ?_, hslots⟩
  simp [Machine.frameAt, bind, EStateM.bind, Except.bind, view, query, hout, Heap.head, hcar, pure,
    EStateM.pure]

/-- Going on with the next instruction. -/
theorem Inside.safe_next (hi : Inside n L rest K env st s)
    (hcode : L.Code s.image.heap K.base env st K.context s.machine.control) :
    Safe (Goes n rest) L (pure Flow.next) s (Continues n rest K) :=
  Safe.pure hi.goes ⟨K, .inl (List.suffix_refl K), .code hi hcode⟩

/-! ## Loading and storing -/

section

variable (hi : Inside n L rest K env st s)
  (hnext : L.Code s.image.heap K.base env (.value :: st) K.context k)
include hi hnext

/-- The value is one that programs can see. -/
theorem safe_ldc (ho : L.Operands s.image.heap [v] s.machine.control k) (hv : L.Visible v) :
    Safe (Goes n rest) L (Machine.execute .ldc) s (Continues n rest K) := by
  refine safe_operand_bind ho fun c ho => ?_
  obtain rfl := ho.nil_inv
  have hi := hi.setControl c
  exact hi.safe_yields hnext (hi.safe_done hv)

/-- The frame has the slot, and programs can see what is in it. While a `letrec` fills its frame,
    the slot may be found empty, which is an error of the program. -/
theorem safe_ld {w : Value} {i j : Nat} {m : FrameShape}
    (ho : L.Operands s.image.heap [v, w] s.machine.control k) (hv : v.count? = some i)
    (hw : w.count? = some j) (hm : env[i]? = some m) (hj : j < m.params) :
    Safe (Goes n rest) L (Machine.execute .ld) s (Continues n rest K) := by
  refine safe_operandIndex_bind ho hv fun c ho => ?_
  refine safe_operandIndex_bind ho hw fun c' ho => ?_
  obtain rfl := ho.nil_inv
  have hi := (hi.setControl c).setControl c'
  obtain ⟨f, hf, hslots⟩ := hi.frameAt hm
  refine (safe_bind_of_ok hf).2 (hi.safe_yields hnext ?_)
  -- A slot that is not filled yet is an error of the program, not a broken rule.
  rcases hi.sound.fits.frameSlot hslots hj with ⟨w, hw, hvisible, -⟩ | hw
  · refine (inert_query fun e he => ?_).safe_bind hi.moves fun w' hw' => hi.safe_done ?_
    · simp [hw] at he
    · obtain rfl : w = w' := by simpa [hw] using hw'
      exact hvisible
  · refine (inert_query fun e he => ?_).safe_bind hi.moves fun w' hw' => ?_
    · obtain rfl : Error.uninitializedVariable = e := by simpa [hw] using he
      exact trivial
    · simp [hw] at hw'

/-- The rest of a frame is consed anew. -/
theorem safe_ldr {w : Value} {i j : Nat} {m : FrameShape}
    (ho : L.Operands s.image.heap [v, w] s.machine.control k) (hv : v.count? = some i)
    (hw : w.count? = some j) (hm : env[i]? = some m) :
    Safe (Goes n rest) L (Machine.execute .ldr) s (Continues n rest K) := by
  refine safe_operandIndex_bind ho hv fun c ho => ?_
  refine safe_operandIndex_bind ho hw fun c' ho => ?_
  obtain rfl := ho.nil_inv
  have hi := (hi.setControl c).setControl c'
  obtain ⟨f, hf, hslots⟩ := hi.frameAt hm
  refine (safe_bind_of_ok hf).2 (hi.safe_yields hnext ?_)
  refine (hi.quiet (safe_heap hi.sound (safe_frameRest hi.sound.fits))).bind ?_
  rintro L w s _ ⟨hw, hi⟩
  exact hi.safe_done hw

/-- A variable without a value is an error of the program. -/
theorem safe_ldg {id : SymbolId} (ho : L.Operands s.image.heap [.symbol id] s.machine.control k) :
    Safe (Goes n rest) L (Machine.execute .ldg) s (Continues n rest K) := by
  refine safe_operandSymbol_bind ho fun c ho => ?_
  obtain rfl := ho.nil_inv
  have hi := hi.setControl c
  refine hi.safe_yields hnext ?_
  refine (inert_query fun _ => SymbolTable.value_benign).safe_bind hi.moves fun w hw => ?_
  exact hi.safe_done (hi.sound.value hw)

/-- So is a name without a function. -/
theorem safe_gfn {id : SymbolId} (ho : L.Operands s.image.heap [.symbol id] s.machine.control k) :
    Safe (Goes n rest) L (Machine.execute .gfn) s (Continues n rest K) := by
  refine safe_operandSymbol_bind ho fun c ho => ?_
  obtain rfl := ho.nil_inv
  have hi := hi.setControl c
  refine hi.safe_yields hnext ?_
  refine (inert_query fun _ => SymbolTable.functionValue_benign).safe_bind hi.moves fun w hw => ?_
  have hdone := hi.safe_done (hi.sound.functionValue hw)
  cases w with
  | function f =>
    refine safe_asks_bind.2 ?_
    split
    · exact safe_nameOf_bind.2 (safe_raise_bind hi.moves trivial)
    · exact hdone
  | _ => exact hdone

/-- The closure is made in the environment that its function was compiled for. -/
theorem safe_ldf {f : FunctionId} {m : FrameShape}
    (ho : L.Operands s.image.heap [.function f] s.machine.control k)
    (hf : L.shape f = some (m :: env)) :
    Safe (Goes n rest) L (Machine.execute .ldf) s (Continues n rest K) := by
  refine safe_operand_bind ho fun c ho => ?_
  obtain rfl := ho.nil_inv
  have hi := hi.setControl c
  refine hi.safe_yields hnext ?_
  refine safe_view_bind.2 ?_
  refine (hi.quiet (safe_heap hi.sound (safe_alloc_closure hi.sound.fits hf hi.isEnv))).bind ?_
  rintro L id s _ ⟨hid, hi⟩
  exact hi.safe_done hid

end

section

variable (hi : Inside n L rest K env (.value :: st) s)
  (hnext : L.Code s.image.heap K.base env (.value :: st) K.context k)
include hi hnext

/-- What is put into the slot is a value that programs can see. -/
theorem safe_setl {w : Value} {i j : Nat} {m : FrameShape}
    (ho : L.Operands s.image.heap [v, w] s.machine.control k) (hv : v.count? = some i)
    (hw : w.count? = some j) (hm : env[i]? = some m) (hj : j < m.params) :
    Safe (Goes n rest) L (Machine.execute .setl) s (Continues n rest K) := by
  refine safe_operandIndex_bind ho hv fun c ho => ?_
  refine safe_operandIndex_bind ho hw fun c' ho => ?_
  obtain rfl := ho.nil_inv
  have hi := (hi.setControl c).setControl c'
  obtain ⟨x, hpeek, hx⟩ := hi.peek
  obtain ⟨f, hf, hslots⟩ := hi.frameAt hm
  refine (safe_bind_of_ok hpeek).2 ((safe_bind_of_ok hf).2 ?_)
  refine (hi.safe_quiet (safe_heap hi.sound
    (safe_setFrameSlot hi.sound.fits hslots hj hx))).bind ?_
  rintro L' _ s' - ⟨e, -⟩
  refine (hi.evolves e).safe_next ?_
  rw [congrArg Registers.control e.registers]
  exact hnext.grows e.grows

/-- The values of the list that is assigned go into the slots of the frame, and programs can see
    them all. -/
theorem safe_setlr {w : Value} {i j : Nat} {m : FrameShape}
    (ho : L.Operands s.image.heap [v, w] s.machine.control k) (hv : v.count? = some i)
    (hw : w.count? = some j) (hm : env[i]? = some m) (hj : m.params ≤ j) :
    Safe (Goes n rest) L (Machine.execute .setlr) s (Continues n rest K) := by
  refine safe_operandIndex_bind ho hv fun c ho => ?_
  refine safe_operandIndex_bind ho hw fun c' ho => ?_
  obtain rfl := ho.nil_inv
  have hi := (hi.setControl c).setControl c'
  obtain ⟨x, hpeek, hx⟩ := hi.peek
  obtain ⟨f, hf, hslots⟩ := hi.frameAt hm
  refine (safe_bind_of_ok hpeek).2 ((safe_bind_of_ok hf).2 ?_)
  refine (hi.safe_quiet (safe_heap hi.sound
    (safe_setFrameRest hi.sound.fits hslots hj hx))).bind ?_
  rintro L' _ s' - ⟨e, -⟩
  refine (hi.evolves e).safe_next ?_
  rw [congrArg Registers.control e.registers]
  exact hnext.grows e.grows

/-- Assigning a constant is refused, as an error of the program. -/
theorem safe_setg {id : SymbolId} (ho : L.Operands s.image.heap [.symbol id] s.machine.control k) :
    Safe (Goes n rest) L (Machine.execute .setg) s (Continues n rest K) := by
  refine safe_operandSymbol_bind ho fun c ho => ?_
  obtain rfl := ho.nil_inv
  have hi := hi.setControl c
  obtain ⟨x, hpeek, hx⟩ := hi.peek
  refine (safe_bind_of_ok hpeek).2 ?_
  refine (hi.safe_quiet (safe_setValue hi.sound hx)).bind ?_
  rintro L' _ s' - ⟨e, -⟩
  refine (hi.evolves e).safe_next ?_
  rw [congrArg Registers.control e.registers]
  exact hnext.grows e.grows

end

/-! ## Calls -/

/-- The arguments and the callee are taken off the stack. What is found there at the return is what
    the code after the call expects. -/
theorem safe_ap {argc : Nat} {st : List Slot}
    (hi : Inside n L rest K env (List.replicate (argc + 1) .value ++ st) s)
    (hnext : L.Code s.image.heap K.base env (.value :: st) K.context k)
    (ho : L.Operands s.image.heap [v] s.machine.control k) (hv : v.count? = some argc) :
    Safe (Goes n rest) L (Machine.execute .ap) s fun L' flow s' =>
      Continues n rest K L' flow s' ∧ L'.Enters s argc s' := by
  refine safe_operandIndex_bind ho hv fun c ho => ?_
  obtain rfl := ho.nil_inv
  exact safe_call (hi.setControl c) hnext nofun

/-- After a tail call nothing but a return would follow, so the callee may return instead. -/
theorem safe_tap {argc : Nat} {st : List Slot}
    (hi : Inside n L rest K env (List.replicate (argc + 1) .value ++ st) s)
    (hnext : L.Code s.image.heap K.base env (.value :: st) K.context k)
    (hreturns : L.Returns s.image.heap k)
    (ho : L.Operands s.image.heap [v] s.machine.control k) (hv : v.count? = some argc) :
    Safe (Goes n rest) L (Machine.execute .tap) s fun L' flow s' =>
      Continues n rest K L' flow s' ∧ L'.Enters s argc s' := by
  refine safe_operandIndex_bind ho hv fun c ho => ?_
  obtain rfl := ho.nil_inv
  exact safe_call (hi.setControl c) hnext fun _ => hreturns

/-- The number of arguments fits the primitive, as the code says. -/
theorem safe_callp {argc : Nat} {st : List Slot} {p : PrimitiveId}
    (hi : Inside n L rest K env (List.replicate argc .value ++ st) s)
    (hnext : L.Code s.image.heap K.base env (.value :: st) K.context k)
    (ho : L.Operands s.image.heap [.primitive p, v] s.machine.control k)
    (hv : v.count? = some argc) :
    Safe (Goes n rest) L (Machine.execute .callp) s (Continues n rest K) := by
  refine safe_operand_bind ho fun c ho => ?_
  refine safe_operandIndex_bind ho hv fun c' ho => ?_
  obtain rfl := ho.nil_inv
  have hi := (hi.setControl c).setControl c'
  exact hi.safe_yields hnext (safe_callPrimitive hi hnext)

/-! ## Recursive calls -/

/-- A dummy frame in front of the environment. -/
theorem safe_dum {f : FunctionId} {c' : Value} {m : Nat} (hi : Inside n L rest K env st s)
    (ho : L.Operands s.image.heap [v] s.machine.control c') (hv : v.count? = some m)
    (hload : L.Instr s.image.heap .ldf [.function f] c' k) (hf : L.shape f = some (⟨m, false⟩ :: env))
    (hnext : L.Code s.image.heap K.base (⟨m, false⟩ :: env) (.pending m :: st) K.context k) :
    Safe (Goes n rest) L (Machine.execute .dum) s (Continues n rest K) := by
  refine safe_operandIndex_bind ho hv fun c ho => ?_
  obtain rfl := ho.nil_inv
  have hi := hi.setControl c
  refine (hi.safe_quiet (safe_heap hi.sound (safe_allocDummyFrame hi.sound.fits))).bind ?_
  rintro L₁ frame s₁ - ⟨e₁, hslots, hindex, hdummy⟩
  have hi₁ := hi.evolves e₁
  refine safe_view_bind.2 ((hi₁.safe_quiet (safe_heap hi₁.sound
    (safe_cons_frame (m := ⟨m, false⟩) hi₁.sound.fits hslots hi₁.isEnv))).bind ?_)
  rintro L₂ env₂ s₂ - ⟨e₂, henv₂, id, rfl, hcar⟩
  have hi₂ := hi₁.evolves e₂
  have e := Evolution.trans e₁ e₂
  obtain ⟨vs, fs, hop, hstack, hd⟩ := hi.operands
  -- The dummy frame is the latest one, so it comes after all others that wait for their values.
  have hd₂ : Dummies n s₂.image.heap ((frame, m) :: (fs ++ K.frames)) := by
    have hold := (hd.grows e.grows)
    refine ⟨List.pairwise_cons.2 ⟨fun p hp => ?_, hold.ordered⟩, ?_⟩
    · rw [hindex]
      exact (hd.dummy p hp).2.valid
    · intro p hp
      rcases List.mem_cons.1 hp with rfl | hp
      · refine ⟨hindex ▸ hi.around, e₂.grows.dummies _ _ hdummy.valid hdummy⟩
      · exact hold.dummy p hp
  have hstack₂ : s₂.machine.stack.items = vs ++ K.operands := by
    rw [congrArg Registers.stack e.registers, hstack]
  have hcontrol : s₂.machine.control = c := by
    rw [congrArg Registers.control e.registers]
  have hi₃ : Inside n L₂ rest K (⟨m, false⟩ :: env) st { s₂ with machine.env := .pair id } :=
    ⟨hi₂.sound.registers rfl, hi₂.around, hi₂.valid, henv₂, hi₂.operands, hi₂.dump, hi₂.exits,
      hi₂.bindings⟩
  refine ⟨L₂, ⟨.refl n L₂ _, hi₃.sound, fun h => h, K.saved, hi₃.bindings.symm⟩, K, .inl (List.suffix_refl K), ?_⟩
  -- Now the environment has the frame, and the function that is to fill it is loaded next.
  have hl : Loading n L₂ rest K env st m { s₂ with machine.env := .pair id } :=
    ⟨hi₃, id, frame, vs, fs, rfl, hcar, hop.grows e.grows, hstack₂, hd₂⟩
  refine .load hl ?_ (e.grows.within.shape _ _ hf) (hnext.grows e.grows)
  change L₂.Instr s₂.image.heap .ldf [.function f] s₂.machine.control k
  rw [hcontrol]
  exact hload.grows e.grows (by decide)

/-- The closure over a dummy frame. -/
theorem safe_load {f : FunctionId} {m : Nat} (hl : Loading n L rest K env st m s)
    (ho : L.Operands s.image.heap [.function f] s.machine.control k)
    (hf : L.shape f = some (⟨m, false⟩ :: env))
    (hnext : L.Code s.image.heap K.base (⟨m, false⟩ :: env) (.pending m :: st) K.context k) :
    Safe (Goes n rest) L (Machine.execute .ldf) s (Continues n rest K) := by
  obtain ⟨e, frame, vs, fs, henv, hcar, hop, hstack, hd⟩ := hl.pending
  refine safe_operand_bind ho fun c ho => ?_
  obtain rfl := ho.nil_inv
  have hi := hl.inside.setControl c
  refine safe_view_bind.2
    ((hi.safe_quiet (safe_heap hi.sound (safe_alloc_own hi.sound.fits rfl))).bind ?_)
  rintro L' id s' - ⟨g, hown, hfunction, hcdr⟩
  have hi' := hi.evolves g
  -- The environment and its frame have been made by the instruction before, and are still there.
  have howne : L.own e := by
    have hisEnv := hl.inside.isEnv
    rw [henv] at hisEnv
    cases hisEnv
    assumption
  have hcar' : s'.image.heap.car e = .frame frame := by
    rw [g.grows.car_eq howne (by rw [hcar]; nofun), hcar]
  have hisEnv : L'.IsEnv s'.image.heap (⟨m, false⟩ :: env) (.pair e) := by
    have := hl.inside.isEnv.grows g.grows
    rwa [henv] at this
  have hcontrol : s'.machine.control = c := congrArg Registers.control g.registers
  -- The closure is not a value yet: it is pending until its frame is filled.
  have hi'' := hi'.setStack (.pending m :: st) (s'.machine.stack.push (.closure id))
    ⟨.closure id :: vs, (frame, m) :: fs,
      .pending hown hfunction (g.grows.within.shape _ _ hf) (hcdr.trans henv) hisEnv hcar'
        (hop.grows g.grows),
      by simp [congrArg Registers.stack g.registers, hstack], hd.grows g.grows⟩
  refine ⟨L', ⟨.refl n L' _, hi''.sound, fun h => h, K.saved, hi''.bindings.symm⟩, K, .inl (List.suffix_refl K),
    .code hi'' ?_⟩
  change L'.Code s'.image.heap _ _ _ _ s'.machine.control
  rw [hcontrol]
  exact hnext.grows g.grows

/-- An action on the heap that fills no frames of the runs around. -/
theorem safe_heap_goes {α : Type} {x : HeapM α} {post : Layout → α → Heap → Prop} (hs : Sound L s)
    (hrest : rest <:+ s.machine.bindings.items) (hx : Safe (Extends n) L x s.image.heap post) :
    Safe (Goes n rest) L (liftM x : LispM α) s fun L' a s' =>
      ∃ h, s' = { s with image.heap := h } ∧ Extends n L s.image.heap L' h ∧ post L' a h := by
  unfold Safe
  rw [leads_heap]
  refine Leads.mono hx ?_ ?_
  · rintro a h ⟨L', e, hp⟩
    exact ⟨L', ⟨e.grows, hs.heap e, fun hi => hi.grows e.grows rfl rfl, hrest⟩, h, rfl, e, hp⟩
  · rintro f h ⟨hf, L', e⟩
    exact ⟨hf, L', e.grows, hs.heap e, fun hi => hi.grows e.grows rfl rfl, hrest⟩

/-- The pending closure on top of the stack. -/
theorem Inside.popPending {m : Nat} (hi : Inside n L rest K env (.pending m :: st) s) :
    ∃ id e g frame sh vs fs, (∃ stack, Machine.pop s = .ok (.closure id) { s with machine.stack := stack } ∧
        stack.items = vs ++ K.operands) ∧
      s.image.heap.car id = .function g ∧ s.image.heap.cdr id = .pair e ∧
      s.image.heap.car e = .frame frame ∧ L.shape g = some (⟨m, false⟩ :: sh) ∧
      L.IsEnv s.image.heap (⟨m, false⟩ :: sh) (.pair e) ∧ Operate L s.image.heap st vs fs ∧
      Dummies n s.image.heap ((frame, m) :: (fs ++ K.frames)) := by
  obtain ⟨_, _, hop, hstack, hd⟩ := hi.operands
  obtain _ | _ | @⟨_, id, e, vs, fs, _, sh, g, frame, hown, hfunction, hshape, hcdr, hisEnv, hcar, hop⟩ := hop
  obtain ⟨stack, hpop, hitems⟩ := Stack.pop?_of_items hstack
  refine ⟨id, e, g, frame, sh, vs, fs, ⟨stack, ?_, hitems⟩, hfunction, hcdr, hcar, hshape, hisEnv,
    hop, hd⟩
  simp only [Machine.pop, hpop]

/-- A recursive call fills the frame of its pending closure. -/
theorem safe_applyRecursive {m : Nat} {st : List Slot}
    (hi : Inside n L rest K (⟨m, false⟩ :: env) (List.replicate m .value ++ .pending m :: st) s)
    (hnext : L.Code s.image.heap K.base env (.value :: st) K.context s.machine.control) :
    Safe (Goes n rest) L (applyRecursive m) s fun L' _ s' => Continues n rest K L' .next s' := by
  refine (hi.safe_moves hi.safe_popMany).bind ?_
  rintro L args s₁ - ⟨m₁, rfl, hlen, hargs, hi₁⟩
  obtain ⟨id, e, g, frame, sh, vs, fs, ⟨stack, hpop, hstack⟩, hfunction, hcdr, hcar, hshape, hisEnv,
    hop, hd⟩ := hi₁.popPending
  subst hlen
  refine safe_bind_of_step hpop ⟨.refl n L _, hi₁.sound.registers rfl, fun h => h, K.saved, hi₁.bindings.symm⟩ ?_
  have hparts : closureParts id { s₁ with machine.stack := stack } =
      .ok (g, .pair e) { s₁ with machine.stack := stack } := by
    simp [closureParts, bind, EStateM.bind, asks, hfunction, hcdr, pure, EStateM.pure]
  have hhead : query (·.heap.head (.pair e)) { s₁ with machine.stack := stack } =
      .ok (.frame frame) { s₁ with machine.stack := stack } := by
    simp [query, Heap.head, hcar]
  refine (safe_bind_of_ok hparts).2 ?_
  refine (safe_bind_of_ok hhead).2 ?_
  obtain ⟨hn, hdummy⟩ : n ≤ frame.index ∧ s₁.image.heap.Dummy frame args.length :=
    hd.dummy _ List.mem_cons_self
  refine (safe_heap_goes (s := { s₁ with machine.stack := stack }) (hi₁.sound.registers rfl) ⟨K.saved, hi₁.bindings.symm⟩
    (safe_fillFrame hi₁.sound.fits hdummy hn hargs)).bind ?_
  rintro L' _ _ - ⟨h, rfl, x, hothers⟩
  -- The other frames still to be filled come before this one.
  have hd' : Dummies n h (fs ++ K.frames) := by
    obtain ⟨hbefore, hordered⟩ := List.pairwise_cons.1 hd.ordered
    refine ⟨hordered, fun p hp => ⟨(hd.dummy p (List.mem_cons_of_mem _ hp)).1, ?_⟩⟩
    refine hothers _ _ (fun heq => ?_) (hd.dummy p (List.mem_cons_of_mem _ hp)).2
    exact Nat.lt_irrefl frame.index (heq ▸ hbefore p hp)
  obtain ⟨-, hbody⟩ := (hi₁.sound.heap x).code (x.grows.within.shape _ _ hshape)
  have henv := hi₁.isEnv.grows x.grows
  generalize hmenv : s₁.machine.env = menv at henv
  obtain _ | @⟨outer, _, _, _, hown, _, _, houter⟩ := henv
  simp only [safe_asks_bind, safe_view_bind]
  have htail : query (·.heap.tail s₁.machine.env)
      { s₁ with machine.stack := stack, image.heap := h } =
      .ok (h.cdr outer) { s₁ with machine.stack := stack, image.heap := h } := by
    simp [query, hmenv, Heap.tail]
  refine (safe_bind_of_ok htail).2 ?_
  have hi₂ : Inside n L' rest K env st
      { s₁ with machine := { s₁.machine with stack, env := h.cdr outer }, image.heap := h } :=
    ⟨(hi₁.sound.heap x).registers rfl, Nat.le_trans hi₁.around x.grows.frames,
      hi₁.valid.grows x.grows, houter, ⟨vs, fs, hop.grows x.grows, hstack, hd'⟩, hi₁.dump, hi₁.exits,
      hi₁.bindings⟩
  have hcode : L'.Code h K.base env (.value :: st) K.context s₁.machine.control := by
    rw [m₁.control]
    exact (hnext.grows m₁.grows).grows x.grows
  refine ⟨L', ⟨.refl n L' _, hi₂.sound.registers rfl, fun h => h, K.saved, hi₁.bindings.symm⟩, ?_⟩
  exact hi₂.enterCall hcode houter (hisEnv.grows x.grows) hbody rfl rfl rfl rfl rfl rfl

/-- Under the values there is the closure, and its environment begins with the dummy frame that
    `DUM` made for as many values. -/
theorem safe_rap {m : Nat} {st : List Slot}
    (hi : Inside n L rest K (⟨m, false⟩ :: env) (List.replicate m .value ++ .pending m :: st) s)
    (hnext : L.Code s.image.heap K.base env (.value :: st) K.context k)
    (ho : L.Operands s.image.heap [v] s.machine.control k) (hv : v.count? = some m) :
    Safe (Goes n rest) L (Machine.execute .rap) s (Continues n rest K) := by
  refine safe_operandIndex_bind ho hv fun c ho => ?_
  obtain rfl := ho.nil_inv
  refine (safe_applyRecursive (hi.setControl c) hnext).bind fun L' _ s' g hgo => ?_
  exact Safe.pure (Evolution.refl g) hgo

/-! ## Ends of levels -/

/-- Operands on top of other ones. -/
theorem Operate.append {h : Heap} {st st' : List Slot} {vs vs' : List Value}
    {fs fs' : List (FrameId × Nat)} (ho : Operate L h st vs fs) (ho' : Operate L h st' vs' fs') :
    Operate L h (st ++ st') (vs ++ vs') (fs ++ fs') := by
  induction ho with
  | nil => exact ho'
  | value visible _ ih => exact .value visible ih
  | pending own function shape environment isEnv car _ ih =>
    exact .pending own function shape environment isEnv car ih

/-- Leaving the innermost level: its operands are those of the code again. -/
theorem Inside.leave {l : Level} {s' : Interpreter} {env' : List FrameShape}
    (hi : Inside n L rest (l :: K) env st s)
    (hs : Sound L s') (hheap : s'.image.heap = s.image.heap)
    (hstack : s'.machine.stack = s.machine.stack)
    (henv : L.IsEnv s.image.heap env' s'.machine.env)
    (hdump : s'.machine.dump.items = K.dump rest.length)
    (hexits : s'.machine.exits.items = K.exits rest.length)
    (hbindings : s'.machine.bindings.items = K.saved ++ rest) :
    Inside n L rest K env' (st ++ l.below) s' := by
  obtain ⟨vs, fs, ho, hitems, hd⟩ := hi.operands
  refine ⟨hs, hheap ▸ hi.around, hheap ▸ hi.valid.2, hheap ▸ henv, ⟨vs ++ l.values, fs ++ l.frames,
    ?_, ?_, ?_⟩, hdump, hexits, hbindings⟩
  · rw [hheap]
    exact ho.append hi.valid.1.operands
  · rw [hstack, hitems, List.append_assoc]
    rfl
  · rw [hheap, List.append_assoc]
    exact hd

/-- Going on after a level. -/
theorem Inside.continues {l : Level} {s' : Interpreter}
    (hi : Inside n L rest K l.env (.value :: l.below) s')
    (hcode : L.Code s'.image.heap K.base l.env (.value :: l.below) K.context s'.machine.control) :
    Continues n rest (l :: K) L .next s' :=
  ⟨K, .inl (List.suffix_cons l K), .code hi hcode⟩

/-- A function ends at its outermost level, with one value. -/
theorem safe_rtn {K : Trail} (hi : Inside n L rest K env [.value] s) (hcontext : K.context = [])
    (hbase : K.base = .function) :
    Safe (Goes n rest) L (Machine.execute .rtn) s (Continues n rest K) := by
  obtain ⟨l, K, rfl, hl⟩ := Trail.eq_call hcontext hbase
  have hitems : s.machine.dump.items =
      .call l.outer l.next (K.exits rest.length).length :: K.dump rest.length := by
    rw [hi.dump]
    simp [Trail.dump, hl]
  have hexits : s.machine.exits.items = K.exits rest.length := by
    rw [hi.exits]
    simp [Trail.exits, hl]
  have hbindings : s.machine.bindings.items = K.saved ++ rest := by
    rw [hi.bindings]
    simp [Trail.saved, hl]
  -- The function returns to the level below, which has the same exits and bindings as at the call.
  obtain ⟨dump, hpop, hdump⟩ := Stack.pop?_of_items hitems
  have hx : returnToCaller s = .ok () { s with
      machine := { s.machine with
        dump
        env := l.outer
        control := l.next
        exits := s.machine.exits.truncate (K.exits rest.length).length } } := by
    simp only [returnToCaller, bind, EStateM.bind, view, hpop]
    rfl
  have hi' := hi.leave (hi.sound.registers (m := { s.machine with
      dump
      env := l.outer
      control := l.next
      exits := s.machine.exits.truncate (K.exits rest.length).length }) rfl) rfl rfl
    hi.valid.1.outer hdump (Stack.items_truncate (hexits ▸ List.suffix_refl _)) hbindings
  refine safe_bind_of_step hx ⟨.refl n L _, hi'.sound, fun h => h, K.saved, hbindings.symm⟩ ?_
  exact Safe.pure hi'.goes (hi'.continues hi.valid.1.code)

/-- An arm ends at its own level, with one value, and goes on where the branch does. -/
theorem safe_join {K : Trail} {next : Value} {ctx : List Item}
    (hi : Inside n L rest K env [.value] s)
    (hcontext : K.context = ⟨.join, env, st, next⟩ :: ctx) :
    Safe (Goes n rest) L (Machine.execute .join) s (Continues n rest K) := by
  obtain ⟨l, K, rfl, hkind, rfl, rfl, rfl, rfl, -⟩ := Trail.context_eq_cons hcontext
  have hl : l.kind = .join := by
    cases hk : l.kind <;> simp [hk, LevelKind.construct?] at hkind
    rfl
  have hitems : s.machine.dump.items = .join l.next :: K.dump rest.length := by
    rw [hi.dump]
    simp [Trail.dump, hl]
  have hexits : s.machine.exits.items = K.exits rest.length := by
    rw [hi.exits]
    simp [Trail.exits, hl]
  have hbindings : s.machine.bindings.items = K.saved ++ rest := by
    rw [hi.bindings]
    simp [Trail.saved, hl]
  obtain ⟨dump, hpop, hdump⟩ := Stack.pop?_of_items hitems
  -- The entry of the branch is on top of the dump, so `JOIN` finds it and goes on behind the
  -- branch.
  have hx : join s = .ok () { s with machine := { s.machine with dump, control := l.next } } := by
    simp only [join, bind, EStateM.bind, view, hpop]
    rfl
  have hi' := hi.leave (hi.sound.registers (m := { s.machine with dump, control := l.next }) rfl) rfl
    rfl hi.isEnv hdump hexits hbindings
  refine safe_bind_of_step hx ⟨.refl n L _, hi'.sound, fun h => h, K.saved, hbindings.symm⟩ ?_
  exact Safe.pure hi'.goes (hi'.continues hi.valid.1.code)

/-- The innermost binding is that of the level that ends. -/
theorem safe_unbind {K : Trail} {name : SymbolId} {ctx : List Item}
    (hi : Inside n L rest K env [.value] s)
    (ho : L.Operands s.image.heap [.symbol name] s.machine.control k)
    (hcontext : K.context = ⟨.bind name, env, st, k⟩ :: ctx) :
    Safe (Goes n rest) L (Machine.execute .unbind) s (Continues n rest K) := by
  obtain ⟨l, K, rfl, hkind, rfl, rfl, rfl, rfl, -⟩ := Trail.context_eq_cons hcontext
  obtain ⟨value, hl⟩ : ∃ value, l.kind = .bind name value := by
    cases hk : l.kind <;> simp [hk, LevelKind.construct?] at hkind
    exact ⟨_, by rw [hkind]⟩
  refine safe_operandSymbol_bind ho fun c ho => ?_
  obtain rfl := ho.nil_inv
  have hi := hi.setControl l.next
  have hitems : s.machine.bindings.items = ⟨name, value⟩ :: (K.saved ++ rest) := by
    rw [hi.bindings]
    simp [Trail.saved, hl]
  obtain ⟨bindings, hpop, hbindings⟩ := Stack.pop?_of_items hitems
  -- The value saved last is that of the symbol named, so it is restored.
  have hx : unbindSpecial name { s with machine.control := l.next } = .ok () { s with
      image.symbols := s.image.symbols.restoreAll [⟨name, value⟩]
      machine := { s.machine with control := l.next, bindings } } := by
    simp only [unbindSpecial, bind, EStateM.bind, view, hpop, modifyMachine_apply, if_true, restore_eq]
  have hsound : Sound L { s with
      image.symbols := s.image.symbols.restoreAll [⟨name, value⟩]
      machine := { s.machine with control := l.next, bindings } } :=
    hi.sound.unwind (hitems : _ = [_] ++ (K.saved ++ rest)) hbindings
  have hi' := hi.leave hsound rfl rfl hi.isEnv (by rw [hi.dump]; simp [Trail.dump, hl])
    (by rw [hi.exits]; simp [Trail.exits, hl]) hbindings
  refine safe_bind_of_step hx ⟨.refl n L _, hsound, fun hi => hi.of_eq rfl rfl rfl, K.saved, hbindings.symm⟩ ?_
  exact Safe.pure hi'.goes (hi'.continues hi.valid.1.code)

/-- So is the innermost exit. -/
theorem safe_blockend {K : Trail} {name : Value} {ctx : List Item}
    (hi : Inside n L rest K env [.value] s)
    (ho : L.Operands s.image.heap [name] s.machine.control k)
    (hcontext : K.context = ⟨.block name, env, st, k⟩ :: ctx) :
    Safe (Goes n rest) L (Machine.execute .blockend) s (Continues n rest K) := by
  obtain ⟨l, K, rfl, hkind, rfl, rfl, rfl, rfl, -⟩ := Trail.context_eq_cons hcontext
  have hl : l.kind = .block name := by
    cases hk : l.kind <;> simp [hk, LevelKind.construct?] at hkind
    rw [hkind]
  refine safe_operand_bind ho fun c ho => ?_
  obtain rfl := ho.nil_inv
  have hi := hi.setControl l.next
  have hitems : s.machine.exits.items =
      .block name (Trail.operands (l :: K)).length l.outer :: K.exits rest.length := by
    rw [hi.exits]
    simp [Trail.exits, hl]
  have hbindings : s.machine.bindings.items = K.saved ++ rest := by
    rw [hi.bindings]
    simp [Trail.saved, hl]
  obtain ⟨exits, hpop, hexits⟩ := Stack.pop?_of_items hitems
  -- The record on top of the exits is that of the block named, so it is taken off.
  have hx : endBlock name { s with machine.control := l.next } = .ok () { s with
      machine := { s.machine with control := l.next, exits } } := by
    simp only [endBlock, bind, EStateM.bind, view, hpop, if_true]
    rfl
  have hi' := hi.leave (hi.sound.registers (m := { s.machine with control := l.next, exits }) rfl)
    rfl rfl hi.isEnv (by rw [hi.dump]; simp [Trail.dump, hl]) hexits hbindings
  refine safe_bind_of_step hx ⟨.refl n L _, hi'.sound, fun h => h, K.saved, hbindings.symm⟩ ?_
  exact Safe.pure hi'.goes (hi'.continues hi.valid.1.code)

/-- Here too, and nothing is left on the stack of the level. -/
theorem safe_tagend {K : Trail} {id : SymbolId} {ctx : List Item}
    (hi : Inside n L rest K env [] s) (ho : L.Operands s.image.heap [] s.machine.control k)
    (hcontext : K.context = ⟨.tagbody id, env, st, k⟩ :: ctx) :
    Safe (Goes n rest) L (Machine.execute .tagend) s (Continues n rest K) := by
  obtain ⟨l, K, rfl, hkind, rfl, rfl, rfl, rfl, -⟩ := Trail.context_eq_cons hcontext
  obtain ⟨table, hl⟩ : ∃ table, l.kind = .tagbody id table := by
    cases hk : l.kind <;> simp [hk, LevelKind.construct?] at hkind
    exact ⟨_, by rw [hkind]⟩
  have hitems : s.machine.exits.items = .tagbody (.symbol id) table l.outer K.depth
      (Trail.operands (l :: K)).length (K.saved.length + rest.length) :: K.exits rest.length := by
    rw [hi.exits]
    simp [Trail.exits, hl]
  have hbindings : s.machine.bindings.items = K.saved ++ rest := by
    rw [hi.bindings]
    simp [Trail.saved, hl]
  obtain ⟨exits, hpop, hexits⟩ := Stack.pop?_of_items hitems
  -- The record of the tagbody is on top of the exits; its value is `nil`.
  have hx : endTagbody s = .ok () { s with machine.exits := exits } := by
    simp only [endTagbody, bind, EStateM.bind, view, hpop]
    rfl
  have hi' := hi.leave (hi.sound.registers (m := { s.machine with exits }) rfl) rfl rfl hi.isEnv
    (by rw [hi.dump]; simp [Trail.dump, hl]) hexits hbindings
  have hi'' := hi'.push (v := .nil) trivial
  refine safe_bind_of_step hx ⟨.refl n L _, hi'.sound, fun h => h, K.saved, hbindings.symm⟩ ?_
  refine ⟨L, ⟨.refl n L _, hi''.sound, fun h => h, K.saved, hbindings.symm⟩, hi''.continues ?_⟩
  change L.Code s.image.heap _ _ _ _ s.machine.control
  rw [ho.nil_inv]
  exact hi.valid.1.code

/-! ## Branches and constructs -/

/-- The arms are levels of their own, which end by `JOIN`. -/
theorem safe_sel {x y : Value} (hi : Inside n L rest K env (.value :: st) s)
    (ho : L.Operands s.image.heap [x, y] s.machine.control k)
    (hyes : L.Code s.image.heap K.base env [] (⟨.join, env, st, k⟩ :: K.context) x)
    (hno : L.Code s.image.heap K.base env [] (⟨.join, env, st, k⟩ :: K.context) y)
    (hnext : L.Code s.image.heap K.base env (.value :: st) K.context k) :
    Safe (Goes n rest) L (Machine.execute .sel) s (Continues n rest K) := by
  refine (hi.safe_moves hi.safe_pop).bind ?_
  rintro L test s₁ - ⟨m, rfl, -, hi₁⟩
  have ho₁ := ho.grows m.grows
  rw [← m.control] at ho₁
  refine safe_operand_bind ho₁ fun c ho => ?_
  refine safe_operand_bind ho fun c' ho => ?_
  obtain rfl := ho.nil_inv
  have hi₂ := (hi₁.setControl c).setControl c'
  -- The arm that is chosen is run in a new level, which ends with the join to the code after the
  -- branch.
  obtain ⟨l, hl, henv, hbelow, hlnext, hi'⟩ := hi₂.enter .join s₁.machine.env env { s₁ with machine := { s₁.machine with
      dump := s₁.machine.dump.push (.join c')
      maxDumpDepth := max s₁.machine.maxDumpDepth (s₁.machine.dump.push (.join c')).height
      control := if test.isTrue then x else y } }
    (hnext.grows m.grows) hi₂.isEnv (fun _ _ _ _ _ _ _ h => by cases h) (hi₁.sound.registers rfl) rfl
    rfl hi₁.isEnv fun l hl hnext' _ _ => by
      refine ⟨?_, ?_, ?_⟩
      · simp [Trail.dump, hl, hnext', hi₁.dump]
      · simp [Trail.exits, hl, hi₁.exits]
      · simp [Trail.saved, hl, hi₁.bindings]
  refine ⟨L, ⟨.refl n L _, hi'.sound, fun h => h, hi'.goes.bindings⟩, l :: K, .inr ⟨l, rfl⟩, .code hi' ?_⟩
  have hbranch : L.Code s₁.image.heap K.base env [] (⟨.join, env, st, c'⟩ :: K.context)
      (if test.isTrue then x else y) := by
    split
    · exact hyes.grows m.grows
    · exact hno.grows m.grows
  simpa [Trail.base, Trail.context, hl, LevelKind.construct?, henv, hbelow, hlnext] using hbranch

/-- In tail position the arms go on as the whole form would have done. -/
theorem safe_tsel {x y : Value} (hi : Inside n L rest K env (.value :: st) s)
    (ho : L.Operands s.image.heap [x, y] s.machine.control k)
    (hyes : L.Code s.image.heap K.base env st K.context x)
    (hno : L.Code s.image.heap K.base env st K.context y) :
    Safe (Goes n rest) L (Machine.execute .tsel) s (Continues n rest K) := by
  refine (hi.safe_moves hi.safe_pop).bind ?_
  rintro L test s₁ - ⟨m, rfl, -, hi₁⟩
  have ho₁ := ho.grows m.grows
  rw [← m.control] at ho₁
  refine safe_operand_bind ho₁ fun c ho => ?_
  refine safe_operand_bind ho fun c' ho => ?_
  have hi₂ := hi₁.setControl (if test.isTrue then x else y)
  refine ⟨L, ⟨.refl n L _, hi₂.sound, fun h => h, hi₂.goes.bindings⟩, K, .inl (List.suffix_refl K), .code hi₂ ?_⟩
  change L.Code s₁.image.heap _ _ _ _ (if test.isTrue then x else y)
  split
  · exact hyes.grows m.grows
  · exact hno.grows m.grows

theorem safe_popValue (hi : Inside n L rest K env (.value :: st) s)
    (hnext : L.Code s.image.heap K.base env st K.context s.machine.control) :
    Safe (Goes n rest) L (Machine.execute .pop) s (Continues n rest K) := by
  refine (hi.safe_moves hi.safe_pop).bind ?_
  rintro L _ s₁ - ⟨m, rfl, -, hi₁⟩
  refine hi₁.safe_next ?_
  rw [m.control]
  exact hnext.grows m.grows

/-- Code inside a construct that has just been entered. -/
theorem Inside.continues_within {l : Level} {c : Construct} {k : Value} {s' : Interpreter}
    (hi : Inside n L rest (l :: K) env [] s') (hl : l.kind.construct? = some c) (henv : l.env = env)
    (hbelow : l.below = st) (hnext : l.next = k)
    (hbody : L.Code s'.image.heap K.base env [] (⟨c, env, st, k⟩ :: K.context) s'.machine.control) :
    Continues n rest K L .next s' := by
  refine ⟨l :: K, .inr ⟨l, rfl⟩, .code hi ?_⟩
  have hbase : Trail.base (l :: K) = K.base := by
    cases hk : l.kind <;> simp [hk, LevelKind.construct?] at hl <;> simp [Trail.base, hk]
  simpa [Trail.context, hl, henv, hbelow, hnext, hbase] using hbody

/-- The body is a level of its own, after which the code goes on at `next`. -/
theorem safe_bindSpecial {name : SymbolId} {next : Value}
    (hi : Inside n L rest K env (.value :: st) s)
    (ho : L.Operands s.image.heap [.symbol name] s.machine.control k)
    (hspecial : L.symbols.isSpecial name)
    (hbody : L.Code s.image.heap K.base env [] (⟨.bind name, env, st, next⟩ :: K.context) k)
    (hafter : L.Code s.image.heap K.base env (.value :: st) K.context next) :
    Safe (Goes n rest) L (Machine.execute .bind) s (Continues n rest K) := by
  refine safe_operandSymbol_bind ho fun c ho => ?_
  obtain rfl := ho.nil_inv
  have hi := hi.setControl c
  refine (hi.safe_moves hi.safe_pop).bind ?_
  rintro L v s₁ - ⟨m, rfl, hv, hi₁⟩
  let symbols := (s₁.image.symbols.restoreValue name (some v)).enterBinding name
  let saved := (s₁.image.symbols.get name).value
  let s₂ : Interpreter := { s₁ with
    image.symbols := symbols
    machine.bindings := s₁.machine.bindings.push ⟨name, saved⟩ }
  have hx : bindSpecial name v s₁ = .ok () s₂ := rfl
  -- A special variable is no constant, so it can be set; its old value was data, and so is the new
  -- one.
  have hsound : Sound L s₂ := by
    have hspecial₁ := hi₁.sound.symbols.isSpecial hspecial
    have hsame : (s₁.image.symbols.get name).Keeps
        { s₁.image.symbols.get name with value := some v } := ⟨rfl, rfl, rfl, fun h => h⟩
    have hs₁ := hi₁.sound.modifySymbol (fun x => { x with value := some v })
      (hi₁.sound.consistent.notConstant hspecial₁) (fun w hw => by cases hw; exact hv)
      (hi₁.sound.cells name) hsame rfl
    exact hs₁.enterBinding ((SymbolTable.Keeps.modify hsame).isSpecial hspecial₁)
      (hi₁.sound.values name)
  -- The new level has kept the old value, just as the bindings have.
  obtain ⟨l, hl, henv, hbelow, hnext, hi'⟩ := hi₁.enter (.bind name saved)
    s₁.machine.env env s₂ (hafter.grows m.grows) hi₁.isEnv
    (fun _ _ _ _ _ _ _ h => by cases h) hsound rfl rfl hi₁.isEnv fun l hl _ _ _ => by
      refine ⟨?_, ?_, ?_⟩
      · simp [Trail.dump, hl, hi₁.dump, s₂]
      · simp [Trail.exits, hl, hi₁.exits, s₂]
      · simp [Trail.saved, hl, hi₁.bindings, s₂]
  refine safe_bind_of_step hx ⟨.refl n L _, hsound, fun hi => hi.of_eq rfl rfl rfl, hi'.goes.bindings⟩ ?_
  refine Safe.pure hi'.goes (hi'.continues_within (by rw [hl]; rfl) henv hbelow hnext ?_)
  change L.Code s₁.image.heap _ _ _ _ s₁.machine.control
  rw [m.control]
  exact hbody.grows m.grows

/-- The same for a block. -/
theorem safe_block {name next : Value} (hi : Inside n L rest K env st s)
    (ho : L.Operands s.image.heap [name] s.machine.control k)
    (hbody : L.Code s.image.heap K.base env [] (⟨.block name, env, st, next⟩ :: K.context) k)
    (hafter : L.Code s.image.heap K.base env (.value :: st) K.context next) :
    Safe (Goes n rest) L (Machine.execute .block) s (Continues n rest K) := by
  refine safe_operand_bind ho fun c ho => ?_
  obtain rfl := ho.nil_inv
  have hi := hi.setControl c
  -- A level for the block is opened: its record has the height of the stack and the environment.
  obtain ⟨l, hl, henv, hbelow, hnext, hi'⟩ := hi.enter (.block name)
    s.machine.env env { s with machine := { s.machine with
      control := c
      exits := s.machine.exits.push (.block name s.machine.stack.height s.machine.env) } }
    hafter hi.isEnv (fun _ _ _ _ _ _ _ h => by cases h) (hi.sound.registers rfl) rfl rfl hi.isEnv
    fun l hl _ houter hitems => by
      refine ⟨?_, ?_, ?_⟩
      · simpa [Trail.dump, hl] using hi.dump
      · have hheight := s.machine.stack.height_eq
        rw [hitems] at hheight
        simpa [Trail.exits, hl, houter, ← hheight] using hi.exits
      · simpa [Trail.saved, hl] using hi.bindings
  refine safe_bind_of_step (a := ()) rfl ⟨.refl n L _, hi'.sound, fun h => h, hi'.goes.bindings⟩ ?_
  exact Safe.pure hi'.goes (hi'.continues_within (by rw [hl]; rfl) henv hbelow hnext hbody)

/-- The code at every tag is made for the level of the tagbody, with nothing on its stack. -/
theorem safe_tagbody {id : SymbolId} {table next : Value} {entries : List (Value × Value)}
    (hi : Inside n L rest K env st s)
    (ho : L.Operands s.image.heap [.symbol id, table] s.machine.control k)
    (htags : L.tags id = some (entries.map (·.1))) (htable : L.IsTable s.image.heap entries table)
    (htargets : ∀ e ∈ entries,
      L.Code s.image.heap K.base env [] (⟨.tagbody id, env, st, next⟩ :: K.context) e.2)
    (hbody : L.Code s.image.heap K.base env [] (⟨.tagbody id, env, st, next⟩ :: K.context) k)
    (hafter : L.Code s.image.heap K.base env (.value :: st) K.context next) :
    Safe (Goes n rest) L (Machine.execute .tagbody) s (Continues n rest K) := by
  refine safe_operand_bind ho fun c ho => ?_
  refine safe_operand_bind ho fun c' ho => ?_
  obtain rfl := ho.nil_inv
  have hi := (hi.setControl c).setControl c'
  -- The record has the depths of all registers, which are those of the trail.
  obtain ⟨l, hl, henv, hbelow, hnext, hi'⟩ := hi.enter (.tagbody id table)
    s.machine.env env { s with machine := { s.machine with
      control := c'
      exits := s.machine.exits.push (.tagbody (.symbol id) table s.machine.env
        s.machine.dump.height s.machine.stack.height s.machine.bindings.height) } }
    hafter hi.isEnv (fun l hl henv hbelow hnext _ _ heq => by
      cases heq
      refine ⟨entries, htags, htable, fun e he => ?_⟩
      simpa [Trail.base, Trail.context, hl, LevelKind.construct?, henv, hbelow, hnext]
        using htargets e he)
    (hi.sound.registers rfl) rfl rfl hi.isEnv
    fun l hl _ houter hitems => by
      refine ⟨?_, ?_, ?_⟩
      · simpa [Trail.dump, hl] using hi.dump
      · have hheight := s.machine.stack.height_eq
        rw [hitems] at hheight
        have hdump := s.machine.dump.height_eq
        rw [hi.dump, Trail.length_dump] at hdump
        have hbindings := s.machine.bindings.height_eq
        rw [hi.bindings, List.length_append] at hbindings
        simpa [Trail.exits, hl, houter, ← hheight, hdump, hbindings] using hi.exits
      · simpa [Trail.saved, hl] using hi.bindings
  refine safe_bind_of_step (a := ()) rfl ⟨.refl n L _, hi'.sound, fun h => h, hi'.goes.bindings⟩ ?_
  exact Safe.pure hi'.goes (hi'.continues_within (by rw [hl]; rfl) henv hbelow hnext hbody)

/-! ## Exits and the end -/

/-- The way out is a request, and is looked at in `Safety.Exit`. -/
theorem safe_retfrom {name : Value} (hi : Inside n L rest K env (.value :: st) s)
    (ho : L.Operands s.image.heap [name] s.machine.control k)
    (hnext : L.Code s.image.heap K.base env (.value :: st) K.context k) :
    Safe (Goes n rest) L (Machine.execute .retfrom) s (Continues n rest K) := by
  refine safe_operand_bind ho fun c ho => ?_
  obtain rfl := ho.nil_inv
  have hi := hi.setControl c
  refine (hi.safe_moves hi.safe_pop).bind ?_
  rintro L v s₁ - ⟨m, rfl, hv, hi₁⟩
  refine Safe.pure hi₁.goes ⟨K, .inl (List.suffix_refl K), env, st, ⟨hv, hi₁⟩, ?_⟩
  rw [m.control]
  exact hnext.grows m.grows

/-- That a tagbody is no longer active is a fault that programs can bring about. One that is active
    has every tag that its code goes to. -/
theorem safe_go {id : SymbolId} {tag : Value} {ts : List Value} (hi : Inside n L rest K env st s)
    (ho : L.Operands s.image.heap [.symbol id, tag] s.machine.control k)
    (htags : L.tags id = some ts) (hmem : tag ∈ ts) :
    Safe (Goes n rest) L (Machine.execute .go) s (Continues n rest K) := by
  refine safe_operand_bind ho fun c ho => ?_
  refine safe_operand_bind ho fun c' ho => ?_
  refine (safe_goTo ((hi.setControl c).setControl c') htags hmem).bind fun L' _ s' g hgo => ?_
  exact Safe.pure (Evolution.refl g) hgo

/-- At the end of a form its value is the only one of the run. -/
theorem safe_stop {K : Trail} (hi : Inside n L rest K env [.value] s)
    (ho : L.Operands s.image.heap [] s.machine.control .nil) (hcontext : K.context = [])
    (hbase : K.base = .toplevel) :
    Safe (Goes n rest) L (Machine.execute .stop) s (Continues n rest K) := by
  obtain rfl := Trail.eq_nil hcontext hbase
  exact Safe.pure hi.goes ⟨[], .inl (List.suffix_refl _), env, rfl, ho.nil_inv, hi⟩

/-! ## Steps -/

/-- Executing the instruction that code starts with, whose operands are left. -/
theorem safe_execute {c : Value} {code : Opcode} (hr : Runs n L rest K c s)
    (hread : ∀ code' vs k, L.Instr s.image.heap code' vs c k →
      code' = code ∧ L.Operands s.image.heap vs s.machine.control k) :
    Safe (Goes n rest) L (Machine.execute code) s (Continues n rest K) := by
  -- The code says which instruction is next and that its operands are there, and `hread` that this
  -- is the one fetched. What is left is a lemma for each instruction.
  cases hr with
  -- The load of a function that is being made for `letrec` is in order by itself, as its closure is
  -- not a value yet.
  | load loading instr shape next =>
    obtain ⟨rfl, ho⟩ := hread _ _ _ instr
    exact safe_load loading ho shape next
  | @code env st hi hc =>
    -- The base and the context become variables for the case analysis, and are put back in each
    -- case.
    generalize hb : K.base = b, hctx : K.context = ctx at hc
    cases hc with
    | ldc instr visible next =>
      obtain ⟨rfl, ho⟩ := hread _ _ _ instr
      exact safe_ldc hi (hb ▸ hctx ▸ next) ho visible
    | ld instr frame slot size inside next =>
      obtain ⟨rfl, ho⟩ := hread _ _ _ instr
      exact safe_ld hi (hb ▸ hctx ▸ next) ho frame slot size inside
    | ldr instr frame slot size _ next =>
      obtain ⟨rfl, ho⟩ := hread _ _ _ instr
      exact safe_ldr hi (hb ▸ hctx ▸ next) ho frame slot size
    | ldg instr next =>
      obtain ⟨rfl, ho⟩ := hread _ _ _ instr
      exact safe_ldg hi (hb ▸ hctx ▸ next) ho
    | gfn instr next =>
      obtain ⟨rfl, ho⟩ := hread _ _ _ instr
      exact safe_gfn hi (hb ▸ hctx ▸ next) ho
    | setl instr frame slot size inside next =>
      obtain ⟨rfl, ho⟩ := hread _ _ _ instr
      exact safe_setl hi (hb ▸ hctx ▸ next) ho frame slot size inside
    | setlr instr frame slot size last next =>
      obtain ⟨rfl, ho⟩ := hread _ _ _ instr
      exact safe_setlr hi (hb ▸ hctx ▸ next) ho frame slot size (Nat.le_of_eq last.1.symm)
    | setg instr next =>
      obtain ⟨rfl, ho⟩ := hread _ _ _ instr
      exact safe_setg hi (hb ▸ hctx ▸ next) ho
    | ldf instr shape next =>
      obtain ⟨rfl, ho⟩ := hread _ _ _ instr
      exact safe_ldf hi (hb ▸ hctx ▸ next) ho shape
    | ap instr count next =>
      obtain ⟨rfl, ho⟩ := hread _ _ _ instr
      exact (safe_ap hi (hb ▸ hctx ▸ next) ho count).mono fun _ _ _ _ h => h.1
    | tap instr count returns next =>
      obtain ⟨rfl, ho⟩ := hread _ _ _ instr
      exact (safe_tap hi (hb ▸ hctx ▸ next) returns ho count).mono fun _ _ _ _ h => h.1
    | dum instr count load shape next =>
      obtain ⟨rfl, ho⟩ := hread _ _ _ instr
      exact safe_dum hi ho count load shape (hb ▸ hctx ▸ next)
    | rap instr count next =>
      obtain ⟨rfl, ho⟩ := hread _ _ _ instr
      exact safe_rap hi (hb ▸ hctx ▸ next) ho count
    | rtn instr =>
      obtain ⟨rfl, -⟩ := hread _ _ _ instr
      exact safe_rtn hi hctx hb
    | sel instr yes no next =>
      obtain ⟨rfl, ho⟩ := hread _ _ _ instr
      exact safe_sel hi ho (hb ▸ hctx ▸ yes) (hb ▸ hctx ▸ no) (hb ▸ hctx ▸ next)
    | tsel instr yes no _ _ =>
      obtain ⟨rfl, ho⟩ := hread _ _ _ instr
      exact safe_tsel hi ho (hb ▸ hctx ▸ yes) (hb ▸ hctx ▸ no)
    | join instr =>
      obtain ⟨rfl, -⟩ := hread _ _ _ instr
      exact safe_join hi hctx
    | pop instr next =>
      obtain ⟨rfl, ho⟩ := hread _ _ _ instr
      refine safe_popValue hi ?_
      rw [ho.nil_inv, hb, hctx]
      exact next
    | callp instr count next =>
      obtain ⟨rfl, ho⟩ := hread _ _ _ instr
      exact safe_callp hi (hb ▸ hctx ▸ next) ho count
    | bind instr special body after =>
      obtain ⟨rfl, ho⟩ := hread _ _ _ instr
      exact safe_bindSpecial hi ho special (hb ▸ hctx ▸ body) (hb ▸ hctx ▸ after)
    | unbind instr _ =>
      obtain ⟨rfl, ho⟩ := hread _ _ _ instr
      exact safe_unbind hi ho hctx
    | block instr _ body after =>
      obtain ⟨rfl, ho⟩ := hread _ _ _ instr
      exact safe_block hi ho (hb ▸ hctx ▸ body) (hb ▸ hctx ▸ after)
    | blockend instr _ =>
      obtain ⟨rfl, ho⟩ := hread _ _ _ instr
      exact safe_blockend hi ho hctx
    | retfrom instr _ next =>
      obtain ⟨rfl, ho⟩ := hread _ _ _ instr
      exact safe_retfrom hi ho (hb ▸ hctx ▸ next)
    | tagbody instr tags isTable _ targets body after =>
      obtain ⟨rfl, ho⟩ := hread _ _ _ instr
      exact safe_tagbody hi ho tags isTable (hb ▸ hctx ▸ targets) (hb ▸ hctx ▸ body)
        (hb ▸ hctx ▸ after)
    | tagend instr _ =>
      obtain ⟨rfl, ho⟩ := hread _ _ _ instr
      exact safe_tagend hi ho hctx
    | go instr tags mem _ _ =>
      obtain ⟨rfl, ho⟩ := hread _ _ _ instr
      exact safe_go hi ho tags mem
    | stop instr =>
      obtain ⟨rfl, ho⟩ := hread _ _ _ instr
      exact safe_stop hi ho hctx hb
    -- A level of the trail has the whole code, not only the part up to here.
    | reached _ =>
      have hwhole := K.whole_base
      rw [hb] at hwhole
      exact absurd hwhole id

/-- The states differ in the control, the counts and the log only. -/
structure Alike (s s' : Interpreter) : Prop where
  heap : s'.image.heap = s.image.heap
  symbols : s'.image.symbols = s.image.symbols
  primitives : s'.image.primitives = s.image.primitives
  functions : s'.image.functions = s.image.functions
  scopes : s'.scopes = s.scopes
  stack : s'.machine.stack = s.machine.stack
  env : s'.machine.env = s.machine.env
  dump : s'.machine.dump = s.machine.dump
  exits : s'.machine.exits = s.machine.exits
  bindings : s'.machine.bindings = s.machine.bindings

theorem Alike.sound {s' : Interpreter} (ha : Alike s s') (hs : Sound L s) : Sound L s' :=
  hs.apart ha.heap ha.symbols ha.primitives ha.functions ha.bindings ha.scopes

/-- Counting a step changes nothing that is asked of the state. -/
theorem Alike.inside {s' : Interpreter} (ha : Alike s s') (hi : Inside n L rest K env st s) :
    Inside n L rest K env st s' := by
  refine ⟨ha.sound hi.sound, ?_, ?_, ?_, ?_, ?_, ?_, ?_⟩
  · exact ha.heap ▸ hi.around
  · exact ha.heap ▸ hi.valid
  · exact ha.heap ▸ ha.env ▸ hi.isEnv
  · exact ha.heap ▸ ha.stack ▸ hi.operands
  · exact ha.dump ▸ hi.dump
  · exact ha.exits ▸ hi.exits
  · exact ha.bindings ▸ hi.bindings

theorem Alike.runs {s' : Interpreter} {c : Value} (ha : Alike s s') (hr : Runs n L rest K c s) :
    Runs n L rest K c s' := by
  cases hr with
  | code hi hc => exact .code (ha.inside hi) (ha.heap ▸ hc)
  | load hl instr shape next =>
    obtain ⟨e, f, vs, fs, henv, hcar, hop, hstack, hd⟩ := hl.pending
    refine .load ⟨ha.inside hl.inside, e, f, vs, fs, ?_, ?_, ?_, ?_, ?_⟩ (ha.heap ▸ instr) shape
      (ha.heap ▸ next)
    · exact ha.env.trans henv
    · exact ha.heap ▸ hcar
    · exact ha.heap ▸ hop
    · exact ha.stack ▸ hstack
    · exact ha.heap ▸ hd

/-- A state that is in order goes on to itself. -/
theorem Runs.goes {c : Value} (hr : Runs n L rest K c s) : Goes n rest L s L s := by
  cases hr with
  | code hi _ => exact hi.goes
  | load hl _ _ _ => exact hl.inside.goes

theorem Alike.goes {s' : Interpreter} {c : Value} (ha : Alike s s')
    (hmarks : s'.image.log.marks = s.image.log.marks) (hr : Runs n L rest K c s) :
    Goes n rest L s L s' :=
  ⟨ha.heap ▸ .refl n L _, ha.sound hr.goes.sound,
    fun hi => hi.of_eq ha.heap ha.functions hmarks, ha.bindings ▸ hr.goes.bindings⟩

/-- The instruction that code starts with. -/
theorem Runs.instr {c : Value} (hr : Runs n L rest K c s) :
    ∃ code vs k, L.Instr s.image.heap code vs c k := by
  cases hr with
  | code _ hc =>
    obtain ⟨code, vs, k, instr, -⟩ := hc.instr
    exact ⟨code, vs, k, instr⟩
  | load _ instr _ _ => exact ⟨_, _, _, instr⟩

/-- A step is counted in any case. Then the limit may refuse it. -/
theorem count_eq (s : Interpreter) :
    ∃ s', Alike s s' ∧ s'.machine.control = s.machine.control ∧
      s'.image.log.marks = s.image.log.marks ∧ (count s = .ok () s' ∨ count s = .error (.error .stepLimit) s') := by
  refine ⟨{ s with machine.steps := s.machine.steps + 1 }, ⟨rfl, rfl, rfl, rfl, rfl, rfl, rfl, rfl, rfl, rfl⟩, rfl,
    rfl, ?_⟩
  simp only [count, bind, EStateM.bind, modifyMachine_apply, view, id]
  cases s.machine.maxSteps with
  | none => exact .inl rfl
  | some limit =>
    by_cases hlt : limit < s.machine.steps + 1
    · exact .inr (by simp only [hlt, if_true]; rfl)
    · exact .inl (by simp only [hlt, if_false]; rfl)

/-- A step of the machine on code that is in order: the limit refuses it, or the instruction
    that the code starts with is executed, with its operands ahead. -/
theorem Runs.step_eq (hr : Runs n L rest K s.machine.control s) :
    ∃ s', Alike s s' ∧ s'.image.log.marks = s.image.log.marks ∧ (step s = .error (.error .stepLimit) s' ∨
      ∃ code, step s = Machine.execute code s' ∧
        ∀ code' vs k, L.Instr s'.image.heap code' vs s.machine.control k →
          code' = code ∧ L.Operands s'.image.heap vs s'.machine.control k) := by
  -- The step limit is looked at first, which changes no more than the counter.
  obtain ⟨s₁, ha₁, hcontrol₁, hmarks₁, hcount⟩ := count_eq s
  rcases hcount with hcount | hcount
  · obtain ⟨code, vs, k, instr⟩ := (ha₁.runs hr).instr
    rw [← hcontrol₁] at instr
    -- The code is in order, so there is an operation code to be fetched.
    obtain ⟨c, hfetch, ho⟩ := fetch_eq instr
    have hread : ∀ code' vs' k', L.Instr s₁.image.heap code' vs' s₁.machine.control k' →
        code' = code ∧ L.Operands s₁.image.heap vs' c k' := by
      intro code' vs' k' instr'
      refine ⟨instr'.op_eq instr, ?_⟩
      obtain ⟨c', hfetch', ho'⟩ := fetch_eq instr'
      rw [hfetch] at hfetch'
      have hc : c = c' := by
        have := congrArg (fun r => match r with | .ok _ s | .error _ s => s.machine.control) hfetch'
        exact this
      exact hc ▸ ho'
    have hstep : step s = (do
        let m ← view id
        if m.trace then
          Image.record .trace (traceLine code m)
        Machine.execute code : LispM Flow) { s₁ with machine.control := c } := by
      simp only [step, bind, EStateM.bind, hcount, hfetch]
    simp only [view, id, bind, EStateM.bind] at hstep
    rw [hcontrol₁] at hread
    -- Tracing adds to the log, and nothing else.
    split at hstep
    · have hlevel : LogLevel.trace ≠ .off := by decide
      obtain ⟨log, hlog, hmarks⟩ := record_marks hlevel
        (traceLine code { s₁.machine with control := c }) { s₁ with machine.control := c }
      refine ⟨{ s₁ with machine.control := c, image.log := log },
        ⟨ha₁.heap, ha₁.symbols, ha₁.primitives, ha₁.functions, ha₁.scopes, ha₁.stack, ha₁.env, ha₁.dump,
          ha₁.exits, ha₁.bindings⟩, hmarks.trans hmarks₁,
        .inr ⟨code, hstep.trans (bind_of_ok hlog), hread⟩⟩
    · exact ⟨{ s₁ with machine.control := c },
        ⟨ha₁.heap, ha₁.symbols, ha₁.primitives, ha₁.functions, ha₁.scopes, ha₁.stack, ha₁.env, ha₁.dump,
          ha₁.exits, ha₁.bindings⟩, hmarks₁, .inr ⟨code, hstep, hread⟩⟩
  · exact ⟨s₁, ha₁, hmarks₁, .inl (by simp only [step, bind, EStateM.bind, hcount])⟩

/-- A step of the machine is as safe as the instruction that it executes. -/
theorem Runs.safe_step_of {post : Layout → Flow → Interpreter → Prop}
    (hr : Runs n L rest K s.machine.control s)
    (hexecute : ∀ {s' : Interpreter} {code : Opcode}, Alike s s' →
      (∀ code' vs k, L.Instr s'.image.heap code' vs s.machine.control k →
        code' = code ∧ L.Operands s'.image.heap vs s'.machine.control k) →
      Safe (Goes n rest) L (Machine.execute code) s' post) :
    Safe (Goes n rest) L step s post := by
  obtain ⟨s', ha, hmarks, hstep | ⟨code, hstep, hread⟩⟩ := hr.step_eq
  · unfold Safe
    rw [leads_of_error hstep]
    exact ⟨trivial, L, ha.goes hmarks hr⟩
  · unfold Safe Leads
    rw [hstep]
    exact Leads.mono (hexecute ha hread)
      (fun _ _ ⟨L', g, hp⟩ => ⟨L', Evolution.trans (ha.goes hmarks hr) g, hp⟩)
      fun _ _ ⟨he, L', g⟩ => ⟨he, L', Evolution.trans (ha.goes hmarks hr) g⟩

/-- A step of the machine on code that is in order. -/
theorem safe_step (hr : Runs n L rest K s.machine.control s) :
    Safe (Goes n rest) L step s (Continues n rest K) :=
  hr.safe_step_of fun ha hread => safe_execute (ha.runs hr) hread

end

end StackLisp
