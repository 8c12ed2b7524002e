import StackLisp.Proofs.FormsEnd
import StackLisp.Proofs.Safety.Target
import StackLisp.Proofs.Walks

/-!
# Instructions that do not end

An instruction fails to end in a walk along the heap only: nothing else that it does
goes on for longer than its operands tell (`Concludes`). These walks start from values on the
stack, and in order they stay among the data of programs. So an instruction, or a call,
that does not end has met a pair that contains itself (`endsUnlessKnotted_of_flows`).

`walks_end` says which walks end on any heap made by consing and replacing components,
that every instruction of every session ends if no pair contains itself, and that forms are
compiled, expanded and evaluated to an end unless a list goes in circles or a form inside
or a run on the way does not end (`forms_end`). Circular lists can be made
(`circular_list_endless`).
-/

namespace StackLisp

open Interpreter Layout Machine

/-! ## Actions that end -/

section

variable {σ α β : Type}

/-- The action comes to an end, with a result or with an error. -/
structure Concludes (x : EStateM Failure σ α) : Prop where
  leads : ∀ s, Leads x s (fun _ _ => True) fun e _ => e ≠ .endless

/-- Two actions that come to an end, one after the other. -/
theorem Concludes.bind {x : EStateM Failure σ α} {f : α → EStateM Failure σ β} (hx : Concludes x)
    (hf : ∀ a, Concludes (f a)) : Concludes (x >>= f) where
  leads s := (leads_bind f).2 ((hx.leads s).mono (fun a s' _ => (hf a).leads s') fun _ _ he => he)

theorem concludes_pure (a : α) : Concludes (pure a : EStateM Failure σ α) := ⟨fun _ => trivial⟩

/-- A list is no longer than it is, so going through it ends. -/
theorem concludes_mapM {f : α → EStateM Failure σ β} (hf : ∀ a, Concludes (f a)) :
    ∀ l : List α, Concludes (l.mapM f)
  | [] => by
    rw [List.mapM_nil]
    exact concludes_pure _
  | a :: l => by
    rw [List.mapM_cons]
    exact (hf a).bind fun _ => (concludes_mapM hf l).bind fun _ => concludes_pure _

theorem concludes_raise (e : Error) : Concludes (raise e : LispM α) := ⟨fun _ => nofun⟩

theorem concludes_fault (f : Fault) : Concludes (fault f : LispM α) := ⟨fun _ => nofun⟩

theorem concludes_raise_bind (e : Error) (f : α → LispM β) : Concludes (raise e >>= f) := ⟨fun _ => nofun⟩

theorem concludes_fault_bind (f : Fault) (g : α → LispM β) : Concludes (fault f >>= g) := ⟨fun _ => nofun⟩

theorem concludes_asks (f : Image → α) : Concludes (asks f) := ⟨fun _ => trivial⟩

theorem concludes_view (f : Machine → α) : Concludes (view f) := ⟨fun _ => trivial⟩

theorem concludes_shown (v : Value) : Concludes (shown v) := ⟨fun _ => trivial⟩

theorem concludes_nameOf (id : SymbolId) : Concludes (nameOf id) := ⟨fun _ => trivial⟩

theorem concludes_modify (f : Interpreter → Interpreter) : Concludes (modify f : LispM Unit) := ⟨fun _ => trivial⟩

theorem concludes_modifyMachine (f : Machine → Machine) : Concludes (modifyMachine f) := ⟨fun _ => trivial⟩

theorem concludes_query (f : Image → Except Error α) : Concludes (query f) where
  leads s := by
    rw [leads_query]
    split
    · trivial
    · nofun

theorem concludes_ofExcept (x : Except Error α) : Concludes (Interpreter.ofExcept x) := by
  cases x with
  | ok a => exact concludes_pure a
  | error e => exact concludes_raise e

/-- An action on the heap ends in the interpreter as it does by itself. -/
theorem concludes_heap {x : HeapM α} (hx : Concludes x) : Concludes (liftM x : LispM α) where
  leads _ := leads_heap.2 (hx.leads _)

theorem concludes_symbols {x : SymbolM α} (hx : Concludes x) : Concludes (liftM x : LispM α) where
  leads _ := leads_symbols.2 (hx.leads _)

/-- It is enough that each failure is an error. -/
theorem concludes_of_error {x : EStateM Failure σ α} (hx : ∀ s e s', x s = .error e s' → ∃ e', e = .error e') :
    Concludes x where
  leads s := by
    unfold Leads
    split
    · trivial
    · next heq =>
      obtain ⟨e', rfl⟩ := hx _ _ _ heq
      rintro ⟨⟩

end

/-! ## The stack and the stream -/

section

variable {α : Type}

theorem concludes_pop : Concludes pop := concludes_of_error fun s e s' h => by
  unfold pop at h
  split at h <;> cases h
  exact ⟨_, rfl⟩

theorem concludes_peek : Concludes peek := concludes_of_error fun s e s' h => by
  unfold peek at h
  split at h <;> cases h
  exact ⟨_, rfl⟩

theorem concludes_popMany (n : Nat) : Concludes (popMany n) := concludes_of_error fun s e s' h => by
  unfold popMany at h
  split at h <;> cases h
  exact ⟨_, rfl⟩

theorem concludes_popTwo : Concludes popTwo := concludes_of_error fun s e s' h => by
  unfold popTwo at h
  split at h <;> cases h
  exact ⟨_, rfl⟩

theorem concludes_operand : Concludes operand := concludes_of_error fun s e s' h => by
  unfold operand at h
  split at h <;> cases h
  exact ⟨_, rfl⟩

theorem concludes_operandIndex : Concludes operandIndex := by
  refine concludes_operand.bind fun v => ?_
  split
  · split
    · exact concludes_pure _
    · exact concludes_fault _
  · exact concludes_fault _

theorem concludes_operandSymbol : Concludes operandSymbol := by
  refine concludes_operand.bind fun v => ?_
  split
  · exact concludes_pure _
  · exact concludes_fault _

/-- The environment is followed for as many frames as the address tells. -/
theorem concludes_frameAt (n : Nat) : Concludes (frameAt n) := by
  refine (concludes_view _).bind fun env => ?_
  refine (concludes_query _).bind fun v => ?_
  split
  · exact concludes_pure _
  · exact concludes_fault _

theorem concludes_done (v : Value) : Concludes (done v) := ⟨fun _ => trivial⟩

theorem concludes_doneBool (b : Bool) : Concludes (doneBool b) := concludes_done _

theorem concludes_wrongArgument (expected : Expectation) (operation : String) (v : Value) :
    Concludes (wrongArgument expected operation v : LispM α) := ⟨fun _ => nofun⟩

theorem concludes_intArg (operation : String) (v : Value) : Concludes (intArg operation v) := by
  unfold intArg
  split
  · exact concludes_pure _
  · exact concludes_wrongArgument ..

theorem concludes_symbolArg (operation : String) (v : Value) : Concludes (symbolArg operation v) := by
  unfold symbolArg
  split
  · exact concludes_pure _
  · exact concludes_wrongArgument ..

theorem concludes_pairArg (operation : String) (v : Value) : Concludes (pairArg operation v) := by
  unfold pairArg
  split
  · exact concludes_pure _
  · exact concludes_wrongArgument ..

/-- The operands are as many as the call has, and the calculation is done by a function. -/
theorem concludes_arithmetic (operation : String) (argc : Nat) (f : List Int64 → Except Error Int64) :
    Concludes (arithmetic operation argc f) := by
  refine (concludes_popMany argc).bind fun vs => ?_
  refine (concludes_mapM (concludes_intArg operation) vs).bind fun ns => ?_
  exact (concludes_ofExcept (f ns)).bind fun n => concludes_done (.int n)

theorem concludes_arithmeticOne (operation : String) (f : Int64 → Except Error Int64) :
    Concludes (arithmeticOne operation f) := by
  refine concludes_pop.bind fun v => ?_
  refine (concludes_intArg operation v).bind fun n => ?_
  exact (concludes_ofExcept (f n)).bind fun m => concludes_done (.int m)

theorem concludes_comparison (operation : String) (argc : Nat) (f : List Int64 → Bool) :
    Concludes (comparison operation argc f) := by
  refine (concludes_popMany argc).bind fun vs => ?_
  exact (concludes_mapM (concludes_intArg operation) vs).bind fun ns => concludes_doneBool (f ns)

end

/-! ## The heap and the symbols -/

theorem concludes_alloc (a d : Value) : Concludes (Heap.alloc a d) := concludes_of_error fun h e h' he => by
  unfold Heap.alloc at he
  split at he <;> cases he
  exact ⟨_, rfl⟩

theorem concludes_cons (a d : Value) : Concludes (Heap.cons a d) :=
  (concludes_alloc a d).bind fun _ => concludes_pure _

/-- A list is made of elements that are given one by one. -/
theorem concludes_listWithTail (vs : List Value) (tail : Value) : Concludes (Heap.listWithTail vs tail) where
  leads h := (Heap.leads_listWithTail_gains vs tail h).mono (fun _ _ _ => trivial)
    fun _ _ he => he.overflows.1 ▸ nofun

theorem concludes_allocRaw (frame : Frame) : Concludes (Heap.allocRaw frame) where
  leads h := (Heap.leads_allocRaw_gains frame h).mono (fun _ _ _ => trivial)
    fun _ _ he => he.overflows.1 ▸ nofun

/-- The slots of a frame are an array. -/
theorem concludes_frameRest (frame : FrameId) (slot : Nat) : Concludes (Heap.frameRest frame slot) where
  leads h := by
    cases hslots : h.filledSlots frame with
    | ok slots =>
      have heq : Heap.frameRest frame slot h = Heap.list (slots.toList.drop slot) h := by
        simp only [Heap.frameRest, hslots]
      rw [Leads, heq]
      exact (concludes_listWithTail _ .nil).leads h
    | error e =>
      have heq : Heap.frameRest frame slot h = .error (.error e) h := by
        simp only [Heap.frameRest, hslots]
      rw [leads_of_error heq]
      rintro ⟨⟩

theorem concludes_setFrameSlot (frame : FrameId) (slot : Nat) (v : Value) :
    Concludes (Heap.setFrameSlot frame slot v) := concludes_of_error fun h e h' he => by
  unfold Heap.setFrameSlot at he
  split at he <;> cases he
  exact ⟨_, rfl⟩

/-- So filling a frame ends as well. -/
theorem concludes_fillFrame (frame : FrameId) (vs : List Value) : Concludes (Heap.fillFrame frame vs) :=
  concludes_of_error fun h e h' he => by
    unfold Heap.fillFrame at he
    dsimp only at he
    split at he
    · cases he
      exact ⟨_, rfl⟩
    · split at he <;> cases he
      exact ⟨_, rfl⟩

theorem concludes_modifyHeap (f : Heap → Heap) : Concludes (modify f : HeapM Unit) := ⟨fun _ => trivial⟩

theorem concludes_setValue (id : SymbolId) (v : Value) : Concludes (SymbolTable.setValue id v) :=
  concludes_of_error fun t e t' he => by
    unfold SymbolTable.setValue SymbolTable.update at he
    split at he <;> cases he
    exact ⟨_, rfl⟩

theorem concludes_gensym (stem : String) : Concludes (SymbolTable.gensym stem) :=
  concludes_of_error nofun

/-! ## Calls, exits and bindings -/

theorem concludes_enter (code env : Value) (args : List Value) (mode : CallMode) :
    Concludes (enter code env args mode) := by
  refine (concludes_heap (concludes_allocRaw _)).bind fun frame => ?_
  refine (concludes_heap (concludes_cons (.frame frame) env)).bind fun env' => ?_
  have hentered : Concludes (modifyMachine fun m => { m with env := env', control := code }) :=
    concludes_modifyMachine _
  cases mode with
  | push =>
    refine (concludes_view id).bind fun m => ?_
    exact (concludes_modifyMachine _).bind fun _ => hentered
  | tail =>
    refine (concludes_view _).bind fun top => ?_
    split
    · exact (concludes_modifyMachine _).bind fun _ => hentered
    · exact concludes_fault_bind ..

theorem concludes_closureParts (id : PairId) : Concludes (closureParts id) := by
  refine (concludes_asks _).bind fun v => ?_
  split
  · exact (concludes_asks _).bind fun env => concludes_pure _
  · exact concludes_fault _

/-- Of what may be called here, only a closure or a function: a primitive is called elsewhere, and
    may walk. -/
theorem concludes_callFunction (callee : Value) (args : List Value) (mode : CallMode) :
    Concludes (callFunction callee args mode) := by
  -- The arity is checked and the frame entered, for a plain function as for a closure.
  have hchecked (arity : Arity) (name : String) (code env : Value) : Concludes (do
      checkArity arity name args.length
      enter code env args mode) :=
    (concludes_ofExcept _).bind fun _ => concludes_enter code env args mode
  unfold callFunction
  dsimp only
  split
  · refine (concludes_asks _).bind fun function => ?_
    refine (concludes_asks _).bind fun name => ?_
    split
    · exact concludes_raise_bind ..
    · exact hchecked ..
  · refine (concludes_closureParts _).bind fun (f, env) => ?_
    refine (concludes_asks _).bind fun function => ?_
    exact (concludes_asks _).bind fun name => hchecked ..
  · exact (concludes_shown _).bind fun text => concludes_raise _

theorem concludes_checkPrimitive (id : PrimitiveId) (argc : Nat) : Concludes (checkPrimitive id argc) := by
  refine (concludes_asks _).bind fun p => ?_
  refine (concludes_nameOf _).bind fun name => ?_
  refine (concludes_ofExcept _).bind fun _ => ?_
  split
  · exact concludes_pure _
  · exact concludes_raise _

theorem concludes_applyRecursive (argc : Nat) : Concludes (applyRecursive argc) := by
  refine (concludes_popMany argc).bind fun args => ?_
  refine concludes_pop.bind fun callee => ?_
  split
  · refine (concludes_closureParts _).bind fun (f, env) => ?_
    refine (concludes_query _).bind fun head => ?_
    split
    · refine (concludes_heap (concludes_fillFrame _ args)).bind fun _ => ?_
      refine (concludes_asks _).bind fun code => ?_
      refine (concludes_view id).bind fun m => ?_
      refine (concludes_query _).bind fun outer => ?_
      exact (concludes_modifyMachine _).bind fun _ => concludes_modifyMachine _
    · exact concludes_fault _
  · exact concludes_fault _

/-- Only the next pair of the code is looked at. -/
theorem concludes_continuationMode : Concludes continuationMode := by
  refine (concludes_view _).bind fun m => ?_
  refine (concludes_asks _).bind fun returns => ?_
  split <;> exact concludes_pure _

theorem concludes_bindSpecial (id : SymbolId) (v : Value) : Concludes (bindSpecial id v) :=
  ⟨fun _ => leads_bindSpecial.2 trivial⟩

theorem concludes_unbindSpecial (id : SymbolId) : Concludes (unbindSpecial id) where
  leads s := by
    rw [leads_unbindSpecial]
    split
    · nofun
    · split
      · trivial
      · nofun

theorem concludes_returnToCaller : Concludes returnToCaller := by
  refine (concludes_view _).bind fun top => ?_
  split
  · exact concludes_modifyMachine _
  · exact concludes_fault _
  · exact concludes_fault _

theorem concludes_join : Concludes join := by
  refine (concludes_view _).bind fun top => ?_
  split
  · exact concludes_modifyMachine _
  · exact concludes_fault _

/-- Only the innermost exit is looked at. -/
theorem concludes_endBlock (name : Value) : Concludes (endBlock name) := by
  refine (concludes_view _).bind fun top => ?_
  split
  · split
    · exact concludes_modifyMachine _
    · exact concludes_fault _
  · exact concludes_fault _

theorem concludes_endTagbody : Concludes endTagbody := by
  refine (concludes_view _).bind fun top => ?_
  split
  · exact concludes_modifyMachine _
  · exact concludes_fault _

/-- Primitives that go along lists. -/
def Builtin.walks : Builtin → Bool
  | .append | .length | .reverse | .equal | .apply => true
  | _ => false

/-- All other primitives end. -/
theorem concludes_runBuiltin {b : Builtin} (hb : b.walks = false) (argc : Nat) :
    Concludes (runBuiltin b argc) := by
  cases b with
  | append | length | reverse | equal | apply => cases hb
  | cons =>
    refine concludes_popTwo.bind fun (a, d) => ?_
    exact (concludes_heap (concludes_cons a d)).bind fun v => concludes_done v
  | car | cdr =>
    refine concludes_pop.bind fun v => ?_
    exact (concludes_query _).bind fun part => concludes_done part
  | rplaca | rplacd =>
    refine concludes_popTwo.bind fun (x, v) => ?_
    refine (concludes_pairArg _ x).bind fun id => ?_
    exact (concludes_heap (concludes_modifyHeap _)).bind fun _ => concludes_done x
  | list | listStar =>
    refine (concludes_popMany argc).bind fun args => ?_
    exact (concludes_heap (concludes_listWithTail ..)).bind fun v => concludes_done v
  | eq => exact concludes_popTwo.bind fun _ => concludes_doneBool _
  | atom | consp | listp | symbolp | numberp | null => exact concludes_pop.bind fun _ => concludes_doneBool _
  | functionp =>
    refine concludes_pop.bind fun v => ?_
    split
    · exact (concludes_asks _).bind fun function => concludes_doneBool _
    · exact concludes_doneBool _
  | add | sub | mul | min | max => exact concludes_arithmetic ..
  | inc | dec | abs => exact concludes_arithmeticOne ..
  | numEq | numNe | lt | gt | le | ge => exact concludes_comparison ..
  | mod =>
    refine concludes_popTwo.bind fun (a, b) => ?_
    refine (concludes_intArg "mod" a).bind fun m => ?_
    refine (concludes_intArg "mod" b).bind fun n => ?_
    exact (concludes_ofExcept (Fixnum.mod m n)).bind fun r => concludes_done (.int r)
  | zerop =>
    refine concludes_pop.bind fun v => ?_
    exact (concludes_intArg "zerop" v).bind fun n => concludes_doneBool (n == 0)
  | random =>
    have hchosen (limit : Int64) : Concludes (chooseBelow limit) := by
      refine (concludes_asks _).bind fun draws => ?_
      exact (concludes_modify _).bind fun _ => concludes_pure _
    refine concludes_pop.bind fun v => ?_
    refine (concludes_intArg "random" v).bind fun limit => ?_
    split
    · exact concludes_raise_bind ..
    · exact (hchosen limit).bind fun n => concludes_done (.int n)
  | print =>
    refine concludes_pop.bind fun v => ?_
    refine (concludes_shown v).bind fun text => ?_
    exact (concludes_modify _).bind fun _ => concludes_done v
  | error =>
    refine (concludes_popMany argc).bind fun vs => ?_
    exact (concludes_mapM concludes_shown vs).bind fun texts => concludes_raise _
  | symbolValue | symbolFunction =>
    refine concludes_pop.bind fun v => ?_
    refine (concludes_symbolArg _ v).bind fun id => ?_
    exact (concludes_query _).bind fun held => concludes_done held
  | set =>
    refine concludes_popTwo.bind fun (x, v) => ?_
    refine (concludes_symbolArg "set" x).bind fun id => ?_
    exact (concludes_symbols (concludes_setValue id v)).bind fun _ => concludes_done v
  | fboundp =>
    refine concludes_pop.bind fun v => ?_
    refine (concludes_symbolArg "fboundp" v).bind fun id => ?_
    refine (concludes_asks _).bind fun cell => ?_
    split <;> exact concludes_doneBool _
  | boundp =>
    refine concludes_pop.bind fun v => ?_
    refine (concludes_symbolArg "boundp" v).bind fun id => ?_
    exact (concludes_asks _).bind fun bound => concludes_doneBool bound
  | gensym =>
    have hfresh (stem : String) : Concludes (do done (.symbol (← SymbolTable.gensym stem)) : LispM Flow) :=
      (concludes_symbols (concludes_gensym stem)).bind fun id => concludes_done (.symbol id)
    refine (concludes_popMany argc).bind fun vs => ?_
    split
    · refine (concludes_symbolArg "gensym" _).bind fun id => ?_
      exact (concludes_nameOf id).bind fun stem => hfresh stem
    · exact hfresh "g"
  | macroexpandOnce | macroexpand | eval => exact concludes_pop.bind fun form => concludes_pure _
  | funcall =>
    unfold runBuiltin
    dsimp only
    split
    · exact concludes_fault_bind ..
    · exact concludes_continuationMode.bind fun mode => concludes_pure _

/-! ## Walks that do not end -/

/-- The action comes to an end unless some pair of the heap `h` contains itself. -/
def EndsUnlessKnotted {α : Type} (h : Heap) (x : LispM α) (s : Interpreter) : Prop :=
  Leads x s (fun _ _ => True) fun e _ => e = .endless → h.Knotted

section

variable {α β : Type} {h : Heap} {s : Interpreter}

/-- What ends in any case ends on a heap without knots. -/
theorem Concludes.endsUnlessKnotted {x : LispM α} (hx : Concludes x) : EndsUnlessKnotted h x s :=
  (hx.leads s).mono (fun _ _ h => h) fun _ _ hne he => absurd he hne

/-- The heap that is asked about is that before the first action, throughout. -/
theorem EndsUnlessKnotted.bind {x : LispM α} {f : α → LispM β} (hx : EndsUnlessKnotted h x s)
    (hf : ∀ a s', x s = .ok a s' → EndsUnlessKnotted h (f a) s') : EndsUnlessKnotted h (x >>= f) s := by
  rw [EndsUnlessKnotted, leads_bind]
  unfold EndsUnlessKnotted at hx
  cases heq : x s with
  | ok a s' =>
    rw [leads_of_ok heq]
    exact hf a s' heq
  | error e s' =>
    rw [leads_of_error heq] at hx ⊢
    exact hx

/-- An action that ends is left behind, and the rest has to be looked at. -/
theorem Concludes.bind_endsUnlessKnotted {x : LispM α} {f : α → LispM β} (hx : Concludes x)
    (hf : ∀ a s', x s = .ok a s' → EndsUnlessKnotted h (f a) s') : EndsUnlessKnotted h (x >>= f) s :=
  hx.endsUnlessKnotted.bind hf

/-- Going along a list of a heap on which all older pairs are as before. -/
theorem endsUnlessKnotted_listArg {L : Layout} (hL : L.Fits h) (he : h.Extended s.image.heap)
    (operation : String) {v : Value} (hv : L.Visible v) : EndsUnlessKnotted h (listArg operation v) s := by
  refine EndsUnlessKnotted.bind ?_ fun items s' _ => ?_
  · rw [EndsUnlessKnotted, Interpreter.elements?, leads_walk]
    split
    · trivial
    · next heq =>
      rintro rfl
      have hcircular := Heap.spine_circular_iff.1 (Heap.elements?_endless.1 heq)
      exact (hcircular.of_extended hL.closed he hv.data).knotted
  · split
    · exact (concludes_pure _).endsUnlessKnotted
    · exact (concludes_wrongArgument ..).endsUnlessKnotted

/-- The first action is known to succeed. -/
theorem endsUnlessKnotted_bind_of_ok {x : LispM α} {f : α → LispM β} {a : α} {s' : Interpreter}
    (hx : x s = .ok a s') (hf : EndsUnlessKnotted h (f a) s') : EndsUnlessKnotted h (x >>= f) s :=
  (leads_bind f).2 ((leads_of_ok hx).2 hf)

/-- Copying lists onto each other. -/
theorem endsUnlessKnotted_appendLists {L : Layout} (hL : L.Fits h) (he : h.Extended s.image.heap)
    {lists : List Value} {tail : Value} (hlists : ∀ v ∈ lists, L.Visible v) :
    EndsUnlessKnotted h (appendLists lists tail) s := by
  -- All pairs that were there at first stay as they are, with the copies made so far.
  have hcopies : Leads (appendLists lists tail) s (fun _ s' => h.Extended s'.image.heap)
      fun e _ => e = .endless → h.Knotted := by
    refine Leads.foldrM he fun v after result (s' : Interpreter) hsuffix (he : h.Extended s'.image.heap) => ?_
    have hlist := endsUnlessKnotted_listArg hL he "append" (hlists v (hsuffix.subset List.mem_cons_self))
    rw [leads_bind]
    refine (hlist.and ((quiet_listArg "append" v).calm s')).mono (fun items s₁ h₁ => ?_) fun _ _ h => h.1
    exact leads_heap.2 ((Heap.leads_listWithTail_gains items result _).mono
      (fun _ h' g => (he.trans h₁.2.heap).trans g.extended) fun _ _ he' => he'.overflows.1 ▸ nofun)
  exact hcopies.mono (fun _ _ _ => trivial) fun _ _ he => he

end

section

variable {n : Nat} {L : Layout} {rest : List SavedValue} {K : Trail} {env : List FrameShape}
  {st : List Slot} {s : Interpreter} {argc : Nat}

/-- Popping two values leaves the heap alone. -/
theorem Inside.poppedTwo (hi : Inside n L rest K env (.value :: .value :: st) s) :
    ∃ (p : Value × Value) (s' : Interpreter), popTwo s = .ok p s' ∧ L.Visible p.1 ∧ L.Visible p.2 ∧
      s'.image = s.image := by
  obtain ⟨vs, fs, ho, hstack, -⟩ := hi.operands
  obtain _ | @⟨_, w, _, _, hw, _ | @⟨_, v, vs, _, hv, ho⟩⟩ := ho
  refine ⟨(v, w), { s with machine.stack := s.machine.stack.drop 2 }, ?_, hv, hw, rfl⟩
  simp only [popTwo, hstack, List.cons_append]

/-- A primitive ends unless some pair contains itself. -/
theorem endsUnlessKnotted_runBuiltin {b : Builtin} (hb : b.Takes argc)
    (hi : Inside n L rest K env (List.replicate argc .value ++ st) s) :
    EndsUnlessKnotted s.image.heap (runBuiltin b argc) s := by
  have hL := hi.sound.fits
  -- Most primitives end in any state. The others go along lists, whose pairs are on a heap in
  -- order, so only a knot keeps them from ending.
  cases hwalks : b.walks with
  | false => exact (concludes_runBuiltin hwalks argc).endsUnlessKnotted
  | true =>
    cases b with
    | append =>
      obtain ⟨vs, hpop, -, hvs, -⟩ := hi.popMany
      refine endsUnlessKnotted_bind_of_ok (a := vs) (by simp only [popMany, hpop]; rfl) ?_
      refine EndsUnlessKnotted.bind ?_ fun v s' _ => (concludes_done v).endsUnlessKnotted
      refine endsUnlessKnotted_appendLists hL ?_ fun v hv => hvs v (List.dropLast_subset vs hv)
      exact .refl s.image.heap
    | length | reverse =>
      obtain rfl : argc = 1 := hb
      obtain ⟨v, stack, hpop, hv, -⟩ := hi.pop
      refine endsUnlessKnotted_bind_of_ok (a := v) (by simp only [pop, hpop]; rfl) ?_
      refine EndsUnlessKnotted.bind (endsUnlessKnotted_listArg hL (by exact .refl _) _ hv)
        fun items s' _ => Concludes.endsUnlessKnotted ?_
      first
        | exact concludes_done _
        | exact (concludes_heap (concludes_listWithTail ..)).bind fun _ => concludes_done _
    -- `equal` goes through both values, and ends unless their trees are infinite.
    | equal =>
      obtain rfl : argc = 2 := hb
      obtain ⟨⟨a, b⟩, s', hpop, ha, hb, himage⟩ := hi.poppedTwo
      refine endsUnlessKnotted_bind_of_ok hpop ?_
      refine EndsUnlessKnotted.bind ?_ fun b s' _ => (concludes_doneBool b).endsUnlessKnotted
      rw [EndsUnlessKnotted, leads_walk, himage]
      split
      · trivial
      · next heq =>
        rintro rfl
        exact ((hL.closed.equal_endless_iff ha.data hb.data).1 heq).knotted
    -- `apply` goes along its last argument only.
    | apply =>
      obtain ⟨argc, rfl⟩ : ∃ k, argc = k + 2 := ⟨argc - 2, (Nat.sub_add_cancel hb).symm⟩
      obtain ⟨v, stack, hpop, hv, -⟩ := hi.pop
      refine endsUnlessKnotted_bind_of_ok (a := v) (by simp only [pop, hpop]; rfl) ?_
      refine EndsUnlessKnotted.bind (endsUnlessKnotted_listArg hL (by exact .refl _) _ hv)
        fun items s' _ => Concludes.endsUnlessKnotted ?_
      refine (concludes_modifyMachine _).bind fun _ => ?_
      split
      · exact concludes_fault_bind ..
      · exact concludes_continuationMode.bind fun mode => concludes_pure _
    | _ => cases hwalks

/-- Its arity is checked first. Then only the primitives that go along a list or compare two values
    can fail to end. -/
theorem endsUnlessKnotted_callPrimitive {id : PrimitiveId}
    (hi : Inside n L rest K env (List.replicate argc .value ++ st) s) :
    EndsUnlessKnotted s.image.heap (callPrimitive id argc) s := by
  have hchecked : Inert (checkPrimitive id argc) s fun b => b.Takes argc := inert_checkPrimitive hi.sound
  rcases hchecked with ⟨b, hb, htakes⟩ | ⟨e, he, -⟩
  · exact endsUnlessKnotted_bind_of_ok hb (endsUnlessKnotted_runBuiltin htakes hi)
  · refine (concludes_checkPrimitive id argc).bind_endsUnlessKnotted fun b s' hb => ?_
    cases he.symm.trans hb

/-- A call ends unless some pair contains itself. -/
theorem endsUnlessKnotted_call (hi : Inside n L rest K env (List.replicate (argc + 1) .value ++ st) s)
    (mode : CallMode) : EndsUnlessKnotted s.image.heap (call argc mode) s := by
  have hi' : Inside n L rest K env (List.replicate argc .value ++ .value :: st) s := by
    rwa [List.replicate_succ', List.append_assoc] at hi
  obtain ⟨args, hargs, hlength, hvisible, hi₁⟩ := hi'.popMany
  obtain ⟨callee, stack, hcallee, -, hi₂⟩ := hi₁.pop
  refine endsUnlessKnotted_bind_of_ok (a := args) (by simp only [popMany, hargs]; rfl) ?_
  refine endsUnlessKnotted_bind_of_ok (a := callee) (by simp only [pop, hcallee]; rfl) ?_
  cases callee with
  | primitive id =>
    have hi₃ := hi₂.pushMany hvisible
    rw [hlength] at hi₃
    exact endsUnlessKnotted_bind_of_ok (modifyMachine_apply _ _) (endsUnlessKnotted_callPrimitive hi₃)
  | _ => exact ((concludes_callFunction ..).bind fun _ => concludes_pure _).endsUnlessKnotted

variable {v w k : Value}

/-- The callee, if it is a primitive, is called with the arguments on the stack. All of these can be
    seen by programs, and so can what they lead to. -/
theorem endsUnlessKnotted_ap (hi : Inside n L rest K env (List.replicate (argc + 1) .value ++ st) s)
    (ho : L.Operands s.image.heap [v] s.machine.control k) (hv : v.count? = some argc)
    (mode : CallMode) :
    EndsUnlessKnotted s.image.heap (do call (← operandIndex) mode) s := by
  obtain ⟨c, hindex, -⟩ := operandIndex_eq ho hv
  exact endsUnlessKnotted_bind_of_ok hindex (endsUnlessKnotted_call (hi.setControl c) mode)

/-- The call of a primitive by its number, by the same argument. -/
theorem endsUnlessKnotted_callp {p : PrimitiveId}
    (hi : Inside n L rest K env (List.replicate argc .value ++ st) s)
    (ho : L.Operands s.image.heap [.primitive p, v] s.machine.control k) (hv : v.count? = some argc) :
    EndsUnlessKnotted s.image.heap (execute .callp) s := by
  obtain ⟨c, hoperand, ho⟩ := operand_eq ho
  obtain ⟨c', hindex, -⟩ := operandIndex_eq (s := { s with machine.control := c }) ho hv
  exact endsUnlessKnotted_bind_of_ok hoperand (endsUnlessKnotted_bind_of_ok hindex
    (endsUnlessKnotted_callPrimitive ((hi.setControl c).setControl c')))

/-- Assigning a rest parameter goes along the list that is assigned. -/
theorem endsUnlessKnotted_setFrameRest (frame : FrameId) (slot : Nat) (v : Value) :
    EndsUnlessKnotted s.image.heap (liftM (Heap.setFrameRest frame slot v) : LispM Unit) s := by
  rw [EndsUnlessKnotted, leads_heap]
  unfold Leads Heap.setFrameRest
  cases hitems : s.image.heap.elements? v with
  | error e =>
    rintro rfl
    have hspine := Heap.spine_circular_iff.1 (Heap.elements?_endless.1 hitems)
    exact hspine.knotted
  | ok items =>
    cases items with
    | none => exact nofun
    | some items => cases s.image.heap.filledSlots frame <;> first | trivial | exact nofun

/-- The value assigned to a rest parameter is gone along as a list, and it is one that programs can
    see. -/
theorem endsUnlessKnotted_setlr {i j : Nat} {m : FrameShape} (hi : Inside n L rest K env (.value :: st) s)
    (ho : L.Operands s.image.heap [v, w] s.machine.control k) (hv : v.count? = some i)
    (hw : w.count? = some j) (hm : env[i]? = some m) :
    EndsUnlessKnotted s.image.heap (execute .setlr) s := by
  obtain ⟨c, hindex, ho⟩ := operandIndex_eq ho hv
  obtain ⟨c', hindex', -⟩ := operandIndex_eq (s := { s with machine.control := c }) ho hw
  have hi := (hi.setControl c).setControl c'
  obtain ⟨x, hpeek, -⟩ := hi.peek
  obtain ⟨frame, hframe, -⟩ := hi.frameAt hm
  refine endsUnlessKnotted_bind_of_ok hindex (endsUnlessKnotted_bind_of_ok hindex'
    (endsUnlessKnotted_bind_of_ok hpeek (endsUnlessKnotted_bind_of_ok hframe ?_)))
  exact (endsUnlessKnotted_setFrameRest frame j x).bind fun _ _ _ => (concludes_pure _).endsUnlessKnotted

/-- The tag of a `go` is looked up in the table of a tagbody in order, and found. -/
theorem endsUnlessKnotted_go {id : SymbolId} {tag : Value} {ts : List Value}
    {entries : List Interpreter} (hentries : EntriesOf L s.image.heap rest K entries)
    (hi : Inside n L rest K env st s)
    (ho : L.Operands s.image.heap [.symbol id, tag] s.machine.control k)
    (htags : L.tags id = some ts) (hmem : tag ∈ ts) :
    EndsUnlessKnotted s.image.heap (execute .go) s := by
  obtain ⟨c, hoperand, ho⟩ := operand_eq ho
  obtain ⟨c', hoperand', -⟩ := operand_eq (s := { s with machine.control := c }) ho
  refine endsUnlessKnotted_bind_of_ok hoperand (endsUnlessKnotted_bind_of_ok hoperand' ?_)
  -- What is searched from the top down is the part of the exits that belongs to this run.
  have hexits : (s.machine.exits.dropUntil (isTagbody (.symbol id))).items =
      (K.exits rest.length).drop ((K.exits rest.length).findIdx (isTagbody (.symbol id))) := by
    simp [Stack.dropUntil, hi.exits]
  obtain ⟨hresumes, hlate⟩ := (hentries.innermostTagbody id).goTo ((hi.setControl c).setControl c') hexits htags hmem
  cases htagbodies : activeTagbodies (.symbol id) (K.exits rest.length) entries with
  -- No tagbody of this run has the tag: the jump fails, which is an end.
  | nil =>
    obtain ⟨text, hgo⟩ := hlate htagbodies
    rw [EndsUnlessKnotted, leads_bind, leads_of_error hgo]
    rintro ⟨⟩
  | cons tagbody others =>
    obtain ⟨s', hgo, -⟩ := hresumes tagbody (by rw [htagbodies]; rfl)
    exact endsUnlessKnotted_bind_of_ok hgo (concludes_pure _).endsUnlessKnotted

/-- The instructions that go along lists, or call primitives that do. -/
def Opcode.walks : Opcode → Bool
  | .ap | .tap | .callp | .setlr | .go => true
  | _ => false

/-- All other instructions end. -/
theorem concludes_execute {code : Opcode} (hcode : code.walks = false) : Concludes (execute code) := by
  have hnext : Concludes (pure .next : LispM Flow) := concludes_pure _
  -- Each case takes the steps of the instruction one after the other.
  cases code with
  | ap | tap | callp | setlr | go => cases hcode
  | ldc => exact concludes_operand.bind fun v => concludes_done v
  | ld =>
    refine concludes_operandIndex.bind fun i => ?_
    refine concludes_operandIndex.bind fun j => ?_
    refine (concludes_frameAt i).bind fun frame => ?_
    exact (concludes_query _).bind fun v => concludes_done v
  | ldr =>
    refine concludes_operandIndex.bind fun i => ?_
    refine concludes_operandIndex.bind fun j => ?_
    refine (concludes_frameAt i).bind fun frame => ?_
    exact (concludes_heap (concludes_frameRest frame j)).bind fun v => concludes_done v
  | ldg =>
    refine concludes_operandSymbol.bind fun name => ?_
    exact (concludes_query _).bind fun v => concludes_done v
  | gfn =>
    refine concludes_operandSymbol.bind fun name => ?_
    refine (concludes_query _).bind fun v => ?_
    split
    · refine (concludes_asks _).bind fun function => ?_
      split
      · exact (concludes_nameOf name).bind fun text => concludes_raise_bind ..
      · exact concludes_done _
    · exact concludes_done v
  | setl =>
    refine concludes_operandIndex.bind fun i => ?_
    refine concludes_operandIndex.bind fun j => ?_
    refine concludes_peek.bind fun v => ?_
    refine (concludes_frameAt i).bind fun frame => ?_
    exact (concludes_heap (concludes_setFrameSlot frame j v)).bind fun _ => hnext
  | setg =>
    refine concludes_operandSymbol.bind fun name => ?_
    refine concludes_peek.bind fun v => ?_
    exact (concludes_symbols (concludes_setValue name v)).bind fun _ => hnext
  | ldf =>
    refine concludes_operand.bind fun v => ?_
    split
    · refine (concludes_view _).bind fun env => ?_
      exact (concludes_heap (concludes_alloc _ env)).bind fun closure => concludes_done _
    · exact concludes_fault _
  | rap =>
    refine concludes_operandIndex.bind fun argc => ?_
    exact (concludes_applyRecursive argc).bind fun _ => hnext
  | dum =>
    refine concludes_operandIndex.bind fun size => ?_
    refine (concludes_heap (concludes_allocRaw _)).bind fun frame => ?_
    refine (concludes_view _).bind fun env => ?_
    refine (concludes_heap (concludes_cons (.frame frame) env)).bind fun env => ?_
    exact (concludes_modifyMachine _).bind fun _ => hnext
  | rtn => exact concludes_returnToCaller.bind fun _ => hnext
  | sel =>
    refine concludes_pop.bind fun test => ?_
    refine concludes_operand.bind fun thenCode => ?_
    refine concludes_operand.bind fun elseCode => ?_
    refine (concludes_view _).bind fun control => ?_
    refine (concludes_modifyMachine _).bind fun _ => ?_
    exact (concludes_modifyMachine _).bind fun _ => hnext
  | tsel =>
    refine concludes_pop.bind fun test => ?_
    refine concludes_operand.bind fun thenCode => ?_
    refine concludes_operand.bind fun elseCode => ?_
    exact (concludes_modifyMachine _).bind fun _ => hnext
  | join => exact concludes_join.bind fun _ => hnext
  | pop => exact concludes_pop.bind fun v => hnext
  | bind =>
    refine concludes_operandSymbol.bind fun name => ?_
    refine concludes_pop.bind fun v => ?_
    exact (concludes_bindSpecial name v).bind fun _ => hnext
  | unbind =>
    refine concludes_operandSymbol.bind fun name => ?_
    exact (concludes_unbindSpecial name).bind fun _ => hnext
  | block =>
    refine concludes_operand.bind fun name => ?_
    exact (concludes_modifyMachine _).bind fun _ => hnext
  | blockend =>
    refine concludes_operand.bind fun name => ?_
    exact (concludes_endBlock name).bind fun _ => hnext
  | retfrom =>
    refine concludes_operand.bind fun name => ?_
    exact concludes_pop.bind fun v => concludes_pure _
  | tagbody =>
    refine concludes_operand.bind fun id => ?_
    refine concludes_operand.bind fun table => ?_
    exact (concludes_modifyMachine _).bind fun _ => hnext
  | tagend => exact concludes_endTagbody.bind fun _ => concludes_done _
  | stop => exact concludes_pure _

/-- An instruction of code in order ends unless some pair contains itself. -/
theorem endsUnlessKnotted_execute {c : Value} {code : Opcode} {entries : List Interpreter}
    (hentries : EntriesOf L s.image.heap rest K entries) (hr : Runs n L rest K c s)
    (hread : ∀ code' vs k, L.Instr s.image.heap code' vs c k →
      code' = code ∧ L.Operands s.image.heap vs s.machine.control k) :
    EndsUnlessKnotted s.image.heap (execute code) s := by
  -- Of the instructions that go along lists, each has a lemma of its own.
  cases hwalks : code.walks with
  | false => exact (concludes_execute hwalks).endsUnlessKnotted
  | true =>
    cases hr with
    | load loading instr shape next =>
      obtain ⟨rfl, -⟩ := hread _ _ _ instr
      cases hwalks
    | code hi hc =>
      -- That other instructions than those are next, is against `hwalks`.
      generalize hb : K.base = b, hctx : K.context = ctx at hc
      cases hc with
      | ap instr count =>
        obtain ⟨rfl, ho⟩ := hread _ _ _ instr
        exact endsUnlessKnotted_ap hi ho count .push
      | tap instr count =>
        obtain ⟨rfl, ho⟩ := hread _ _ _ instr
        exact endsUnlessKnotted_ap hi ho count .tail
      | callp instr count =>
        obtain ⟨rfl, ho⟩ := hread _ _ _ instr
        exact endsUnlessKnotted_callp hi ho count
      | setlr instr frame slot size =>
        obtain ⟨rfl, ho⟩ := hread _ _ _ instr
        exact endsUnlessKnotted_setlr hi ho frame slot size
      | go instr tags mem =>
        obtain ⟨rfl, ho⟩ := hread _ _ _ instr
        exact endsUnlessKnotted_go hentries hi ho tags mem
      | reached =>
        have hwhole := K.whole_base
        rw [hb] at hwhole
        exact absurd hwhole id
      | ldc instr | ld instr | ldr instr | ldg instr | gfn instr | setl instr | setg instr | ldf instr
      | dum instr | rap instr | rtn instr | sel instr | tsel instr | join instr | pop instr | bind instr
      | unbind instr | block instr | blockend instr | retfrom instr | tagbody instr | tagend instr
      | stop instr =>
        obtain ⟨rfl, -⟩ := hread _ _ _ instr
        cases hwalks

/-- In order, the code at hand says what the operands are. So each instruction can be looked at by
    itself. -/
theorem endsUnlessKnotted_step {entries : List Interpreter}
    (hentries : EntriesOf L s.image.heap rest K entries) (hr : Runs n L rest K s.machine.control s) :
    EndsUnlessKnotted s.image.heap step s := by
  obtain ⟨s', ha, -, hstep | ⟨code, hstep, hread⟩⟩ := hr.step_eq
  · rw [EndsUnlessKnotted, leads_of_error hstep]
    exact nofun
  · have hends := endsUnlessKnotted_execute (ha.heap.symm ▸ hentries) (ha.runs hr) hread
    unfold EndsUnlessKnotted Leads at hends ⊢
    rwa [hstep, ← ha.heap]

/-- What comes next, an instruction or a call, ends unless some pair contains itself. To evaluate
    a form, or to expand one, takes runs whose instructions are observed in their turn; about
    what is done beside these runs, see `FormsEnd`. -/
def endsUnlessKnotted : Watch := fun _ flow s =>
  match flow with
  | .next => EndsUnlessKnotted s.image.heap step s
  | .request (.call argc mode) => EndsUnlessKnotted s.image.heap (call argc mode) s
  | _ => True

/-- Each moment of a session that is in order. -/
theorem endsUnlessKnotted_of_flows {entries : List Interpreter} {flow : Flow}
    (hentries : EntriesOf L s.image.heap rest K entries) (hf : Flows n L rest K flow s) :
    endsUnlessKnotted entries flow s := by
  cases flow with
  | next => exact endsUnlessKnotted_step hentries hf
  | stop => trivial
  | request r =>
    cases r with
    | call argc mode =>
      obtain ⟨env, st, hy, -⟩ := hf
      exact endsUnlessKnotted_call hy.1 mode
    | _ => trivial

end

/-- On every heap made by consing and replacing components, the walks along a value end unless its
    tails go in circles, and a comparison ends unless it comes to one that needs itself. In every
    session, each instruction and each call ends unless some pair contains itself. Compiling,
    expanding and evaluating a form ends if the forms inside are compiled and the programs run on
    the way to an end, unless some list goes in circles. -/
theorem walks_end {h : Heap} (hh : h.Reached) {v w : Value} (hv : h.Holds v) (hw : h.Holds w)
    (config : Config) (level : LogLevel) (commands : List Command) :
    h.WalksEnd v w ∧
      Session.run (.watched endsUnlessKnotted) config level commands =
        Session.run .plain config level commands ∧
      (Session.run (.watched endsUnlessKnotted) config level commands).BreaksNoRule ∧
      FormsEnd :=
  have hsessions := Session.run_of_flows endsUnlessKnotted_of_flows config level commands
  ⟨hh.closed.closedUnder.walksEnd hv hw, hsessions.1, hsessions.2, forms_end⟩

/-- A pair whose tail has been replaced by the pair itself. -/
def circularList : Heap := ((Heap.empty 1).push .nil .nil).setCdr ⟨0⟩ (.pair ⟨0⟩)

/-- The pair is consed, and its tail replaced, as a program would do it. -/
theorem circularList_reached : circularList.Reached := by
  have hnil : (Heap.empty 1).Holds .nil := nofun
  have hpair : ((Heap.empty 1).push .nil .nil).Holds (.pair ⟨0⟩) := by
    rintro id ⟨⟩
    decide
  have hmade : Heap.cons .nil .nil (.empty 1) = .ok (.pair ⟨0⟩) ((Heap.empty 1).push .nil .nil) := rfl
  exact .setCdr (.cons (.empty 1) hnil hnil hmade) (hpair _ rfl) hpair

theorem walks_end_circularList :
    circularList.Reached ∧ circularList.Holds (.pair ⟨0⟩) ∧
      circularList.WalksEnd (.pair ⟨0⟩) (.pair ⟨0⟩) :=
  have hholds : circularList.Holds (.pair ⟨0⟩) := by
    rintro id ⟨⟩
    decide
  ⟨circularList_reached, hholds,
    (walks_end circularList_reached hholds hholds {} .off []).1⟩

/-- No walk along a circular list ends. -/
theorem circular_list_endless :
    circularList.Reached ∧ circularList.isProperList (.pair ⟨0⟩) = .error .endless ∧
      circularList.elements? (.pair ⟨0⟩) = .error .endless ∧
      circularList.length? (.pair ⟨0⟩) = .error .endless :=
  ⟨circularList_reached, by decide, by decide, by decide⟩

end StackLisp
