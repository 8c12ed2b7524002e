import StackLisp.Proofs.Actions.Marked
import StackLisp.Proofs.Actions.Watched

/-!
# Dynamic bindings are given back

Ending every dynamic binding in force would lead to the symbols *outside* of all
bindings (`Interpreter.outside`). Beginning a binding and ending it leave these
alone, whatever code is run, and an assignment changes them if it is one outside of
bindings. To say which of these came last, a run marks the values that it assigns so to
a symbol (`Marking.assignments`). A run that fails gives every symbol back with the last
value marked, or as it was (`execute_givesBack`).

There is one exception: ending a binding of one symbol where that of another one
is in force loses the latter (`unbind_loses_binding`).
-/

namespace StackLisp

open Interpreter Compiler Machine

/-! ## Outside of all bindings -/

namespace Symbol

/-- What the end of a binding does to the symbol `x`. -/
def unbound (x : SymbolId) (s : Symbol) (saved : SavedValue) : Symbol :=
  if saved.symbol = x then
    { s with value := saved.value, bindingDepth := s.bindingDepth - 1 }
  else
    s

/-- What the end of several bindings does to it. -/
def unboundAll (x : SymbolId) (saved : List SavedValue) (s : Symbol) : Symbol :=
  saved.foldl (unbound x) s

variable {x : SymbolId} {saved : List SavedValue} {s s' : Symbol}

/-- The latest binding is left first. -/
theorem unboundAll_cons (y : SavedValue) :
    unboundAll x (y :: saved) s = unboundAll x saved (unbound x s y) := rfl

/-- What leaving bindings makes of the depth does not depend on the value. -/
theorem bindingDepth_unboundAll (h : s.bindingDepth = s'.bindingDepth) :
    (unboundAll x saved s).bindingDepth = (unboundAll x saved s').bindingDepth := by
  induction saved generalizing s s' with
  | nil => exact h
  | cons y saved ih =>
    refine ih ?_
    unfold unbound
    split
    · exact congrArg (· - 1) h
    · exact h

/-- The value outside of bindings only depends on the value inside if there are none. -/
theorem value_unboundAll (h : s.value = s'.value ∨ ∃ y ∈ saved, y.symbol = x) :
    (unboundAll x saved s).value = (unboundAll x saved s').value := by
  induction saved generalizing s s' with
  | nil => exact h.resolve_right nofun
  | cons y saved ih =>
    refine ih ?_
    unfold unbound
    split
    · exact .inl rfl
    · next hy =>
      refine h.imp id ?_
      rintro ⟨z, hz, hzx⟩
      rcases List.mem_cons.1 hz with rfl | hz
      · exact absurd hzx hy
      · exact ⟨z, hz, hzx⟩

/-- Bindings of other symbols make no difference. -/
theorem unboundAll_of_forall_ne (h : ∀ y ∈ saved, y.symbol ≠ x) : unboundAll x saved s = s := by
  induction saved with
  | nil => rfl
  | cons y saved ih =>
    rw [unboundAll_cons, unbound, if_neg (h y List.mem_cons_self)]
    exact ih fun z hz => h z (List.mem_cons_of_mem _ hz)

end Symbol

namespace SymbolTable

variable {t : SymbolTable} {x : SymbolId}

/-- Restoring all saved values treats each symbol on its own. -/
theorem get_restoreAll (hx : x.index < t.size) (saved : List SavedValue) :
    (t.restoreAll saved).get x = (t.get x).unboundAll x saved := by
  induction saved generalizing t with
  | nil => rfl
  | cons y saved ih =>
    rw [restoreAll_cons, Symbol.unboundAll_cons, ih (by simpa [restoreValue, exitBinding] using hx)]
    congr 1
    unfold Symbol.unbound restoreValue exitBinding
    split
    · next hy =>
      subst hy
      rw [get_modify_self _ (by simpa using hx), get_modify_self _ hx]
    · next hy => rw [get_modify_ne _ (Ne.symm hy), get_modify_ne _ (Ne.symm hy)]

end SymbolTable

/-- The symbols outside of all dynamic bindings. -/
def Interpreter.outside (s : Interpreter) : SymbolTable :=
  s.image.symbols.restoreAll s.machine.bindings.items

section

variable {s s' : Interpreter} {x : SymbolId}

/-- The outside of a symbol is what is left of it when all bindings have been left. -/
theorem get_outside (hx : x.index < s.image.symbols.size) :
    s.outside.get x = (s.image.symbols.get x).unboundAll x s.machine.bindings.items :=
  SymbolTable.get_restoreAll hx _

/-- Ending bindings leaves alone what is outside of all of them. -/
theorem outside_withoutBindings (s : Interpreter) (n : Nat) : (s.withoutBindings n).outside = s.outside := by
  simp only [outside, withoutBindings, Stack.items_drop]
  rw [← SymbolTable.restoreAll_append, List.take_append_drop]

/-- Beginning one does so, too. -/
theorem get_outside_withBinding (hx : x.index < s.image.symbols.size) (id : SymbolId) (v : Value) :
    (s.withBinding id v).outside.get x = s.outside.get x := by
  rw [get_outside hx, get_outside (by simpa [withBinding, SymbolTable.restoreValue,
    SymbolTable.enterBinding] using hx)]
  simp only [withBinding, Stack.items_push, Symbol.unboundAll_cons]
  congr 1
  unfold Symbol.unbound SymbolTable.restoreValue SymbolTable.enterBinding
  by_cases hid : id = x
  · subst hid
    rw [if_pos rfl, SymbolTable.get_modify_self _ (by simpa using hx),
      SymbolTable.get_modify_self _ hx]
    simp
  · rw [if_neg hid, SymbolTable.get_modify_ne _ (Ne.symm hid), SymbolTable.get_modify_ne _ (Ne.symm hid)]

end

/-! ## Assignments -/

/-- What a primitive would assign, on a stack of operands. -/
def Image.assignmentBy? (image : Image) (id : PrimitiveId) : List Value → Option (SymbolId × Value)
  | v :: x :: _ =>
    if (image.primitives.get id).builtin = some .set then x.symbol?.map fun id => (id, v) else none
  | _ => none

/-- What a call would assign. -/
def Interpreter.assignmentByCall? (s : Interpreter) (argc : Nat) : Option (SymbolId × Value) :=
  let operands := s.machine.stack.items
  match operands.drop argc with
  | .primitive id :: below => s.image.assignmentBy? id (operands.take argc ++ below)
  | _ => none

/-- The symbol that is about to be assigned, and the value. -/
def Interpreter.assignment? (s : Interpreter) : Flow → Option (SymbolId × Value)
  | .next =>
    match s.image.heap.instruction? s.machine.control with
    | some (.setg, [name], _) =>
      name.symbol?.bind fun id => s.machine.stack.top?.map fun v => (id, v)
    | some (.callp, [.primitive id, _], _) => s.image.assignmentBy? id s.machine.stack.items
    | some (.ap, [.int n], _) | some (.tap, [.int n], _) => s.assignmentByCall? n.toNatClampNeg
    | _ => none
  | .request (.call argc _) => s.assignmentByCall? argc
  | _ => none

/-- No dynamic binding of the symbol is in force. -/
def Interpreter.Unbound (s : Interpreter) (x : SymbolId) : Prop :=
  ∀ saved ∈ s.machine.bindings.items, saved.symbol ≠ x

instance (s : Interpreter) (x : SymbolId) : Decidable (s.Unbound x) :=
  inferInstanceAs (Decidable (∀ saved ∈ s.machine.bindings.items, saved.symbol ≠ x))

/-- The value, if it is assigned to the symbol outside of bindings. -/
def Interpreter.outsideValue? (s : Interpreter) (x : SymbolId) : Option (SymbolId × Value) → Option Value
  | some (y, v) => if s.Unbound x ∧ y = x then some v else none
  | none => none

/-- The mark for what the symbol is assigned outside of bindings, if that comes next. -/
def Interpreter.assignmentMark? (s : Interpreter) (x : SymbolId) (flow : Flow) : Option Mark :=
  (s.outsideValue? x (s.assignment? flow)).map .assigned

/-- Every value that is assigned to the symbol outside of bindings is marked. -/
def Marking.assignments (x : SymbolId) : Marking where
  step := noting (fun s _ => s.assignmentMark? x .next) Machine.step
  request r := noting (fun s _ => s.assignmentMark? x (.request r))
  inside run := run

/-- The value that a mark says has been assigned. -/
def Mark.assigned? : Mark → Option Value
  | .assigned v => some v
  | _ => none

/-- The values that are marked to have been assigned since `s`, the earliest first. -/
def Interpreter.assignedSince (s' s : Interpreter) : List Value :=
  (s'.image.log.marks.drop s.image.log.marks.length).filterMap (·.assigned?)

/-- Runs that mark assignments and plain ones go together. -/
theorem relogged_assignments (x : SymbolId) (fuel : Nat) :
    (∀ form env cont, Together Relogged (markedCompile (.assignments x) fuel form env cont)
      (compileFrom fuel form env cont)) ∧
      ∀ flow, Together Relogged (markedRun (.assignments x) fuel flow) (runFrom fuel flow) :=
  relogged_marked (relogged_noting relogged_machineCongruence.toRunningCongruence.step _)
    (fun hxy => relogged_noting hxy _) (fun hrun => hrun) fuel

/-! ## What runs do outside of bindings -/

/-- The failure is not the end of a binding of another symbol. -/
def Failure.NoMismatch (e : Failure) : Prop := ∀ a b, e ≠ .error (.fatal (.unbindMismatch a b))

section

variable (x : SymbolId)

/-- Outside of bindings, the symbol is bound as often as before, and has the last value that has
    been marked in between, or the same as before. -/
structure GivesBack (s s' : Interpreter) : Prop where
  nesting : s'.machine.nesting = s.machine.nesting
  known : x.index < s.image.symbols.size → x.index < s'.image.symbols.size
  depth : x.index < s.image.symbols.size →
    (s'.outside.get x).bindingDepth = (s.outside.get x).bindingDepth
  value : ∃ ms, s'.image.log.marks = s.image.log.marks ++ ms ∧ (x.index < s.image.symbols.size →
    (s'.outside.get x).value = (ms.filterMap (·.assigned?)).getLast?.or (s.outside.get x).value)

variable {x} {s s' : Interpreter}

/-- The value comes back if the outside of the symbol is the same. -/
theorem givesBack_of_outside (hnesting : s'.machine.nesting = s.machine.nesting)
    (hsize : s'.image.symbols.size = s.image.symbols.size)
    (hmarks : s'.image.log.marks = s.image.log.marks)
    (houtside : x.index < s.image.symbols.size → s'.outside.get x = s.outside.get x) :
    GivesBack x s s' :=
  ⟨hnesting, fun hx => hsize ▸ hx, fun hx => by rw [houtside hx],
    [], by simp [hmarks], fun hx => by simp [houtside hx]⟩

/-- Giving a value back is passed on from action to action. -/
theorem givesBack_steadiness : Steadiness (GivesBack x) where
  still h := givesBack_of_outside h.nesting (by rw [h.symbols]) h.marks fun _ => by
    rw [outside, outside, h.symbols, h.bindings]
  trans h h' := by
    obtain ⟨ms, hmarks, hvalue⟩ := h.value
    obtain ⟨ms', hmarks', hvalue'⟩ := h'.value
    refine ⟨h'.nesting.trans h.nesting, fun hx => h'.known (h.known hx),
      fun hx => (h'.depth (h.known hx)).trans (h.depth hx), ms ++ ms', ?_, fun hx => ?_⟩
    · rw [hmarks', hmarks, List.append_assoc]
    · rw [hvalue' (h.known hx), hvalue hx, List.filterMap_append, List.getLast?_append, Option.or_assoc]

/-- What has been assigned since, if nothing is bound before and after. -/
theorem GivesBack.value_eq (h : GivesBack x s s') (hs : s.machine.bindings.items = [])
    (hs' : s'.machine.bindings.items = []) (hx : x.index < s.image.symbols.size) :
    (s'.image.symbols.get x).value = (s'.assignedSince s).getLast?.or (s.image.symbols.get x).value := by
  obtain ⟨ms, hmarks, hvalue⟩ := h.value
  have hback := hvalue hx
  rw [outside, outside, hs, hs', SymbolTable.restoreAll_nil, SymbolTable.restoreAll_nil] at hback
  rw [hback, assignedSince, hmarks, List.drop_left]

/-- Changes of symbols that are not about values. -/
theorem givesBack_withSymbol (id : SymbolId) {f : Symbol → Symbol}
    (hdepth : ∀ y, (f y).bindingDepth = y.bindingDepth) (hvalue : ∀ y, (f y).value = y.value) :
    GivesBack x s (s.withSymbol id f) := by
  have hsize : (s.withSymbol id f).image.symbols.size = s.image.symbols.size :=
    SymbolTable.size_modify f
  refine ⟨rfl, fun hx => hsize ▸ hx, fun hx => ?_, [], (List.append_nil _).symm, fun hx => ?_⟩
  all_goals
    rw [get_outside hx, get_outside (hsize ▸ hx)]
    simp only [withSymbol]
  · refine Symbol.bindingDepth_unboundAll ?_
    rcases SymbolTable.get_modify s.image.symbols id x f with heq | ⟨-, heq⟩
    · rw [heq]
    · rw [heq, hdepth]
  · refine Symbol.value_unboundAll (.inl ?_)
    rcases SymbolTable.get_modify s.image.symbols id x f with heq | ⟨-, heq⟩
    · rw [heq]
    · rw [heq, hvalue]

/-- The interpreter with a mark for the value that has been assigned, if one has. -/
def Interpreter.noted (s : Interpreter) (v? : Option Value) : Interpreter :=
  (v?.map Mark.assigned).elim s s.marked

/-- Interpreters that are alike stay so when the same assignment is noted in both. -/
theorem Still.noted (h : Still s s') (v? : Option Value) : Still (s.noted v?) (s'.noted v?) := by
  cases v? with
  | none => exact h
  | some v =>
    refine ⟨h.symbols, h.bindings, h.nesting, ?_⟩
    exact ((marks_marked ..).trans (congrArg (· ++ [_]) h.marks)).trans (marks_marked ..).symm

/-- An assignment, with a mark if it is one outside of bindings. -/
theorem givesBack_assign (s : Interpreter) (id : SymbolId) (v : Value) :
    GivesBack x s
      ((s.withSymbol id fun y => { y with value := some v }).noted (s.outsideValue? x (some (id, v)))) := by
  have hsize : (s.withSymbol id fun y => { y with value := some v }).image.symbols.size =
      s.image.symbols.size := SymbolTable.size_modify _
  by_cases hid : id = x
  · subst hid
    have hget (hx : id.index < s.image.symbols.size) :
        (s.withSymbol id fun y => { y with value := some v }).outside.get id =
          Symbol.unboundAll id s.machine.bindings.items
            { s.image.symbols.get id with value := some v } := by
      rw [get_outside (hsize ▸ hx)]
      simp only [withSymbol, SymbolTable.get_modify_self _ hx]
    have hdepth (hx : id.index < s.image.symbols.size) :
        ((s.withSymbol id fun y => { y with value := some v }).outside.get id).bindingDepth =
          (s.outside.get id).bindingDepth := by
      rw [hget hx, get_outside hx]
      exact Symbol.bindingDepth_unboundAll rfl
    by_cases hunbound : s.Unbound id
    · rw [outsideValue?, if_pos ⟨hunbound, rfl⟩]
      refine ⟨rfl, fun hx => hsize ▸ hx, hdepth, [.assigned v], marks_marked .., fun hx => ?_⟩
      -- without a binding, what is assigned inside is the value outside
      have hvalue := congrArg (·.value) (hget hx)
      rwa [Symbol.unboundAll_of_forall_ne hunbound] at hvalue
    · rw [outsideValue?, if_neg fun h => hunbound h.1]
      refine ⟨rfl, fun hx => hsize ▸ hx, hdepth, [], (List.append_nil _).symm, fun hx => ?_⟩
      -- the outermost binding keeps the value outside
      refine (congrArg (·.value) (hget hx)).trans (Eq.trans ?_ (congrArg (·.value) (get_outside hx)).symm)
      refine Symbol.value_unboundAll (.inr ?_)
      simpa [Unbound] using hunbound
  · have hother : GivesBack x s (s.withSymbol id fun y => { y with value := some v }) :=
      givesBack_of_outside rfl hsize rfl fun hx => by
        rw [get_outside hx, get_outside (hsize ▸ hx)]
        simp only [withSymbol, SymbolTable.get_modify_ne _ (Ne.symm hid)]
    rw [outsideValue?, if_neg fun h => hid h.2]
    exact hother

/-- A new binding hides a value, and it is still there. -/
theorem givesBack_withBinding (s : Interpreter) (id : SymbolId) (v : Value) :
    GivesBack x s (s.withBinding id v) :=
  givesBack_of_outside rfl (rebound_withBinding s id v).size rfl fun hx => get_outside_withBinding hx id v

/-- Leaving bindings brings back what they have hidden. -/
theorem givesBack_withoutBindings (s : Interpreter) (n : Nat) :
    GivesBack x s (s.withoutBindings n) :=
  givesBack_of_outside rfl (rebound_withoutBindings s n).size rfl fun _ => by rw [outside_withoutBindings]

/-- A fresh symbol is no other one. -/
theorem givesBack_withGensym (s : Interpreter) (stem : String) :
    GivesBack x s (s.withGensym stem) := by
  -- A new symbol is entered after all others, so a known one is read as before.
  have hget (hx : x.index < s.image.symbols.size) :
      (s.withGensym stem).image.symbols.get x = s.image.symbols.get x := by
    rcases SymbolTable.get_push (t := s.image.symbols) (i := x) with heq | ⟨heq, _⟩
    · exact heq
    · rw [heq] at hx
      exact absurd hx (Nat.lt_irrefl _)
  have hknown (hx : x.index < s.image.symbols.size) :
      x.index < (s.withGensym stem).image.symbols.size := by
    simp only [withGensym, SymbolTable.size, Array.size_push]
    exact Nat.lt_succ_of_lt hx
  have houtside (hx : x.index < s.image.symbols.size) :
      (s.withGensym stem).outside.get x = s.outside.get x := by
    rw [get_outside hx, get_outside (hknown hx), hget hx]
    rfl
  exact ⟨rfl, hknown, fun hx => by rw [houtside hx], [], (List.append_nil _).symm, fun hx => by
    rw [houtside hx]; rfl⟩

/-- A run in registers of its own gives back what its steps give back. -/
theorem GivesBack.leaving {h : Heap} {env code : Value} (registers : Registers)
    (hrun : GivesBack x (({ s with image.heap := h } : Interpreter).entering env code) s') :
    GivesBack x s (s'.leaving registers) where
  nesting := congrArg (· - 1) hrun.nesting
  known := hrun.known
  depth := hrun.depth
  value := hrun.value

/-- Dynamic bindings and runs give back what they bind. -/
theorem givesBack_mildBindingCongruence :
    MildBindingCongruence fun _ y _ => Steady (GivesBack x) Failure.NoMismatch y where
  toMildCongruence := by
    refine givesBack_steadiness.failsWith.mildCongruence (fun stem => ⟨fun s => leads_gensym.2 ?_⟩) fun id => ⟨fun s => ?_⟩
    · exact givesBack_withGensym s stem
    · rw [SymbolTable.declareSpecial, leads_update]
      split
      · exact fun _ => givesBack_steadiness.still (.refl s)
      · exact givesBack_withSymbol id (fun _ => rfl) fun _ => rfl
  bindSpecial id v := ⟨fun s => leads_bindSpecial.2 (givesBack_withBinding s id v)⟩
  unbindSpecial id := ⟨fun s => by
    rw [leads_unbindSpecial]
    split
    · exact fun _ => givesBack_steadiness.still (.refl s)
    · split
      · exact givesBack_withoutBindings s 1
      · exact fun he => absurd rfl (he _ _)⟩
  unwindBindings height := ⟨fun s => leads_unwindBindings.2 (givesBack_withoutBindings s _)⟩
  execute hrun code args := ⟨fun s => by
    have hR : Steadiness (GivesBack x) := givesBack_steadiness
    -- A run starts without bindings of its own. What it has left at its end, or at its failure, is
    -- outside of those it has made.
    refine leads_execute (fun h _ _ => hR.still ⟨rfl, rfl, rfl, rfl⟩) fun env h _ => ?_
    refine (hrun.leads _).mono (fun _ s₁ h₁ => ⟨fun v s₂ _ h₂ => ?_, fun _ _ => ?_⟩) fun e s₁ h₁ he => ?_
    · exact (hR.trans h₁ (hR.still h₂.toStill)).leaving _
    · exact (hR.trans h₁ (givesBack_withoutBindings s₁ _)).leaving _
    · exact (hR.trans (h₁ he) (givesBack_withoutBindings s₁ _)).leaving _⟩

/-- Everything but assignments and calls gives back what it binds. -/
theorem givesBack_bindingCongruence :
    BindingCongruence fun _ y _ => Steady (GivesBack x) Failure.NoMismatch y :=
  givesBack_mildBindingCongruence.bindingCongruence

/-- Definitions give back what they bind. -/
theorem givesBack_definitionBy {make : SymbolId → Value → Value → LispM FunctionId}
    (hretains : ∀ name params body, Steady Retains (fun _ => True) (make name params body))
    (hmake : ∀ name params body,
      Steady (GivesBack x) Failure.NoMismatch (make name params body))
    (kind : FunctionKind) (args cont : Value) :
    Steady (GivesBack x) Failure.NoMismatch (definitionBy make kind args cont) where
  leads s := by
    have hR : Steadiness (GivesBack x) := givesBack_steadiness
    -- Writing a function cell changes neither values nor bindings; every branch below is made of
    -- such writes and of the compilation of the body.
    have hcell (s : Interpreter) (name : SymbolId) (cell : FunctionCell) :
        GivesBack x s (s.withCell name cell) :=
      givesBack_withSymbol name (fun _ => rfl) fun _ => rfl
    refine leads_definitionBy_of_retains hretains (fun _ _ _ => hR.still (.refl s)) ?_ ?_
    · intro name arity s₁ _ _ h₁ _
      exact hR.trans (hcell s name _) (hR.still h₁.toStill)
    · intro name form params body frame s₁ _ _ _ h₁
      have hbegun : GivesBack x s s₁ := hR.trans (hcell s name _) (hR.still h₁.toStill)
      refine ((hmake name params body).leads s₁).mono (fun f s₂ h₂ _ s₃ h₃ _ => ?_)
        fun e s₂ h₂ _ he => hR.trans hbegun (hR.trans (h₂ he) (hcell s₂ name _))
      have hdefined : GivesBack x s s₃ :=
        hR.trans hbegun (hR.trans h₂ (hR.trans (hcell s₂ name _) (hR.still h₃.toStill)))
      exact ⟨fun _ => hdefined, fun _ _ => hdefined⟩

/-! ## Assignments and calls, after the check -/

/-- An operand is fetched from a pair of the code. -/
theorem leads_operand {ok : Value → Interpreter → Prop} {err : Failure → Interpreter → Prop}
    (refused : (∀ id, s.machine.control ≠ .pair id) → ∀ e, err e s)
    (found : ∀ id, s.machine.control = .pair id →
      ok (s.image.heap.car id) { s with machine.control := s.image.heap.cdr id }) :
    Leads operand s ok err := by
  unfold Leads operand
  cases hcontrol : s.machine.control with
  | pair id => exact found id hcontrol
  | _ => exact refused (by rw [hcontrol]; nofun) _

/-- A symbol is fetched where there is one in the code. -/
theorem leads_operandSymbol {ok : SymbolId → Interpreter → Prop} {err : Failure → Interpreter → Prop}
    (refused : ∀ e s', Still s s' → err e s')
    (found : ∀ id name, s.machine.control = .pair id → (s.image.heap.car id).symbol? = some name →
      ok name { s with machine.control := s.image.heap.cdr id }) : Leads operandSymbol s ok err := by
  unfold operandSymbol
  rw [leads_bind]
  refine leads_operand (fun _ e => refused e s (.refl s)) fun id hid => ?_
  split
  · next name hname => exact found id name hid hname
  · exact refused _ _ ⟨rfl, rfl, rfl, rfl⟩

/-- A number is fetched where there is one in the code. -/
theorem leads_operandIndex {ok : Nat → Interpreter → Prop} {err : Failure → Interpreter → Prop}
    (refused : ∀ e s', Still s s' → err e s')
    (found : ∀ id n, s.machine.control = .pair id → s.image.heap.car id = .int n →
      ok n.toNatClampNeg { s with machine.control := s.image.heap.cdr id }) :
    Leads operandIndex s ok err := by
  unfold operandIndex
  rw [leads_bind]
  refine leads_operand (fun _ e => refused e s (.refl s)) fun id hid => ?_
  split
  · next n hn =>
    split
    · exact found id n hid hn
    · exact refused _ _ ⟨rfl, rfl, rfl, rfl⟩
  · exact refused _ _ ⟨rfl, rfl, rfl, rfl⟩

/-- A peek gives the top of the stack. -/
theorem leads_peek {ok : Value → Interpreter → Prop} {err : Failure → Interpreter → Prop}
    (refused : ∀ e, err e s) (found : ∀ v, s.machine.stack.top? = some v → ok v s) :
    Leads peek s ok err := by
  unfold Leads peek
  cases htop : s.machine.stack.top? with
  | none => exact refused _
  | some v => exact found v htop

/-- A pop takes the top off the stack. -/
theorem leads_pop {ok : Value → Interpreter → Prop} {err : Failure → Interpreter → Prop}
    (refused : ∀ e, err e s)
    (popped : ∀ v below, s.machine.stack.items = v :: below →
      ok v { s with machine.stack := s.machine.stack.drop 1 }) : Leads pop s ok err := by
  unfold Leads pop
  rcases hstack : s.machine.stack with ⟨_ | ⟨v, below⟩, height, hheight⟩
  · exact refused _
  · have hpopped := popped v below (by rw [hstack])
    rw [hstack] at hpopped
    exact hpopped

/-- Values are popped in the order they were pushed in. -/
theorem leads_popMany {n : Nat} {ok : List Value → Interpreter → Prop}
    {err : Failure → Interpreter → Prop} (refused : ∀ e, err e s)
    (popped : ok (s.machine.stack.items.take n).reverse
      { s with machine.stack := s.machine.stack.drop n }) : Leads (popMany n) s ok err := by
  unfold Leads popMany Stack.popMany?
  by_cases hn : s.machine.stack.height < n
  · rw [if_pos hn]
    exact refused _
  · rw [if_neg hn]
    exact popped

/-- What holds of every step: it is refused before its instruction is executed, by the step
    limit or because there is none, or it goes on with that. -/
theorem leads_step {ok : Flow → Interpreter → Prop} {err : Failure → Interpreter → Prop}
    (refused : ∀ e s', (e = .error .stepLimit ∨ ∀ id code, s.machine.control = .pair id →
      s.image.heap.car id ≠ .op code) → Still s s' → err e s')
    (fetched : ∀ {id : PairId} {code : Opcode} {s' : Interpreter}, s.machine.control = .pair id →
      s.image.heap.car id = .op code → s'.machine.control = s.image.heap.cdr id → Alike s s' →
      Still s s' → Leads (execute code) s' ok err) : Leads step s ok err := by
  unfold step
  -- The counter stops the step or is stepped up; nothing else changes before the code is fetched.
  obtain ⟨s₁, h₁, hcontrol, -, hcount⟩ := count_eq s
  have hstill : Still s s₁ := by
    have hquiet := mild_count.leads s
    rcases hcount with hcount | hcount
    · rwa [leads_of_ok hcount] at hquiet
    · rwa [leads_of_error hcount] at hquiet
  rcases hcount with hcount | hcount
  · rw [leads_bind, leads_of_ok hcount, leads_bind]
    unfold fetch
    rw [leads_bind, leads_view]
    split
    · next hnil =>
      refine refused _ s₁ (.inr fun id code hid => ?_) hstill
      rw [hcontrol, hid] at hnil
      cases hnil
    · rw [leads_bind]
      refine leads_operand (fun hnone e => refused e s₁ (.inr fun id code hid => ?_) hstill)
        fun id hid => ?_
      · exact absurd (hcontrol.trans hid) (hnone id)
      split
      · next code hcode =>
        rw [leads_pure, leads_bind, leads_view]
        -- The operation code may be logged first, which changes no marks.
        have hgo (log : Log) (hmarks : log.marks = s₁.image.log.marks) : Leads (execute code) { s₁ with
            machine.control := s₁.image.heap.cdr id
            image.log := log } ok err :=
          fetched (hcontrol.symm.trans hid) (h₁.heap ▸ hcode) (congrArg (Heap.cdr · id) h₁.heap)
            ⟨h₁.heap, h₁.symbols, h₁.primitives, h₁.functions, h₁.scopes, h₁.stack, h₁.env, h₁.dump,
              h₁.exits, h₁.bindings⟩ (hstill.trans ⟨rfl, rfl, rfl, hmarks⟩)
        dsimp only
        split
        · rw [leads_bind]
          exact leads_record nofun fun log hmarks => hgo log hmarks
        · exact hgo s₁.image.log rfl
      · next hcode =>
        refine refused _ _ (.inr fun id' code hid' hop => ?_) (hstill.trans ⟨rfl, rfl, rfl, rfl⟩)
        obtain rfl : id' = id := by simpa [hid'] using hcontrol.symm.trans hid
        exact hcode code (h₁.heap ▸ hop)
  · rw [leads_bind, leads_of_error hcount]
    exact refused _ s₁ (.inl rfl) hstill

/-- From an interpreter, the action gives back what it binds, once a value is marked that it is to
    have assigned. If it fails, it has assigned none. -/
def AssignsAt (x : SymbolId) (s : Interpreter) (v? : Option Value) {α : Type} (y : LispM α) : Prop :=
  Leads y s (fun _ s' => GivesBack x s (s'.noted v?)) fun e s' => e.NoMismatch → GivesBack x s s'

/-- An action that gives the value back assigns nothing. -/
theorem assignsAt_of_steady {α : Type} {y : LispM α} (hy : Steady (GivesBack x) Failure.NoMismatch y) :
    AssignsAt x s none y := hy.leads s

/-- Something that looks at the interpreter, and may take operands off the stack, is done first. -/
theorem AssignsAt.after {α β : Type} {y : LispM α} {f : α → LispM β} {v? : Option Value}
    (hy : Leads y s (fun a s' => Still s s' ∧ AssignsAt x s' v? (f a)) fun _ s' => Still s s') :
    AssignsAt x s v? (y >>= f) := by
  have hR : Steadiness (GivesBack x) := givesBack_steadiness
  refine (leads_bind f).2 (hy.mono (fun a s' ⟨hstill, hf⟩ => ?_) fun _ _ h _ => hR.still h)
  exact Leads.mono hf (fun _ _ h => hR.trans (hR.still hstill) h) fun _ _ h he =>
    hR.trans (hR.still hstill) (h he)

/-- Something that changes nothing is done afterwards, and does not fail. -/
theorem AssignsAt.bind {α β : Type} {y : LispM α} {f : α → LispM β} {v? : Option Value}
    (hy : AssignsAt x s v? y) (hf : ∀ a s', ∃ b s'', f a s' = .ok b s'' ∧ Still s' s'') :
    AssignsAt x s v? (y >>= f) := by
  refine (leads_bind f).2 (Leads.mono hy (fun a s' h => ?_) fun _ _ h => h)
  obtain ⟨b, s'', heq, hstill⟩ := hf a s'
  exact (leads_of_ok heq).2 (givesBack_steadiness.trans h (givesBack_steadiness.still (hstill.noted v?)))

/-- Assigning a symbol. -/
theorem assignsAt_setValue (id : SymbolId) (v : Value) :
    AssignsAt x s (s.outsideValue? x (some (id, v))) (liftM (SymbolTable.setValue id v) : LispM Unit) := by
  unfold AssignsAt
  rw [SymbolTable.setValue, leads_update]
  split
  · exact fun _ => givesBack_steadiness.still (.refl s)
  · exact givesBack_assign s id v

/-- Interpreters that are alike agree on what is assigned outside of bindings. -/
theorem Still.outsideValue? (h : Still s s') (a : Option (SymbolId × Value)) :
    s'.outsideValue? x a = s.outsideValue? x a := by
  have hunbound : s'.Unbound x ↔ s.Unbound x := by
    unfold Unbound
    rw [h.bindings]
  cases a with
  | none => rfl
  | some a => simp only [Interpreter.outsideValue?, hunbound]

/-- The check of a primitive finds what it runs, and changes nothing. -/
theorem leads_checkPrimitive {id : PrimitiveId} {argc : Nat} :
    Leads (checkPrimitive id argc) s
      (fun b s' => (s.image.primitives.get id).builtin = some b ∧ s' = s) fun _ s' => s' = s := by
  unfold checkPrimitive checkArity
  rw [leads_bind, leads_asks, leads_bind, leads_nameOf, leads_bind, leads_ofExcept]
  split
  · split
    · next b hb => exact ⟨hb, rfl⟩
    · rfl
  · rfl

/-- The end of a step only counts it. -/
theorem done_ends (v : Value) (s : Interpreter) : ∃ b s', done v s = .ok b s' ∧ Still s s' :=
  ⟨_, _, rfl, rfl, rfl, rfl, rfl⟩

/-- Calling a primitive. -/
theorem assignsAt_callPrimitive (id : PrimitiveId) (argc : Nat) :
    AssignsAt x s (s.outsideValue? x (s.image.assignmentBy? id s.machine.stack.items)) (callPrimitive id argc) := by
  refine .after (leads_checkPrimitive.mono ?_ fun e s' hs' => hs' ▸ .refl s)
  rintro b s' ⟨hb, rfl⟩
  refine ⟨.refl s', ?_⟩
  -- Only the primitive `set` assigns symbols.
  by_cases hset : b = .set
  · subst hset
    refine .after ?_
    unfold Leads popTwo
    rcases hitems : s'.machine.stack.items with _ | ⟨v, _ | ⟨target, below⟩⟩
    · exact .refl s'
    · exact .refl s'
    · refine ⟨⟨rfl, rfl, rfl, rfl⟩, .after ?_⟩
      unfold symbolArg
      cases htarget : target.symbol? with
      | none =>
        unfold wrongArgument
        rw [leads_bind, leads_shown]
        exact .refl _
      | some name =>
        have hassignment : s'.image.assignmentBy? id (v :: target :: below) = some (name, v) := by
          simp [Image.assignmentBy?, hb, htarget]
        rw [hassignment]
        exact ⟨.refl _, (assignsAt_setValue name v).bind fun _ => done_ends v⟩
  · have hnone : s'.image.assignmentBy? id s'.machine.stack.items = none := by
      unfold Image.assignmentBy?
      split
      · exact if_neg fun h => hset (Option.some.inj (hb.symm.trans h))
      · rfl
    rw [hnone]
    exact assignsAt_of_steady (givesBack_bindingCongruence.runBuiltin hset argc)

/-- Calling the value below some arguments. -/
theorem assignsAt_call (argc : Nat) (mode : CallMode) :
    AssignsAt x s (s.outsideValue? x (s.assignmentByCall? argc)) (call argc mode) := by
  refine .after (leads_popMany (fun _ => .refl s) ⟨⟨rfl, rfl, rfl, rfl⟩, .after ?_⟩)
  refine leads_pop (fun _ => .refl _) fun callee below hitems => ⟨⟨rfl, rfl, rfl, rfl⟩, ?_⟩
  have hrest : s.machine.stack.items.drop argc = callee :: below := by simpa only [Stack.items_drop] using hitems
  -- A primitive is called on the operands put back. To call anything else is to enter it, which
  -- assigns nothing yet.
  by_cases hprimitive : ∃ id, callee = .primitive id
  · obtain ⟨id, rfl⟩ := hprimitive
    have hby : s.assignmentByCall? argc = s.image.assignmentBy? id (s.machine.stack.items.take argc ++ below) := by
      simp only [assignmentByCall?, hrest]
    have hbelow : s.machine.stack.items.drop (argc + 1) = below := by simpa using congrArg (List.drop 1) hrest
    have hoperands : (((s.machine.stack.drop argc).drop 1).pushMany (s.machine.stack.items.take argc).reverse).items =
        s.machine.stack.items.take argc ++ below := by simp [hbelow]
    refine .after (leads_pushMany.2 ⟨⟨rfl, rfl, rfl, rfl⟩, ?_⟩)
    rw [hby, ← hoperands]
    exact assignsAt_callPrimitive id argc
  · have hby : s.assignmentByCall? argc = none := by
      simp only [assignmentByCall?, hrest]
      split
      · next heq => exact absurd ⟨_, (List.cons.inj heq).1⟩ hprimitive
      · rfl
    rw [hby]
    split
    · exact absurd ⟨_, rfl⟩ hprimitive
    · refine assignsAt_of_steady (givesBack_steadiness.failsWith.bind ?_ fun _ => givesBack_steadiness.failsWith.mild (quiet_pure _).mild)
      exact givesBack_bindingCongruence.toTurningCongruence.callFunction ..

/-- An instruction whose code comes next. -/
theorem assignsAt_execute {id : PairId} {code : Opcode} (hid : s.machine.control = .pair id)
    (hcode : s.image.heap.car id = .op code) (hcontrol : s'.machine.control = s.image.heap.cdr id)
    (halike : Alike s s') (hstill : Still s s') :
    AssignsAt x s' (s.outsideValue? x (s.assignment? .next)) (execute code) := by
  -- What is about to be executed can be read off before and after the operation code has been
  -- fetched.
  have hinstr : s.image.heap.instruction? s.machine.control =
      (s'.image.heap.operandsAt code.operandCount s'.machine.control).map
        fun operands => (code, operands.1, operands.2) := by
    rw [hid, hcontrol, halike.heap]
    simp only [Heap.instruction?, hcode]
  have hcalled (n : Nat) : s'.assignmentByCall? n = s.assignmentByCall? n := by
    simp only [assignmentByCall?, Image.assignmentBy?, halike.stack, halike.primitives]
  rw [← hstill.outsideValue?]
  -- An instruction that neither assigns nor calls only binds or unbinds, and is expected to assign
  -- nothing.
  cases hkind : code.isAssignmentOrCall with
  | false =>
    have hnone : s.assignment? .next = none := by
      simp only [assignment?, hinstr]
      split
      case h_5 => rfl
      all_goals
        next heq =>
          obtain ⟨operands, -, heq⟩ := Option.map_eq_some_iff.1 heq
          obtain rfl := (Prod.mk.inj heq).1
          cases hkind
    rw [hnone]
    exact assignsAt_of_steady (givesBack_bindingCongruence.executeInstruction hkind)
  | true =>
    cases code with
    -- For the others, fetching the operands shows that what is assigned is what has been foreseen.
    | setg =>
      refine .after (leads_operandSymbol (fun _ _ h => h) fun pid name hpid hname => ⟨⟨rfl, rfl, rfl, rfl⟩, ?_⟩)
      refine .after (leads_peek (fun _ => .refl _) fun v htop => ⟨.refl _, ?_⟩)
      have hassignment : s.assignment? .next = some (name, v) := by
        simp [assignment?, hinstr, hpid, Opcode.operandCount, Heap.operandsAt, hname, ← halike.stack, htop]
      rw [hassignment]
      exact (assignsAt_setValue name v).bind fun _ s' => ⟨_, _, rfl, .refl s'⟩
    | ap | tap =>
      refine .after (leads_operandIndex (fun _ _ h => h) fun pid n hpid hn => ⟨⟨rfl, rfl, rfl, rfl⟩, ?_⟩)
      have hassignment : s.assignment? .next = s'.assignmentByCall? n.toNatClampNeg := by
        simp [assignment?, hinstr, hpid, Opcode.operandCount, Heap.operandsAt, hn, hcalled]
      rw [hassignment]
      exact assignsAt_call ..
    | callp =>
      refine .after (leads_operand (fun _ _ => .refl _) fun pid hpid => ⟨⟨rfl, rfl, rfl, rfl⟩, ?_⟩)
      split
      · next prim hprim =>
        refine .after (leads_operandIndex (fun _ _ h => h) fun pid' n hpid' hn => ⟨⟨rfl, rfl, rfl, rfl⟩, ?_⟩)
        have hpid' : s'.image.heap.cdr pid = .pair pid' := hpid'
        have hassignment : s.assignment? .next = s'.image.assignmentBy? prim s'.machine.stack.items := by
          simp [assignment?, hinstr, hpid, Opcode.operandCount, Heap.operandsAt, hpid', hprim, Image.assignmentBy?,
            halike.stack, halike.primitives]
        rw [hassignment]
        exact assignsAt_callPrimitive ..
      · exact fun _ => givesBack_steadiness.still (.refl _)
    | _ => cases hkind

/-- Something that may assign the symbol, with the mark for that. -/
theorem givesBack_noting {flow : Flow} {y : LispM Flow}
    (hy : AssignsAt x s (s.outsideValue? x (s.assignment? flow)) y) :
    Leads (noting (fun s _ => s.assignmentMark? x flow) y) s (fun _ s' => GivesBack x s s')
      fun e s' => e.NoMismatch → GivesBack x s s' := by
  unfold noting
  rw [leads_bind, leads_get, leads_bind]
  refine Leads.mono hy (fun flow' s' h => ?_) fun _ _ h => h
  rw [leads_bind, leads_of_ok (markSome_eq _ s')]
  exact h

/-- Steps give back what they bind, with a mark for what they assign. -/
theorem givesBack_notedStep :
    Steady (GivesBack x) Failure.NoMismatch (noting (fun s _ => s.assignmentMark? x .next) step) where
  leads s := by
    refine givesBack_noting (leads_step (fun e s' _ h _ => givesBack_steadiness.still h) ?_)
    intro id code s' hid hcode hcontrol halike hstill
    have hexecute := assignsAt_execute (x := x) hid hcode hcontrol halike hstill
    exact Leads.mono hexecute (fun _ _ h => givesBack_steadiness.trans (givesBack_steadiness.still hstill) h)
      fun _ _ h he => givesBack_steadiness.trans (givesBack_steadiness.still hstill) (h he)

/-- A mark in the log loses nothing. -/
theorem retains_marked (s : Interpreter) (m : Mark) : Retains s (s.marked m) :=
  retains_bindingBlind.rebound (.refl _)

/-- Marks are no symbols. -/
theorem retains_noting {mark? : Interpreter → Interpreter → Option Mark} {y : LispM Flow}
    (hy : Steady Retains (fun _ => True) y) : Steady Retains (fun _ => True) (noting mark? y) where
  leads s := by
    unfold noting
    rw [leads_bind, leads_get, leads_bind]
    refine (hy.leads s).mono (fun flow' s' h => ?_) fun _ _ h => h
    rw [leads_bind, leads_of_ok (markSome_eq _ s')]
    cases mark? s s' with
    | none => exact h
    | some m => exact h.trans (retains_marked s' m)

/-- Runs that mark what they assign give back what they bind, and so does the compiler with such
    runs for the macros. -/
theorem givesBack_marked (fuel : Nat) :
    (∀ form env cont,
      Steady (GivesBack x) Failure.NoMismatch (markedCompile (.assignments x) fuel form env cont)) ∧
    ∀ flow, Steady (GivesBack x) Failure.NoMismatch (markedRun (.assignments x) fuel flow) := by
  have hretains := retains_machineCongruence
  have hcall (argc : Nat) (mode : CallMode) : Steady (GivesBack x) Failure.NoMismatch
      (noting (fun s _ => s.assignmentMark? x (.request (.call argc mode))) (call argc mode)) :=
    ⟨fun s => givesBack_noting (assignsAt_call argc mode)⟩
  -- Runs with marks go along the plain ones, so that their engine retains symbols and gives values
  -- back.
  have hmarked := (givesBack_mildBindingCongruence.toMildCongruence.congruence.retaining
    (fun {make make'} => @givesBack_definitionBy x make)).marked (m := .assignments x)
    givesBack_bindingCongruence.retaining.toReturningCongruence
    ⟨retains_noting hretains.toRunningCongruence.step, givesBack_notedStep⟩
    (fun argc mode => ⟨retains_noting (hretains.toRunningCongruence.call argc mode), hcall argc mode⟩)
    (fun {r y _} hr hy => ⟨retains_noting hy.1, ⟨fun s => ?_⟩⟩) (fun hrun => hrun) fuel
  · exact ⟨fun form env cont => (hmarked.1 form env cont).2, fun flow => (hmarked.2 flow).2⟩
  · have hnone : s.assignment? (.request r) = none := by
      unfold assignment?
      split
      · next heq => cases heq
      · next heq => exact absurd (Flow.request.inj heq) (hr _ _)
      · rfl
    refine givesBack_noting ?_
    rw [hnone]
    exact hy.2.leads s

end

/-! ## Failed runs -/

section

variable {fuel : Nat} {code : Value} {args : List Value} {s s' : Interpreter} {e : Failure}

/-- A failed run has its registers back, and no bindings of its own. -/
theorem registers_of_execute {run : LispM Unit}
    (hrun : Interpreter.execute run code args s = .error e s') :
    s'.machine.toRegisters = s.machine.toRegisters ∧
      s'.machine.bindings.height ≤ s.machine.bindings.height := by
  have hleads : Leads (Interpreter.execute run code args) s (fun _ _ => True) fun _ s' =>
      s'.machine.toRegisters = s.machine.toRegisters ∧
        s'.machine.bindings.height ≤ s.machine.bindings.height := by
    refine leads_execute (fun h _ => ⟨rfl, Nat.le_refl _⟩) fun env h _ => ?_
    have hended (s₁ : Interpreter) : ((s₁.withoutBindings (s₁.machine.bindings.height -
        s.machine.bindings.height)).leaving s.machine.toRegisters).machine.bindings.height ≤
          s.machine.bindings.height := by
      simp only [leaving, withoutBindings, Stack.drop]
      omega
    exact leads_trivial.mono (fun _ s₁ _ => ⟨fun _ _ _ _ => trivial, fun _ => ⟨rfl, hended s₁⟩⟩)
      fun _ s₁ _ => ⟨rfl, hended s₁⟩
  rwa [leads_of_error hrun] at hleads

/-- A failed run fails in the same way when it marks what it assigns, and gives back what it
    binds. -/
theorem marked_of_execute (x : SymbolId) (he : e.NoMismatch)
    (hrun : Interpreter.execute (runFrom fuel .next) code args s = .error e s') :
    ∃ t, Interpreter.execute (markedRun (.assignments x) fuel .next) code args s = .error e t ∧
      Relogged t s' ∧ GivesBack x s t := by
  have hgoes := (relogged_execute ((relogged_assignments x fuel).2 .next) code args).run (.refl s)
  have hrunning : Steady (GivesBack x) Failure.NoMismatch (markedRun (.assignments x) fuel .next) :=
    (givesBack_marked fuel).2 .next
  have hexecute : Steady (GivesBack x) Failure.NoMismatch
      (Interpreter.execute (markedRun (.assignments x) fuel .next) code args) :=
    @(givesBack_bindingCongruence).execute _ (pure ()) hrunning code args
  have hgives := hexecute.leads s
  rw [hrun] at hgoes
  generalize hmarked : Interpreter.execute (markedRun (.assignments x) fuel .next) code args s = r at hgoes
  cases hgoes with
  | error h =>
    rw [leads_of_error hmarked] at hgives
    exact ⟨_, rfl, h, hgives he⟩

end

/-- A run on any code that fails leaves no half-undone binding, unless it ends a binding of
    another symbol than the innermost one: the registers are as before and no binding is left;
    every symbol is bound as often as before, and has the value that it was last assigned outside
    of bindings, or its old one if there is none. The values assigned so are those marked by a
    run that goes as this one does. -/
theorem execute_givesBack (fuel : Nat) (code : Value) (args : List Value) (s s' : Interpreter)
    (e : Failure) (hs : s.machine.bindings.items = [])
    (hrun : Interpreter.execute (runFrom fuel .next) code args s = .error e s') (he : e.NoMismatch) :
    s'.machine.toRegisters = s.machine.toRegisters ∧ s'.machine.nesting = s.machine.nesting ∧
      s'.machine.bindings.items = [] ∧
      ∀ x : SymbolId, x.index < s.image.symbols.size →
        (s'.image.symbols.get x).bindingDepth = (s.image.symbols.get x).bindingDepth ∧
        ∃ t, Interpreter.execute (markedRun (.assignments x) fuel .next) code args s = .error e t ∧
          Relogged t s' ∧
          (s'.image.symbols.get x).value = (t.assignedSince s).getLast?.or (s.image.symbols.get x).value := by
  obtain ⟨hregisters, hheight⟩ := registers_of_execute hrun
  have hs' : s'.machine.bindings.items = [] := by
    rw [s.machine.bindings.height_eq, hs, s'.machine.bindings.height_eq] at hheight
    exact List.length_eq_zero_iff.1 (Nat.le_zero.1 hheight)
  refine ⟨hregisters, ?_, hs', fun x hx => ?_⟩
  · obtain ⟨_, -, ⟨log⟩, hgives⟩ := marked_of_execute ⟨0⟩ he hrun
    exact hgives.nesting
  · obtain ⟨t, hmarked, ⟨log⟩, hgives⟩ := marked_of_execute x he hrun
    -- With no bindings on the stack, what is outside of them is the symbol table itself.
    have hdepth := hgives.depth hx
    rw [outside, outside, hs, hs', SymbolTable.restoreAll_nil, SymbolTable.restoreAll_nil] at hdepth
    exact ⟨hdepth, t, hmarked, .intro t log, hgives.value_eq hs hs' hx⟩

/-- An interpreter with the symbols `a` and `b`, and code in its heap that starts at the last
    pair. -/
def beforeCode (code : List Value) : Interpreter where
  image :=
    { heap := code.foldr (fun v h => h.push v (if h.pairCount = 0 then .nil else .pair ⟨h.pairCount - 1⟩)) default
      symbols := (SymbolTable.initial.insert "a").insert "b" }

/-- `LDC 1 SETG a LDC 2 BIND a LDC 3 SETG a POP POP POP`, where the last instruction finds no
    operand. What was assigned to `a` outside of its binding is its value afterwards. -/
theorem execute_givesBack_afterBinding : ∃ s s' t : Interpreter,
    Interpreter.execute (runFrom 19 .next) (.pair ⟨14⟩) [] s = .error (.error (.fatal .stackUnderflow)) s' ∧
      s'.machine.bindings.items = [] ∧ (s'.image.symbols.get ⟨22⟩).bindingDepth = 0 ∧
      (s'.image.symbols.get ⟨22⟩).value = some (.int 1) ∧
      Relogged t s' ∧ (t.assignedSince s).getLast? = some (.int 1) := by
  -- Three assignments: outside, and inside of a binding, before the stack runs out of values.
  generalize hs : beforeCode [.op .ldc, .int 1, .op .setg, .symbol ⟨22⟩, .op .ldc, .int 2, .op .bind, .symbol ⟨22⟩,
    .op .ldc, .int 3, .op .setg, .symbol ⟨22⟩, .op .pop, .op .pop, .op .pop] = s
  have hfails : Leads (Interpreter.execute (runFrom 19 .next) (.pair ⟨14⟩) []) s (fun _ _ => False)
      fun e s' => e = .error (.fatal .stackUnderflow) ∧ (s'.image.symbols.get ⟨22⟩).value = some (.int 1) := by
    subst hs
    decide +kernel
  cases hrun : Interpreter.execute (runFrom 19 .next) (.pair ⟨14⟩) [] s with
  | ok v s' => exact absurd ((leads_of_ok hrun).1 hfails) not_false
  | error e s' =>
    obtain ⟨rfl, hvalue⟩ := (leads_of_error hrun).1 hfails
    have hback := execute_givesBack 19 (.pair ⟨14⟩) [] s s' _ (by subst hs; rfl) hrun (by intro a b h; cases h)
    have hknown : (⟨22⟩ : SymbolId).index < s.image.symbols.size := by
      subst hs
      decide +kernel
    have hunbound : (s.image.symbols.get ⟨22⟩).bindingDepth = 0 ∧ (s.image.symbols.get ⟨22⟩).value = none := by
      subst hs
      decide +kernel
    obtain ⟨-, -, hbindings, hsymbols⟩ := hback
    obtain ⟨hdepth, t, -, hgoes, hlast⟩ := hsymbols ⟨22⟩ hknown
    rw [hunbound.2, Option.or_none] at hlast
    exact ⟨s, s', t, hrun, hbindings, hdepth.trans hunbound.1, hvalue, hgoes, hlast.symm.trans hvalue⟩

/-- `LDC 1 BIND a LDC 2 BIND b UNBIND a STOP` fails and loses the binding of `b`, which still
    counts as bound and has the value of the binding. -/
theorem unbind_loses_binding : ∃ s : Interpreter,
    s.machine.nesting = 0 ∧ s.machine.bindings.items = [] ∧
      (s.image.symbols.get ⟨23⟩).value = none ∧ (s.image.symbols.get ⟨23⟩).bindingDepth = 0 ∧
      Leads (Interpreter.execute (runFrom 19 .next) (.pair ⟨10⟩) []) s (fun _ _ => False) fun e s' =>
        e = .error (.fatal (.unbindMismatch "a" "b")) ∧ s'.machine.bindings.items = [] ∧
          (s'.image.symbols.get ⟨23⟩).value = some (.int 2) ∧
          (s'.image.symbols.get ⟨23⟩).bindingDepth = 1 := by
  refine ⟨beforeCode [.op .ldc, .int 1, .op .bind, .symbol ⟨22⟩, .op .ldc, .int 2, .op .bind,
    .symbol ⟨23⟩, .op .unbind, .symbol ⟨22⟩, .op .stop], ?_⟩
  decide +kernel

end StackLisp
