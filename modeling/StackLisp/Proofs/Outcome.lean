import StackLisp.Compiler.Emit
import StackLisp.Interpreter.Evaluation

/-!
# Outcomes of actions

Every action of the interpreter, of its image, its heap and its symbols starts
in a state and ends in one, with a result or with a failure. `Leads x s ok err`
says what the end is like: a result and a state in `ok`, or a failure and a
state in `err`.

* `leads_bind`, `leads_attempt`: actions one after the other, and actions whose
  failure is looked at;
* `leads_modifyMachine`, `leads_view`, `leads_query`, ...: the single actions, each
  by what it does to the state;
* `Leads.foldrM`, `Leads.foldlM`, `Leads.mapM`, `Leads.forM`: actions over a list,
  by an invariant that every one of them keeps;
* `Heap.elements?_error`, `Heap.equal_error`, `tailFrom_error`, ...: a walk along the
  heap fails only where it does not come to an end.
-/

namespace StackLisp

open Interpreter Compiler

variable {ε σ α β : Type}

/-- The action `x`, started in `s`, ends in `ok` or fails in `err`. -/
def Leads (x : EStateM ε σ α) (s : σ) (ok : α → σ → Prop) (err : ε → σ → Prop) : Prop :=
  match x s with
  | .ok a s' => ok a s'
  | .error e s' => err e s'

section

variable {x : EStateM ε σ α} {s : σ} {ok ok' : α → σ → Prop} {err err' : ε → σ → Prop}

/-- Less may be asked of an outcome. -/
theorem Leads.mono (h : Leads x s ok err) (hok : ∀ a s', ok a s' → ok' a s')
    (herr : ∀ e s', err e s' → err' e s') : Leads x s ok' err' := by
  unfold Leads at h ⊢
  split at h
  · exact hok _ _ h
  · exact herr _ _ h

/-- Every action leads to something. -/
theorem leads_trivial : Leads x s (fun _ _ => True) fun _ _ => True := by
  unfold Leads
  split <;> trivial

/-- Two things that an action leads to hold of its outcome together. -/
theorem Leads.and (h : Leads x s ok err) (h' : Leads x s ok' err') :
    Leads x s (fun a s' => ok a s' ∧ ok' a s') fun e s' => err e s' ∧ err' e s' := by
  unfold Leads at h h' ⊢
  split <;> simp_all

/-- Where the outcome is known, it has to be as asked. -/
theorem leads_of_ok {a : α} {s' : σ} (hx : x s = .ok a s') : Leads x s ok err ↔ ok a s' := by
  simp only [Leads, hx]

theorem leads_of_error {e : ε} {s' : σ} (hx : x s = .error e s') :
    Leads x s ok err ↔ err e s' := by
  simp only [Leads, hx]

/-- What goes on after a result. -/
theorem bind_of_ok {f : α → EStateM ε σ β} {a : α} {s' : σ} (hx : x s = .ok a s') :
    (x >>= f) s = f a s' := by
  simp only [bind, EStateM.bind, hx]

/-- Nothing is done after a failure. -/
theorem bind_of_error {f : α → EStateM ε σ β} {e : ε} {s' : σ} (hx : x s = .error e s') :
    (x >>= f) s = .error e s' := by
  simp only [bind, EStateM.bind, hx]

/-- The end of an action, as what the action leads to. -/
theorem eq_iff_leads {result : EStateM.Result ε σ α} :
    x s = result ↔
      Leads x s (fun a s' => .ok a s' = result) fun e s' => .error e s' = result := by
  unfold Leads
  split <;> simp_all

/-- What an action leads to can be found out. -/
instance [∀ a s', Decidable (ok a s')] [∀ e s', Decidable (err e s')] :
    Decidable (Leads x s ok err) :=
  match h : x s with
  | .ok a s' => decidable_of_iff (ok a s') (leads_of_ok h).symm
  | .error e s' => decidable_of_iff (err e s') (leads_of_error h).symm

@[simp]
theorem leads_pure (a : α) : Leads (pure a : EStateM ε σ α) s ok err ↔ ok a s := Iff.rfl

@[simp]
theorem leads_throw (e : ε) : Leads (throw e : EStateM ε σ α) s ok err ↔ err e s := Iff.rfl

/-- One action after the other. -/
@[simp]
theorem leads_bind (f : α → EStateM ε σ β) {ok : β → σ → Prop} :
    Leads (x >>= f) s ok err ↔ Leads x s (fun a s' => Leads (f a) s' ok err) err := by
  simp only [Leads, bind, EStateM.bind]
  cases x s <;> rfl

/-- The result is changed before it is asked about. -/
@[simp]
theorem leads_map (f : α → β) {ok : β → σ → Prop} :
    Leads (f <$> x) s ok err ↔ Leads x s (fun a s' => ok (f a) s') err := by
  simp only [Leads, Functor.map, EStateM.map]
  cases x s <;> rfl

@[simp]
theorem leads_get {ok : σ → σ → Prop} : Leads (get : EStateM ε σ σ) s ok err ↔ ok s s := Iff.rfl

@[simp]
theorem leads_modify (f : σ → σ) {ok : Unit → σ → Prop} :
    Leads (modify f : EStateM ε σ Unit) s ok err ↔ ok () (f s) := Iff.rfl

@[simp]
theorem leads_modifyGet (f : σ → α × σ) :
    Leads (modifyGet f : EStateM ε σ α) s ok err ↔ ok (f s).1 (f s).2 := Iff.rfl

end

/-! ## Actions over a list -/

section

variable {err : ε → σ → Prop}

/-- Actions over a list from its end on keep an invariant of what is left. -/
theorem Leads.foldrM {f : α → β → EStateM ε σ β} {inv : List α → β → σ → Prop} :
    ∀ {l : List α} {b : β} {s : σ}, inv [] b s →
      (∀ a rest b s, a :: rest <:+ l → inv rest b s → Leads (f a b) s (inv (a :: rest)) err) →
      Leads (l.foldrM f b) s (inv l) err
  | [], _, _, h, _ => by
    rw [List.foldrM_nil]
    exact h
  | a :: l, b, s, h, hf => by
    rw [List.foldrM_cons, leads_bind]
    refine (Leads.foldrM h fun a' rest b s hs => hf a' rest b s (hs.trans (List.suffix_cons _ _))).mono
      (fun b s hb => hf a l b s (List.suffix_refl _) hb) fun _ _ he => he

/-- Actions over a list from its front on keep an invariant of what is behind. -/
theorem Leads.foldlM {f : β → α → EStateM ε σ β} {inv : β → σ → Prop} :
    ∀ {l : List α} {b : β} {s : σ}, inv b s →
      (∀ a ∈ l, ∀ b s, inv b s → Leads (f b a) s inv err) → Leads (l.foldlM f b) s inv err
  | [], _, _, h, _ => by
    rw [List.foldlM_nil]
    exact h
  | a :: l, b, s, h, hf => by
    rw [List.foldlM_cons, leads_bind]
    exact (hf a List.mem_cons_self b s h).mono
      (fun b s hb => Leads.foldlM hb fun a' ha' => hf a' (List.mem_cons_of_mem _ ha'))
      fun _ _ he => he

/-- Actions on the elements of a list, which keep an invariant. -/
theorem Leads.forM {f : α → EStateM ε σ PUnit} {inv : σ → Prop} :
    ∀ {l : List α} {s : σ}, inv s →
      (∀ a ∈ l, ∀ s, inv s → Leads (f a) s (fun _ s' => inv s') err) →
      Leads (l.forM f) s (fun _ s' => inv s') err
  | [], _, h, _ => h
  | a :: l, s, h, hf => by
    change Leads (f a >>= fun _ => l.forM f) s _ _
    rw [leads_bind]
    exact (hf a List.mem_cons_self s h).mono
      (fun _ s hs => Leads.forM hs fun a' ha' => hf a' (List.mem_cons_of_mem _ ha'))
      fun _ _ he => he

end

/-! ## The single actions of the interpreter -/

theorem get_apply (s : σ) : (get : EStateM ε σ σ) s = .ok s s := rfl

theorem modifyMachine_apply (f : Machine → Machine) (s : Interpreter) :
    modifyMachine f s = .ok () { s with machine := f s.machine } := rfl

theorem modifyScopes_apply (f : Scopes → Scopes) (s : Interpreter) :
    modifyScopes f s = .ok () { s with scopes := f s.scopes } := rfl

theorem fault_apply (f : Fault) (s : Interpreter) :
    (Machine.fault f : LispM α) s = .error (.error (.fatal f)) s := rfl

section

variable {s : Interpreter} {err : Failure → Interpreter → Prop}

@[simp]
theorem leads_raise {ok : α → Interpreter → Prop} (e : Error) :
    Leads (raise e : LispM α) s ok err ↔ err (.error e) s := Iff.rfl

@[simp]
theorem leads_fault {ok : α → Interpreter → Prop} (f : Fault) :
    Leads (Machine.fault f : LispM α) s ok err ↔ err (.error (.fatal f)) s := Iff.rfl

@[simp]
theorem leads_asks {f : Image → α} {ok : α → Interpreter → Prop} :
    Leads (asks f) s ok err ↔ ok (f s.image) s := Iff.rfl

@[simp]
theorem leads_view {f : Machine → α} {ok : α → Interpreter → Prop} :
    Leads (Machine.view f) s ok err ↔ ok (f s.machine) s := Iff.rfl

@[simp]
theorem leads_modifyMachine {f : Machine → Machine} {ok : Unit → Interpreter → Prop} :
    Leads (modifyMachine f) s ok err ↔ ok () { s with machine := f s.machine } := Iff.rfl

@[simp]
theorem leads_modifyScopes {f : Scopes → Scopes} {ok : Unit → Interpreter → Prop} :
    Leads (modifyScopes f) s ok err ↔ ok () { s with scopes := f s.scopes } := Iff.rfl

@[simp]
theorem leads_shown {v : Value} {ok : String → Interpreter → Prop} :
    Leads (shown v) s ok err ↔ ok (s.image.print v) s := Iff.rfl

@[simp]
theorem leads_nameOf {id : SymbolId} {ok : String → Interpreter → Prop} :
    Leads (nameOf id) s ok err ↔ ok (s.image.symbols.name id) s := Iff.rfl

@[simp]
theorem leads_push {v : Value} {ok : Unit → Interpreter → Prop} :
    Leads (Machine.push v) s ok err ↔ ok () { s with machine.stack := s.machine.stack.push v } :=
  Iff.rfl

@[simp]
theorem leads_pushMany {vs : List Value} {ok : Unit → Interpreter → Prop} :
    Leads (Machine.pushMany vs) s ok err ↔
      ok () { s with machine.stack := s.machine.stack.pushMany vs } := Iff.rfl

/-- A view of the image that may be refused. -/
theorem leads_query {f : Image → Except Error α} {ok : α → Interpreter → Prop} :
    Leads (query f) s ok err ↔
      match f s.image with
      | .ok a => ok a s
      | .error e => err (.error e) s := by
  unfold Leads query
  cases f s.image <;> rfl

/-- A view of the image that may be endless. -/
theorem leads_walk {f : Image → Except Failure α} {ok : α → Interpreter → Prop} :
    Leads (walk f) s ok err ↔
      match f s.image with
      | .ok a => ok a s
      | .error e => err e s := by
  unfold Leads walk
  cases f s.image <;> rfl

theorem leads_ofExcept {x : Except Error α} {ok : α → Interpreter → Prop} :
    Leads (Interpreter.ofExcept x) s ok err ↔
      match x with
      | .ok a => ok a s
      | .error e => err (.error e) s := by
  cases x <;> rfl

/-- An action whose failure is looked at. -/
theorem leads_attempt {x : LispM α} {ok : Except Failure α → Interpreter → Prop} :
    Leads (attempt x) s ok err ↔
      Leads x s (fun a s' => ok (.ok a) s') (fun e s' => ok (.error e) s') := by
  unfold Leads attempt
  cases x s <;> rfl

@[simp]
theorem leads_resume_ok {a : α} {ok : α → Interpreter → Prop} :
    Leads (resume (.ok a)) s ok err ↔ ok a s := Iff.rfl

@[simp]
theorem leads_resume_error {e : Failure} {ok : α → Interpreter → Prop} :
    Leads (resume (.error e)) s ok err ↔ err e s := Iff.rfl

/-- An action on the heap is one on the interpreter. -/
theorem leads_heap {x : HeapM α} {ok : α → Interpreter → Prop} :
    Leads (liftM x : LispM α) s ok err ↔
      Leads x s.image.heap (fun a h => ok a { s with image.heap := h })
        (fun e h => err e { s with image.heap := h }) := by
  change Leads (onImage (Image.onHeap x)) s ok err ↔ _
  simp only [Leads, onImage, Image.onHeap]
  cases x s.image.heap <;> rfl

/-- An action on the symbols is one on the interpreter. -/
theorem leads_symbols {x : SymbolM α} {ok : α → Interpreter → Prop} :
    Leads (liftM x : LispM α) s ok err ↔
      Leads x s.image.symbols (fun a t => ok a { s with image.symbols := t })
        (fun e t => err e { s with image.symbols := t }) := by
  change Leads (onImage (Image.onSymbols x)) s ok err ↔ _
  simp only [Leads, onImage, Image.onSymbols]
  cases x s.image.symbols <;> rfl

/-- An action on the image is one on the interpreter. -/
theorem leads_image {x : ImageM α} {ok : α → Interpreter → Prop} :
    Leads (liftM x : LispM α) s ok err ↔
      Leads x s.image (fun a i => ok a { s with image := i })
        (fun e i => err e { s with image := i }) := by
  change Leads (onImage x) s ok err ↔ _
  simp only [Leads, onImage]
  cases x s.image <;> rfl

end

/-! ## Ordinary failures -/

/-- All errors but those that come from one place each: want of steps, which the machine counts,
    and exits without a target, which the compiler refuses. -/
def Error.Ordinary : Error → Prop
  | .stepLimit | .unmatchedTarget _ _ => False
  | _ => True

/-- All failures but those. -/
def Failure.Ordinary : Failure → Prop
  | .error e => e.Ordinary
  | .endless => True

/-- The number of steps has nothing to do with an ordinary failure. -/
theorem Failure.Ordinary.ne_stepLimit {e : Failure} (he : e.Ordinary) : e ≠ .error .stepLimit := by
  rintro rfl
  exact he

/-- Neither have the blocks and tags around a form. -/
theorem Failure.Ordinary.ne_unmatchedTarget {e : Failure} (he : e.Ordinary) (kind : TargetKind)
    (name : String) : e ≠ .error (.unmatchedTarget kind name) := by
  rintro rfl
  exact he

theorem heapOverflow_ne_stepLimit : Failure.error .heapOverflow ≠ .error .stepLimit := nofun

theorem stackUnderflow_ne_stepLimit :
    Failure.error (.fatal .stackUnderflow) ≠ .error .stepLimit := nofun

/-! ## Walks -/

section

variable {h : Heap} {e : Failure}

/-- Going along a list fails only by not ending. -/
theorem Heap.elements?_error {v : Value} (he : h.elements? v = .error e) : e = .endless := by
  unfold elements? at he
  split at he <;> cases he
  rfl

theorem Heap.isProperList_error {v : Value} (he : h.isProperList v = .error e) : e = .endless := by
  unfold isProperList at he
  cases hv : h.elements? v with
  | ok items => simp [hv, Bind.bind, Except.bind, pure, Except.pure] at he
  | error e' =>
    rw [hv] at he
    cases he
    exact elements?_error hv

theorem Heap.lookup_error {key alist : Value} (he : h.lookup key alist = .error e) :
    e = .endless := by
  unfold lookup at he
  generalize h.pairCount + 1 = fuel at he
  fun_induction lookupFrom h key fuel alist with
  | case1 => cases he; rfl
  | case3 _ _ _ _ _ ih | case4 _ _ _ ih => exact ih he
  | _ => cases he

theorem Heap.equal_error {a b : Value} (he : h.equal a b = .error e) : e = .endless := by
  unfold equal at he
  generalize h.pairCount * h.pairCount = fuel at he
  fun_induction equalFrom h fuel a b with
  | case2 => cases he; rfl
  | case4 _ _ _ _ _ _ ih | case5 _ _ _ _ _ ih => exact ih he
  | _ => cases he

/-- The same for the walk past the ends of blocks. -/
theorem tailFrom_error {crossed fuel : Nat} {c : Value}
    (he : tailFrom h crossed fuel c = .error e) : e = .endless := by
  fun_induction tailFrom h crossed fuel c with
  | case1 => cases he; rfl
  | case2 _ _ _ _ _ _ ih => exact ih he
  | _ => cases he

end

/-- A record changes nothing but the log. -/
theorem Image.record_eq (level : LogLevel) (text : Image → String) (image : Image) :
    ∃ log, Image.record level text image = .ok () { image with log } := by
  unfold Image.record
  split
  · exact ⟨_, rfl⟩
  · exact ⟨image.log, rfl⟩

/-- A line for the log never fails and changes nothing else. -/
theorem record_eq (level : LogLevel) (text : Image → String) (s : Interpreter) :
    ∃ log, (liftM (Image.record level text) : LispM Unit) s =
      .ok () { s with image.log := log } := by
  obtain ⟨log, hlog⟩ := Image.record_eq level text s.image
  refine ⟨log, ?_⟩
  change onImage (Image.record level text) s = _
  simp only [onImage, hlog]

end StackLisp
