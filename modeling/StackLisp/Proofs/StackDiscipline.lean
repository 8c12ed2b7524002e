import StackLisp.Proofs.Actions.Watched
import StackLisp.Proofs.Constants

/-!
# The stack discipline of primitives

A primitive takes its arguments off the stack and leaves one value there; the other registers
and the dynamic bindings in force are as before (`LeavesOne`). Most primitives do so in any
state of the machine (`answers_runBuiltin`). Those that compile and run code do it in registers
of their own, and what they run is in order, so that it ends the bindings that it has begun
(`answers_serveFrom`). Their argument may be any value on the stack, also a closure whose frame
is still to be filled, of which nothing is known but that it stands for itself.

Two primitives do not answer themselves. `funcall` and `apply` leave the callee and its
arguments on the stack and go on as a call would (`CallsLike`), as a tail call if a return
comes next; the instructions of calls do the same (`execute_call`).

So it is at every moment of every session, for every primitive (`Session.disciplined_run`).
-/

namespace StackLisp

open Interpreter Layout Machine Compiler

/-! ## What a call of a primitive does -/

/-- Serving a request within a bound. -/
def serveFrom (fuel : Nat) (r : Request) : LispM Flow :=
  serve (compileFrom fuel) (runFrom fuel .next) fuel r

/-- A call of a primitive to its end, what it asks for included. -/
def finishPrimitive (fuel : Nat) (id : PrimitiveId) (argc : Nat) : LispM Flow := do
  match ← callPrimitive id argc with
  | .request r => serveFrom fuel r
  | flow => return flow

/-- The registers but for the stack, and the dynamic bindings, are as before; so is the stack,
    with one value in place of the `argc` topmost ones. -/
structure LeavesOne (argc : Nat) (s s' : Interpreter) : Prop where
  stack : ∃ v, s'.machine.stack = (s.machine.stack.drop argc).push v
  env : s'.machine.env = s.machine.env
  control : s'.machine.control = s.machine.control
  dump : s'.machine.dump = s.machine.dump
  exits : s'.machine.exits = s.machine.exits
  bindings : s'.machine.bindings = s.machine.bindings

/-- The action fails, or puts one value in place of the `argc` topmost ones and goes on. -/
def Answers (argc : Nat) (x : LispM Flow) (s : Interpreter) : Prop :=
  Leads x s (fun flow s' => flow = .next ∧ LeavesOne argc s s') fun _ _ => True

/-- A return comes next, and there is a call to return from. -/
def TailPosition (s : Interpreter) : Prop :=
  (∃ id, s.machine.control = .pair id ∧ s.image.heap.car id = .op .rtn) ∧
    ∃ env code exits, s.machine.dump.top? = some (.call env code exits)

/-- The action does in `s₀` what a call with `argc` arguments does in `s`: a tail call if a
    return comes next. -/
def CallsLike (argc : Nat) (x : LispM Flow) (s₀ s : Interpreter) : Prop :=
  (TailPosition s → x s₀ = call argc .tail s) ∧ (¬TailPosition s → x s₀ = call argc .push s)

/-- What a call of a primitive has to do, with its arguments in the order they were pushed. -/
def Obeys (id : PrimitiveId) (args : List Value) (s : Interpreter) : Prop :=
  match (s.image.primitives.get id).builtin with
  | some .funcall => ∀ fuel, CallsLike (args.length - 1) (finishPrimitive fuel id args.length) s s
  | some .apply =>
    ∃ callee init list, args = callee :: init ++ [list] ∧ ∀ fuel,
      match s.image.heap.elements? list with
      | .ok (some items) => CallsLike (init.length + items.length)
          (finishPrimitive fuel id args.length) s
          { s with machine.stack := (s.machine.stack.drop 1).pushMany items }
      | _ => ∃ e s', finishPrimitive fuel id args.length s = .error e s'
  | _ => ∀ fuel, Answers args.length (finishPrimitive fuel id args.length) s

/-- In the middle of an instruction that was begun in `s`: the step is counted and logged, the
    instruction is behind, and what is on the stack was there before. -/
structure Amid (s s' : Interpreter) : Prop where
  image : ∃ log, s'.image = { s.image with log }
  env : s'.machine.env = s.machine.env
  dump : s'.machine.dump = s.machine.dump
  exits : s'.machine.exits = s.machine.exits
  bindings : s'.machine.bindings = s.machine.bindings
  scopes : s'.scopes = s.scopes
  stack : s'.machine.stack.items ⊆ s.machine.stack.items

/-- Every primitive obeys the stack discipline, whatever values on the stack it is called on, if
    it takes as many. -/
def disciplined : Watch := fun _ _ s =>
  ∀ s' id args base, Amid s s' → s'.machine.stack.items = args.reverse ++ base →
    (s'.image.primitives.get id).arity.accepts args.length → Obeys id args s'

/-! ## Primitives that answer at once -/

section

variable {α β : Type} {s : Interpreter} {argc : Nat}

/-- The action leaves the machine alone. -/
structure Undisturbing (x : LispM α) : Prop where
  leads : ∀ s, Leads x s (fun _ s' => s'.machine = s.machine) fun _ _ => True

/-- Two actions that leave the machine alone. -/
theorem Undisturbing.bind {x : LispM α} {f : α → LispM β} (hx : Undisturbing x)
    (hf : ∀ a, Undisturbing (f a)) : Undisturbing (x >>= f) where
  leads s := by
    rw [leads_bind]
    refine (hx.leads s).mono (fun a s₁ h₁ => ?_) fun _ _ h => h
    exact ((hf a).leads s₁).mono (fun _ _ h₂ => h₂.trans h₁) fun _ _ h => h

theorem undisturbing_pure (a : α) : Undisturbing (pure a : LispM α) := ⟨fun _ => rfl⟩

theorem undisturbing_raise (e : Error) : Undisturbing (raise e : LispM α) := ⟨fun _ => trivial⟩

theorem undisturbing_asks (f : Image → α) : Undisturbing (asks f) := ⟨fun _ => rfl⟩

theorem undisturbing_query (f : Image → Except Error α) : Undisturbing (query f) where
  leads _ := by
    rw [leads_query]
    split
    · rfl
    · trivial

theorem undisturbing_walk (f : Image → Except Failure α) : Undisturbing (walk f) where
  leads _ := by
    rw [leads_walk]
    split
    · rfl
    · trivial

theorem undisturbing_ofExcept (x : Except Error α) : Undisturbing (Interpreter.ofExcept x) := by
  cases x with
  | ok a => exact undisturbing_pure a
  | error e => exact undisturbing_raise e

/-- The heap is no part of the machine. -/
theorem undisturbing_heap (x : HeapM α) : Undisturbing (liftM x : LispM α) where
  leads _ := by
    rw [leads_heap]
    exact leads_trivial.mono (fun _ _ _ => rfl) fun _ _ h => h

/-- Neither are the symbols. -/
theorem undisturbing_symbols (x : SymbolM α) : Undisturbing (liftM x : LispM α) where
  leads _ := by
    rw [leads_symbols]
    exact leads_trivial.mono (fun _ _ _ => rfl) fun _ _ h => h

theorem undisturbing_modify {f : Interpreter → Interpreter}
    (hf : ∀ s, (f s).machine = s.machine) : Undisturbing (modify f : LispM Unit) := ⟨hf⟩

/-- Nor is the source of random numbers. -/
theorem undisturbing_chooseBelow (limit : Int64) : Undisturbing (chooseBelow limit) := ⟨fun _ => rfl⟩

theorem undisturbing_mapM {f : α → LispM β} (hf : ∀ a, Undisturbing (f a)) :
    ∀ l : List α, Undisturbing (l.mapM f)
  | [] => by
    rw [List.mapM_nil]
    exact undisturbing_pure _
  | a :: l => by
    rw [List.mapM_cons]
    exact (hf a).bind fun _ => (undisturbing_mapM hf l).bind fun _ => undisturbing_pure _

theorem undisturbing_wrongArgument (expected : Expectation) (operation : String) (v : Value) :
    Undisturbing (wrongArgument expected operation v : LispM α) :=
  (undisturbing_asks _).bind fun _ => undisturbing_raise _

theorem undisturbing_intArg (operation : String) (v : Value) :
    Undisturbing (intArg operation v) := by
  cases v with
  | int n => exact undisturbing_pure n
  | _ => exact undisturbing_wrongArgument ..

theorem undisturbing_symbolArg (operation : String) (v : Value) :
    Undisturbing (symbolArg operation v) := by
  unfold symbolArg
  split
  · exact undisturbing_pure _
  · exact undisturbing_wrongArgument ..

theorem undisturbing_pairArg (operation : String) (v : Value) :
    Undisturbing (pairArg operation v) := by
  cases v with
  | pair id => exact undisturbing_pure id
  | _ => exact undisturbing_wrongArgument ..

theorem undisturbing_listArg (operation : String) (v : Value) :
    Undisturbing (listArg operation v) := by
  refine (undisturbing_walk _).bind fun items => ?_
  split
  · exact undisturbing_pure _
  · exact undisturbing_wrongArgument ..

/-- Copies are made on the heap. -/
theorem undisturbing_appendLists (tail : Value) :
    ∀ lists : List Value, Undisturbing (appendLists lists tail)
  | [] => undisturbing_pure tail
  | v :: lists => by
    unfold appendLists
    rw [List.foldrM_cons]
    exact (undisturbing_appendLists tail lists).bind fun _ =>
      (undisturbing_listArg ..).bind fun _ => undisturbing_heap _

/-- The action leaves the machine alone, but for one value that it pushes in the end. -/
structure Replies (x : LispM Flow) : Prop where
  answers : ∀ s, Answers 0 x s

/-- A result is pushed. -/
theorem replies_done (v : Value) : Replies (done v) where
  answers _ := ⟨rfl, ⟨v, rfl⟩, rfl, rfl, rfl, rfl, rfl⟩

theorem replies_doneBool (b : Bool) : Replies (doneBool b) := replies_done _

/-- What has been done before does not matter if the machine is as it was. -/
theorem LeavesOne.of_machine {s₁ s₂ : Interpreter} (h : LeavesOne argc s₁ s₂)
    (hmachine : s₁.machine = s.machine) : LeavesOne argc s s₂ where
  stack := hmachine ▸ h.stack
  env := hmachine ▸ h.env
  control := hmachine ▸ h.control
  dump := hmachine ▸ h.dump
  exits := hmachine ▸ h.exits
  bindings := hmachine ▸ h.bindings

/-- What is done before the result is pushed does not touch the stack. -/
theorem Undisturbing.replies {x : LispM α} {f : α → LispM Flow} (hx : Undisturbing x)
    (hf : ∀ a, Replies (f a)) : Replies (x >>= f) where
  answers s := by
    rw [Answers, leads_bind]
    refine (hx.leads s).mono (fun a s₁ h₁ => ?_) fun _ _ h => h
    exact ((hf a).answers s₁).mono (fun _ _ h => ⟨h.1, h.2.of_machine h₁⟩) fun _ _ h => h

theorem Undisturbing.replies_done {x : LispM α} (hx : Undisturbing x) (f : α → Value) :
    Replies (do done (f (← x))) := hx.replies fun a => StackLisp.replies_done (f a)

/-- Arguments are taken off the stack first. -/
theorem Answers.of_drop {x : LispM Flow} {argc : Nat}
    (hx : Answers 0 x { s with machine.stack := s.machine.stack.drop argc }) :
    Leads x { s with machine.stack := s.machine.stack.drop argc }
      (fun flow s' => flow = .next ∧ LeavesOne argc s s') fun _ _ => True :=
  Leads.mono hx (fun _ _ ⟨hflow, h⟩ => ⟨hflow, h.stack, h.env, h.control, h.dump, h.exits,
    h.bindings⟩) fun _ _ h => h

/-- An argument is taken off, and the result takes its place. -/
theorem answers_pop {f : Value → LispM Flow} (hf : ∀ v, Replies (f v)) : Answers 1 (pop >>= f) s := by
  rw [Answers, leads_bind]
  exact leads_pop (fun _ => trivial) fun v _ _ => ((hf v).answers _).of_drop

/-- The same for two arguments. -/
theorem answers_popTwo {f : Value × Value → LispM Flow} (hf : ∀ p, Replies (f p)) :
    Answers 2 (popTwo >>= f) s := by
  rw [Answers, leads_bind]
  unfold Leads popTwo
  split
  · next heq =>
    split at heq <;> cases heq
    exact ((hf _).answers _).of_drop
  · trivial

/-- And for any number of them. -/
theorem answers_popMany {f : List Value → LispM Flow} (hf : ∀ vs, Replies (f vs)) :
    Answers argc (popMany argc >>= f) s := by
  rw [Answers, leads_bind]
  exact leads_popMany (fun _ => trivial) ((hf _).answers _).of_drop

theorem answers_predicate (f : Value → Bool) : Answers 1 (predicate f) s :=
  answers_pop fun _ => replies_doneBool _

/-- A calculation takes its operands off at once. -/
theorem answers_arithmetic (operation : String) (f : List Int64 → Except Error Int64) :
    Answers argc (arithmetic operation argc f) s :=
  answers_popMany fun vs => (undisturbing_mapM (undisturbing_intArg operation) vs).replies fun ns =>
    (undisturbing_ofExcept (f ns)).replies_done .int

theorem answers_arithmeticOne (operation : String) (f : Int64 → Except Error Int64) :
    Answers 1 (arithmeticOne operation f) s :=
  answers_pop fun v => (undisturbing_intArg operation v).replies fun n =>
    (undisturbing_ofExcept (f n)).replies_done .int

theorem answers_comparison (operation : String) (f : List Int64 → Bool) :
    Answers argc (comparison operation argc f) s :=
  answers_popMany fun vs => (undisturbing_mapM (undisturbing_intArg operation) vs).replies fun _ =>
    replies_doneBool _

end

/-- Whether a primitive leaves its result to something else. -/
def Builtin.isRequest : Builtin → Bool
  | .funcall | .apply | .macroexpandOnce | .macroexpand | .eval => true
  | _ => false

/-- A primitive that does not leave its result to something else answers at once, in any state. -/
theorem answers_runBuiltin {b : Builtin} {argc : Nat} (hb : b.Takes argc)
    (hrequest : b.isRequest = false) (s : Interpreter) : Answers argc (runBuiltin b argc) s := by
  -- Each primitive pops its arguments, looks at things that are not on the stack, and pushes its
  -- result.
  cases b with
  | cons =>
    obtain rfl : argc = 2 := hb
    refine answers_popTwo fun (a, d) => ?_
    exact (undisturbing_heap _).replies_done id
  | car | cdr =>
    obtain rfl : argc = 1 := hb
    refine answers_pop fun v => ?_
    exact (undisturbing_query _).replies_done id
  | rplaca | rplacd =>
    obtain rfl : argc = 2 := hb
    refine answers_popTwo fun (x, v) => ?_
    refine (undisturbing_pairArg ..).replies fun id => ?_
    exact (undisturbing_heap _).replies fun _ => replies_done x
  | list | listStar =>
    refine answers_popMany fun args => ?_
    exact (undisturbing_heap _).replies_done id
  | append =>
    refine answers_popMany fun args => ?_
    exact (undisturbing_appendLists ..).replies_done id
  | length =>
    obtain rfl : argc = 1 := hb
    refine answers_pop fun v => ?_
    exact (undisturbing_listArg ..).replies fun items => replies_done _
  | reverse =>
    obtain rfl : argc = 1 := hb
    refine answers_pop fun v => ?_
    refine (undisturbing_listArg ..).replies fun items => ?_
    exact (undisturbing_heap _).replies_done id
  | eq =>
    obtain rfl : argc = 2 := hb
    exact answers_popTwo fun (a, d) => replies_doneBool _
  | equal =>
    obtain rfl : argc = 2 := hb
    refine answers_popTwo fun (a, d) => ?_
    exact (undisturbing_walk _).replies fun same => replies_doneBool same
  | atom | consp | listp | symbolp | numberp | null =>
    obtain rfl : argc = 1 := hb
    exact answers_predicate _
  | functionp =>
    obtain rfl : argc = 1 := hb
    refine answers_pop fun v => ?_
    cases v with
    | function f => exact (undisturbing_asks _).replies fun function => replies_doneBool _
    | _ => exact replies_doneBool _
  | add | sub | mul | min | max => exact answers_arithmetic ..
  | mod =>
    obtain rfl : argc = 2 := hb
    refine answers_popTwo fun (a, b) => ?_
    refine (undisturbing_intArg "mod" a).replies fun m => ?_
    refine (undisturbing_intArg "mod" b).replies fun n => ?_
    exact (undisturbing_ofExcept _).replies_done .int
  | inc | dec | abs =>
    obtain rfl : argc = 1 := hb
    exact answers_arithmeticOne ..
  | numEq | numNe | lt | gt | le | ge => exact answers_comparison ..
  | zerop =>
    obtain rfl : argc = 1 := hb
    refine answers_pop fun v => ?_
    exact (undisturbing_intArg ..).replies fun n => replies_doneBool _
  | random =>
    obtain rfl : argc = 1 := hb
    refine answers_pop fun v => ?_
    refine (undisturbing_intArg ..).replies fun limit => ?_
    have hchosen := (undisturbing_chooseBelow limit).replies_done .int
    split
    · exact (undisturbing_raise _).replies fun _ => hchosen
    · exact hchosen
  | print =>
    obtain rfl : argc = 1 := hb
    refine answers_pop fun v => ?_
    refine (undisturbing_asks _).replies fun text => ?_
    exact (undisturbing_modify (by exact fun _ => rfl)).replies fun _ => replies_done v
  | error =>
    refine answers_popMany fun vs => ?_
    refine (undisturbing_mapM (fun v => undisturbing_asks _) vs).replies fun texts => ?_
    exact (undisturbing_raise _).replies replies_done
  | symbolValue | symbolFunction =>
    obtain rfl : argc = 1 := hb
    refine answers_pop fun v => ?_
    refine (undisturbing_symbolArg ..).replies fun id => ?_
    exact (undisturbing_query _).replies_done _
  | set =>
    obtain rfl : argc = 2 := hb
    refine answers_popTwo fun (x, v) => ?_
    refine (undisturbing_symbolArg ..).replies fun id => ?_
    exact (undisturbing_symbols _).replies fun _ => replies_done v
  | fboundp =>
    obtain rfl : argc = 1 := hb
    refine answers_pop fun v => ?_
    refine (undisturbing_symbolArg ..).replies fun id => ?_
    refine (undisturbing_asks _).replies fun cell => ?_
    split <;> exact replies_doneBool _
  | boundp =>
    obtain rfl : argc = 1 := hb
    refine answers_pop fun v => ?_
    refine (undisturbing_symbolArg ..).replies fun id => ?_
    exact (undisturbing_asks _).replies fun bound => replies_doneBool bound
  | gensym =>
    refine answers_popMany fun vs => ?_
    cases vs with
    | nil =>
      refine (undisturbing_pure "g").replies fun stem => ?_
      exact (undisturbing_symbols _).replies_done .symbol
    | cons v vs =>
      refine (undisturbing_symbolArg ..).replies fun id => ?_
      refine (undisturbing_asks _).replies fun stem => ?_
      exact (undisturbing_symbols _).replies_done .symbol
  | funcall | apply | macroexpandOnce | macroexpand | eval => cases hrequest

/-! ## Primitives that compile and run -/

section

variable {n : Nat} {L : Layout} {rest : List SavedValue} {K : Trail} {s s' : Interpreter}
  {flow : Flow} {fuel argc : Nat}

/-- The action fails, or gives a value with the registers and the bindings as before. -/
def Computes (x : LispM Value) (s : Interpreter) : Prop :=
  Leads x s (fun _ s' => s'.machine.toRegisters = s.machine.toRegisters ∧
    s'.machine.bindings = s.machine.bindings) fun _ _ => True

/-- A value that is computed elsewhere is pushed. -/
theorem Computes.answers {x : LispM Value} (hx : Computes x s) : Answers 0 (do done (← x)) s := by
  rw [Answers, leads_bind]
  refine hx.mono (fun v s₁ ⟨hregisters, hbindings⟩ => ?_) fun _ _ h => h
  rw [done, leads_bind, leads_push, leads_pure]
  exact ⟨rfl, ⟨v, congrArg (·.stack.push v) hregisters⟩, congrArg (·.env) hregisters,
    congrArg (·.control) hregisters, congrArg (·.dump) hregisters, congrArg (·.exits) hregisters,
    hbindings⟩

/-- Where a program is in order, it ends the bindings that it begins. -/
theorem computes_of_safe {x : LispM Value} {post : Layout → Value → Interpreter → Prop}
    (hx : Safe Evolves L x s post) : Computes x s :=
  Leads.mono hx (fun _ _ ⟨_, e, _⟩ => ⟨e.registers, e.bindings⟩) fun _ _ _ => trivial

/-- A closure is compiled as a constant. -/
theorem leads_compileApart_closure (hs : Sound L s) (id : PairId) :
    Leads (compileApart (compileFrom (fuel + 1)) (.closure id)) s
      (fun c s' => (∃ (L' : Layout) (k : Value), L'.Instr s'.image.heap .ldc [.closure id] c k ∧
          L'.Instr s'.image.heap .stop [] k .nil) ∧
        s'.machine.toRegisters = s.machine.toRegisters ∧ s'.machine.bindings = s.machine.bindings)
      fun _ _ => True := by
  unfold compileApart
  rw [leads_bind, leads_get, leads_bind, leads_modifyScopes, leads_bind, leads_attempt]
  have hs₁ : Sound L { s with scopes := {} } := hs.scopes ⟨nofun, nofun⟩
  refine (leads_compileToplevel_constant hs₁ rfl fun _ _ => ?_).mono ?_ ?_
  · rw [compileFrom]
    rfl
  · rintro code s₂ ⟨L₂, k, e, hldc, hstop⟩
    rw [leads_bind, leads_modifyScopes, leads_resume_ok]
    exact ⟨⟨L₂, k, hldc, hstop⟩, e.registers, e.bindings⟩
  · intro e s₂ _
    rw [leads_bind, leads_modifyScopes, leads_resume_error]
    trivial

/-- What answers within a greater bound answers, or comes to no end. -/
theorem Answers.serveFrom_of_succ {r : Request} (h : Answers 0 (serveFrom (fuel + 1) r) s) :
    Answers 0 (serveFrom fuel r) s := by
  obtain ⟨hc, hr⟩ := agree_engine fuel
  rcases (agree_serve hc (hr .next) fuel r).agrees s with heq | ⟨s', heq⟩
  · rwa [Answers, serveFrom, Leads, heq]
  · exact (leads_of_error heq).2 trivial

/-- A closure evaluates to itself. -/
theorem answers_eval_closure (hs : Sound L s) (id : PairId) :
    Answers 0 (serveFrom fuel (.eval (.closure id))) s := by
  refine .serveFrom_of_succ (.serveFrom_of_succ (.serveFrom_of_succ ?_))
  have hcomputes : Computes (compileApart (compileFrom (fuel + 3)) (.closure id) >>= fun code =>
      execute (runFrom (fuel + 3) .next) code []) s := by
    rw [Computes, leads_bind]
    refine (leads_compileApart_closure hs id).mono ?_ fun _ _ h => h
    rintro code s₁ ⟨⟨L₁, k, hldc, hstop⟩, hregisters, hbindings⟩
    refine leads_execute (fun h hargs => nomatch hargs) fun env h hargs => ?_
    cases hargs
    refine Leads.mono (leads_runFrom_constant (c := code) rfl rfl hldc hstop)
      (fun _ s₂ hran => ⟨fun v s₃ _ hcalm => ?_, fun _ => trivial⟩) fun _ _ _ => trivial
    exact ⟨hregisters, hcalm.bindings.trans (hran.2.trans hbindings)⟩
  have hanswers := hcomputes.answers
  rwa [bind_assoc] at hanswers

/-- The values on the stack are visible, or closures whose frames are still to be filled. -/
def Layout.OnStack (L : Layout) (v : Value) : Prop := L.Visible v ∨ ∃ id, v = .closure id

/-- A request for the value of a form is answered. -/
theorem answers_serveFrom (hs : Sound L s) {r : Request} {form : Value} (hform : L.OnStack form)
    (hr : r = .macroexpandOnce form ∨ r = .macroexpand form ∨ r = .eval form) :
    Answers 0 (serveFrom fuel r) s := by
  obtain ⟨hc, hrun⟩ := compiles_and_runs fuel
  have hruns : RunsInOrder (runFrom fuel .next) := fun hr => hrun hr
  -- Data is expanded or evaluated in order. A closure that is pending is a value for these
  -- requests, and evaluates to itself.
  rcases hform with hform | ⟨id, rfl⟩
  · rcases hr with rfl | rfl | rfl
    · have hfirst (L₁ : Layout) (p : Value × Bool) (s₁ : Interpreter) (e : Evolves L s L₁ s₁)
          (_ : L₁.Visible p.1) : Safe Evolves L₁ (pure p.1) s₁ fun _ _ _ => True :=
        .pure e.sound.evolves trivial
      have hx := (safe_macroexpandOnce hruns.expands hs hform).bind hfirst
      have hanswers := (computes_of_safe hx).answers
      rwa [bind_assoc] at hanswers
    · exact (computes_of_safe (safe_macroexpandFrom hruns.expands hs hform)).answers
    · have hx := (safe_compileApart hc hs hform).bind fun _ _ _ e hcode =>
        safe_executeCode hruns e.sound hcode
      have hanswers := (computes_of_safe hx).answers
      rwa [bind_assoc] at hanswers
  · rcases hr with rfl | rfl | rfl
    · exact (replies_done _).answers s
    · cases fuel with
      | zero => trivial
      | succ fuel => exact (replies_done _).answers s
    · exact answers_eval_closure hs id

/-- What is on the stack of a level is visible, but for the closure of a `letrec`. -/
theorem Operate.onStack {h : Heap} {st : List Slot} {vs : List Value} {fs : List (FrameId × Nat)}
    (ho : Operate L h st vs fs) : ∀ v ∈ vs, L.OnStack v := by
  induction ho with
  | nil => nofun
  | value visible _ ih => exact List.forall_mem_cons.2 ⟨.inl visible, ih⟩
  | pending _ _ _ _ _ _ _ ih => exact List.forall_mem_cons.2 ⟨.inr ⟨_, rfl⟩, ih⟩

/-- The operands of all levels, one after the other. -/
theorem Trail.Valid.onStack {h : Heap} : ∀ {K : Trail}, K.Valid L h → ∀ v ∈ K.operands, L.OnStack v
  | [], _ => nofun
  | _ :: _, ⟨hl, hK⟩ => by
    intro v hv
    rcases List.mem_append.1 hv with hv | hv
    · exact hl.operands.onStack v hv
    · exact hK.onStack v hv

/-- The stack of a machine in order holds the operands of the current level and of those around
    it. -/
theorem Inside.onStack {env : List FrameShape} {st : List Slot}
    (hi : Inside n L rest K env st s) : ∀ v ∈ s.machine.stack.items, L.OnStack v := by
  obtain ⟨vs, fs, ho, hstack, -⟩ := hi.operands
  intro v hv
  rw [hstack] at hv
  rcases List.mem_append.1 hv with hv | hv
  · exact ho.onStack v hv
  · exact hi.valid.onStack v hv

/-! ## Calls of primitives -/

variable {id : PrimitiveId} {b : Builtin} {args base : List Value}

/-- A primitive is called on a number of arguments that it takes. -/
theorem checkPrimitive_eq (hb : (s.image.primitives.get id).builtin = some b)
    (haccepts : (s.image.primitives.get id).arity.accepts argc) :
    checkPrimitive id argc s = .ok b s := by
  simp [checkPrimitive, checkArity, asks, nameOf, bind, EStateM.bind, hb, Interpreter.ofExcept,
    Arity.check, haccepts]
  rfl

/-- What the primitive itself does comes first, and then what it asks for. -/
theorem finishPrimitive_eq (hb : (s.image.primitives.get id).builtin = some b)
    (haccepts : (s.image.primitives.get id).arity.accepts argc) :
    finishPrimitive fuel id argc s = (do
      match ← runBuiltin b argc with
      | .request r => serveFrom fuel r
      | flow => return flow) s := by
  unfold finishPrimitive callPrimitive
  rw [bind_assoc, bind_of_ok (checkPrimitive_eq hb haccepts)]

theorem pop_eq {v : Value} {below : List Value} (hstack : s.machine.stack.items = v :: below) :
    pop s = .ok v { s with machine.stack := s.machine.stack.drop 1 } := by
  have hpop : s.machine.stack.pop? = some (v, s.machine.stack.drop 1) := by
    generalize s.machine.stack = stack at hstack
    obtain ⟨items, height, hheight⟩ := stack
    obtain rfl : items = v :: below := hstack
    rfl
  simp only [pop, hpop]

/-- The continuation of a primitive begins with a return. -/
theorem continuationMode_tail (h : TailPosition s) : continuationMode s = .ok .tail s := by
  obtain ⟨⟨id, hcontrol, hrtn⟩, env, code, exits, htop⟩ := h
  simp [continuationMode, bind, EStateM.bind, pure, EStateM.pure, view, asks, htop, hcontrol, hrtn]

/-- It does not, or there is no call to return from. -/
theorem continuationMode_push (h : ¬TailPosition s) : continuationMode s = .ok .push s := by
  rcases htop : s.machine.dump.top? with _ | ⟨env, code, exits⟩ | code
  · simp [continuationMode, bind, EStateM.bind, pure, EStateM.pure, view, asks, htop]
  · have hreturns : ∀ id, s.machine.control = .pair id → s.image.heap.car id ≠ .op .rtn :=
      fun id hcontrol hrtn => h ⟨⟨id, hcontrol, hrtn⟩, env, code, exits, htop⟩
    cases hcontrol : s.machine.control with
    | pair id =>
      simp [continuationMode, bind, EStateM.bind, pure, EStateM.pure, view, asks, htop, hcontrol,
        hreturns id hcontrol]
    | _ => simp [continuationMode, bind, EStateM.bind, pure, EStateM.pure, view, asks, htop, hcontrol]
  · simp [continuationMode, bind, EStateM.bind, pure, EStateM.pure, view, asks, htop]

/-- What goes on as a call, where the continuation tells how, does what a call does. -/
theorem callsLike_continuation (argc : Nat) (s : Interpreter) :
    CallsLike argc (do call argc (← continuationMode)) s s :=
  ⟨fun h => bind_of_ok (continuationMode_tail h), fun h => bind_of_ok (continuationMode_push h)⟩

/-- A list is gone along to its end. -/
theorem listArg_eq {operation : String} {v : Value} {items : List Value}
    (h : s.image.heap.elements? v = .ok (some items)) : listArg operation v s = .ok items s := by
  simp [listArg, elements?, walk, bind, EStateM.bind, h]
  rfl

/-- What is no list, or has no end, is refused or does not end. -/
theorem listArg_fails (operation : String) {v : Value}
    (h : ∀ items, s.image.heap.elements? v ≠ .ok (some items)) :
    ∃ e s', listArg operation v s = .error e s' := by
  unfold listArg elements? walk
  simp only [bind, EStateM.bind]
  rcases hitems : s.image.heap.elements? v with e | _ | items
  · exact ⟨e, s, rfl⟩
  · exact ⟨_, s, rfl⟩
  · exact absurd hitems (h items)

/-- `funcall` goes on as the call of its first argument on the others. -/
theorem callsLike_funcall (hb : (s.image.primitives.get id).builtin = some .funcall)
    (haccepts : (s.image.primitives.get id).arity.accepts (argc + 1)) :
    CallsLike argc (finishPrimitive fuel id (argc + 1)) s s := by
  have hfuncall : runBuiltin .funcall (argc + 1) = do
      return .request (.call argc (← continuationMode)) := by
    simp [runBuiltin]
  rw [CallsLike, finishPrimitive_eq hb haccepts, hfuncall]
  simp only [bind_assoc, pure_bind]
  exact callsLike_continuation argc s

/-- `apply` spreads its last argument and goes on as the call of its first one. -/
theorem finishPrimitive_apply {list : Value} {below : List Value}
    (hb : (s.image.primitives.get id).builtin = some .apply)
    (haccepts : (s.image.primitives.get id).arity.accepts (argc + 2))
    (hstack : s.machine.stack.items = list :: below) :
    match s.image.heap.elements? list with
    | .ok (some items) => CallsLike (argc + items.length) (finishPrimitive fuel id (argc + 2)) s
        { s with machine.stack := (s.machine.stack.drop 1).pushMany items }
    | _ => ∃ e s', finishPrimitive fuel id (argc + 2) s = .error e s' := by
  have heq : finishPrimitive fuel id (argc + 2) s = _ := finishPrimitive_eq hb haccepts
  simp only [runBuiltin, bind_assoc] at heq
  rw [bind_of_ok (pop_eq hstack)] at heq
  -- With a proper list, its items take the place of the list. With anything else, the primitive
  -- fails before it calls.
  split
  · next items hitems =>
    have hfew : ¬argc + 2 + items.length < 2 := by omega
    have hcount : argc + 2 + items.length - 2 = argc + items.length := by omega
    rw [bind_of_ok (listArg_eq (s := { s with machine.stack := s.machine.stack.drop 1 }) hitems)] at heq
    simp only [hfew, if_false, hcount, bind_assoc, pure_bind] at heq
    rw [CallsLike, heq]
    exact callsLike_continuation (argc + items.length)
      { s with machine.stack := (s.machine.stack.drop 1).pushMany items }
  · next hitems =>
    obtain ⟨e, s', hfails⟩ := listArg_fails "apply"
      (s := { s with machine.stack := s.machine.stack.drop 1 }) hitems
    exact ⟨e, s', heq.trans (bind_of_error hfails)⟩

/-- A primitive that answers at once has nothing left to be served. -/
theorem Answers.finishPrimitive (hb : (s.image.primitives.get id).builtin = some b)
    (haccepts : (s.image.primitives.get id).arity.accepts argc)
    (hanswers : Answers argc (runBuiltin b argc) s) :
    Answers argc (finishPrimitive fuel id argc) s := by
  rw [Answers, Leads, finishPrimitive_eq hb haccepts]
  refine (leads_bind _).2 (Leads.mono hanswers ?_ fun _ _ h => h)
  rintro _ s' ⟨rfl, h⟩
  exact ⟨rfl, h⟩

/-- A primitive that asks for the value of a form answers with it. -/
theorem answers_finishPrimitive_form {form : Value} {r : Value → Request}
    (hs : Sound L s) (hform : L.OnStack form) (hstack : s.machine.stack.items = form :: base)
    (hb : (s.image.primitives.get id).builtin = some b)
    (haccepts : (s.image.primitives.get id).arity.accepts 1)
    (hrun : runBuiltin b 1 = do return .request (r (← pop)))
    (hr : r form = .macroexpandOnce form ∨ r form = .macroexpand form ∨ r form = .eval form) :
    Answers 1 (finishPrimitive fuel id 1) s := by
  rw [Answers, Leads, finishPrimitive_eq hb haccepts, hrun, bind_assoc, bind_of_ok (pop_eq hstack)]
  have hs₁ : Sound L { s with machine.stack := s.machine.stack.drop 1 } := hs.registers rfl
  exact (answers_serveFrom hs₁ hform hr).of_drop

/-- A primitive of compile time is not called. -/
theorem answers_of_no_builtin (hb : (s.image.primitives.get id).builtin = none) :
    Answers argc (finishPrimitive fuel id argc) s := by
  unfold Answers StackLisp.finishPrimitive callPrimitive
  rw [leads_bind, leads_bind]
  refine leads_checkPrimitive.mono (fun b s' h => ?_) fun _ _ _ => trivial
  cases hb.symm.trans h.1

/-- One case for `funcall`, one for `apply`, those that ask for the value of a form, and the rest,
    which answer at once. -/
theorem obeys (hs : Sound L s) (hargs : ∀ v ∈ args, L.OnStack v)
    (hstack : s.machine.stack.items = args.reverse ++ base)
    (haccepts : (s.image.primitives.get id).arity.accepts args.length) : Obeys id args s := by
  have htakes := fun b hb => hs.primitives id b args.length hb haccepts
  unfold Obeys
  split
  · next hb =>
    intro fuel
    have hargc : 1 ≤ args.length := htakes _ hb
    obtain ⟨argc, hargc⟩ : ∃ argc, args.length = argc + 1 := ⟨args.length - 1, by omega⟩
    rw [hargc] at haccepts ⊢
    exact callsLike_funcall hb haccepts
  · next hb =>
    have hargc : 2 ≤ args.length := htakes _ hb
    obtain ⟨callee, rest, rfl⟩ := List.exists_cons_of_length_pos (Nat.lt_of_lt_of_le Nat.zero_lt_two hargc)
    obtain rfl | ⟨init, list, rfl⟩ := rest.eq_nil_or_concat
    · simp at hargc
    rw [List.concat_eq_append] at hstack haccepts ⊢
    refine ⟨callee, init, list, rfl, fun fuel => ?_⟩
    have hlength : (callee :: (init ++ [list])).length = init.length + 2 := by simp
    rw [hlength] at haccepts ⊢
    have hspread : s.machine.stack.items = list :: (init.reverse ++ callee :: base) :=
      hstack.trans (by simp)
    exact finishPrimitive_apply hb haccepts hspread
  · next hfuncall happly =>
    intro fuel
    cases hb : (s.image.primitives.get id).builtin with
    | none => exact answers_of_no_builtin hb
    | some b =>
    cases hrequest : b.isRequest with
    | false => exact .finishPrimitive hb haccepts (answers_runBuiltin (htakes b hb) hrequest s)
    | true =>
    -- The others that ask for something take one form.
    have hform (hargc : args.length = 1) (r : Value → Request)
        (hrun : runBuiltin b 1 = do return .request (r (← pop)))
        (hr : ∀ form, r form = .macroexpandOnce form ∨ r form = .macroexpand form ∨
          r form = .eval form) : Answers args.length (finishPrimitive fuel id args.length) s := by
      obtain ⟨form, rfl⟩ := List.length_eq_one_iff.1 hargc
      exact answers_finishPrimitive_form hs (hargs form List.mem_cons_self) hstack hb haccepts hrun
        (hr form)
    cases b with
    | funcall => exact absurd hb hfuncall
    | apply => exact absurd hb happly
    | macroexpandOnce => exact hform (htakes _ hb) .macroexpandOnce rfl fun _ => .inl rfl
    | macroexpand => exact hform (htakes _ hb) .macroexpand rfl fun _ => .inr (.inl rfl)
    | eval => exact hform (htakes _ hb) .eval rfl fun _ => .inr (.inr rfl)
    | _ => cases hrequest

/-- In the middle of an instruction the interpreter is still in order. -/
theorem Amid.sound (ha : Amid s s') (hs : Sound L s) : Sound L s' := by
  obtain ⟨log, himage⟩ := ha.image
  apply hs.apart _ _ _ _ ha.bindings ha.scopes <;> rw [himage]

/-- So it is at every moment of a run. -/
theorem disciplined_of_flows {entries : List Interpreter} (hf : Flows n L rest K flow s) :
    disciplined entries flow s := by
  intro s' id args base ha hstack haccepts
  obtain ⟨env, st, hi, -⟩ := hf.inside
  refine obeys (ha.sound hi.sound) (fun v hv => hi.onStack v (ha.stack ?_)) hstack haccepts
  rw [hstack]
  exact List.mem_append_left _ (List.mem_reverse.2 hv)

end

/-! ## Instructions and sessions -/

/-- The instruction of a call makes the call, once it has read how many arguments there are. -/
theorem execute_call {s : Interpreter} {id : PairId} {argc : Nat} (hcontrol : s.machine.control = .pair id)
    (hcount : (s.image.heap.car id).count? = some argc) :
    execute .ap s = call argc .push { s with machine.control := s.image.heap.cdr id } ∧
      execute .tap s = call argc .tail { s with machine.control := s.image.heap.cdr id } := by
  have hindex : operandIndex s = .ok argc { s with machine.control := s.image.heap.cdr id } := by
    have hoperand : operand s =
        .ok (s.image.heap.car id) { s with machine.control := s.image.heap.cdr id } := by
      simp only [operand, hcontrol]
    rw [operandIndex, bind_of_ok hoperand]
    unfold Value.count? at hcount
    split at hcount
    · next n hn =>
      split at hcount
      · next hle =>
        obtain rfl := Option.some.inj hcount
        simp only [hn, hle, if_true]
        rfl
      · cases hcount
    · cases hcount
  exact ⟨bind_of_ok hindex, bind_of_ok hindex⟩

/-- Primitives obey the stack discipline at every moment of every session: checking it changes
    nothing. Where they make calls, these are the calls of the instructions. -/
theorem Session.disciplined_run (config : Config) (level : LogLevel) (commands : List Command) :
    (run (.watched disciplined) config level commands = run .plain config level commands ∧
      (run (.watched disciplined) config level commands).BreaksNoRule) ∧
    ∀ (s : Interpreter) (id : PairId) (argc : Nat), s.machine.control = .pair id →
      (s.image.heap.car id).count? = some argc →
      execute .ap s = call argc .push { s with machine.control := s.image.heap.cdr id } ∧
        execute .tap s = call argc .tail { s with machine.control := s.image.heap.cdr id } :=
  ⟨run_of_flows (fun _ hf => disciplined_of_flows hf) config level commands,
    fun _ _ _ => execute_call⟩

end StackLisp
