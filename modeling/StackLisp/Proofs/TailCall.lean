import StackLisp.Proofs.Detour
import StackLisp.Proofs.Safety.Snapshot

/-!
# Tail calls

A call that nothing but a return follows may be a tail call or not: the run comes to the
same outcome (`Session.tailCallsAgree_run`). A run that has made an ordinary call is on a
detour (`LastCall.Detour`). Step by step it does the same as the run that has made a tail
call, until it returns from the callee, and then takes one more step to return to the
caller (`LastCall.nearly_runFrom`).

That the run is in order is needed at that return only: the exits that are left then are
those of the caller, which are further out than the detour (`Inside.settled`).
-/

namespace StackLisp

open Interpreter Layout Compiler Machine

variable {α β : Type}

/-! ## Runs -/

theorem Exit.Below.mono {height height' : Nat} (hle : height ≤ height') : ∀ {x : Exit}, x.Below height → x.Below height'
  | .block .., _ => trivial
  | .tagbody .., h => Nat.lt_of_lt_of_le h hle

/-- No tagbody goes back to more continuations than there are. -/
theorem Trail.exits_below (r : Nat) : ∀ K : Trail, ∀ x ∈ K.exits r, x.Below (K.depth + 1)
  | [], x, hx => by cases hx
  | l :: K, x, hx => by
    have hle : depth K + 1 ≤ depth (l :: K) + 1 := by cases hk : l.kind <;> simp [depth, hk]
    have outward (hx : x ∈ exits r K) : x.Below (depth (l :: K) + 1) := (exits_below r K x hx).mono hle
    cases hk : l.kind with
    | block =>
      simp only [exits, hk, List.mem_cons] at hx
      rcases hx with rfl | hx
      · trivial
      · exact outward hx
    | tagbody =>
      simp only [exits, hk, List.mem_cons] at hx
      rcases hx with rfl | hx
      · simp [Exit.Below, depth, hk]
      · exact outward hx
    | _ => exact outward (by simpa only [exits, hk] using hx)

/-- A call on the dump is a level of the trail. -/
theorem Trail.of_dump {r : Nat} {env code : Value} {n : Nat} {below : List DumpEntry} :
    ∀ {K : Trail} {above : List DumpEntry}, K.dump r = above ++ .call env code n :: below →
      ∃ K' : Trail, K' <:+ K ∧ (K'.exits r).length = n ∧ K'.dump r = below
  | [], above, h => by simp [dump] at h
  | l :: K, above, h => by
    have outward {above : List DumpEntry} (h : dump r K = above ++ .call env code n :: below) :
        ∃ K' : Trail, K' <:+ l :: K ∧ (K'.exits r).length = n ∧ K'.dump r = below := by
      obtain ⟨K', hs, hexits, hdump⟩ := of_dump h
      exact ⟨K', hs.trans (List.suffix_cons l K), hexits, hdump⟩
    -- Outward through the levels, each with its entry on the dump, if it has one.
    cases hk : l.kind with
    | call =>
      simp only [dump, hk] at h
      cases above with
      | nil =>
        obtain ⟨hentry, hbelow⟩ := List.cons.inj h
        cases hentry
        exact ⟨K, List.suffix_cons l K, rfl, hbelow⟩
      | cons entry above => exact outward (List.cons.inj h).2
    | join =>
      simp only [dump, hk] at h
      cases above with
      | nil => cases h
      | cons entry above => exact outward (List.cons.inj h).2
    | block | tagbody | bind => exact outward (by simpa only [dump, hk] using h)

/-- In a run in order, the exits that a caller had are further out than a detour on the way
    back to it. -/
theorem Inside.settled {n : Nat} {L : Layout} {rest : List SavedValue} {K : Trail} {env : List FrameShape}
    {st : List Slot} {s : Interpreter} {c : LastCall} (hi : Inside n L rest K env st s)
    {above : List DumpEntry} (hdump : s.machine.dump.items = above ++ c.below) :
    c.Settled s.machine.exits := by
  obtain ⟨K', hs, hexits, hbelow⟩ := Trail.of_dump (hi.dump.symm.trans hdump)
  have hsuffix : K'.exits rest.length <:+ s.machine.exits.items := hi.exits ▸ Trail.exits_suffix _ hs
  unfold LastCall.Settled
  rw [← hexits, Stack.items_truncate hsuffix, LastCall.height, ← hbelow, Trail.length_dump]
  exact Trail.exits_below _ K'

/-- While a run in order is on a detour, it comes to the same outcome. -/
theorem LastCall.nearly_runFrom (c : LastCall) (fuel : Nat) :
    ∀ {n : Nat} {L : Layout} {rest : List SavedValue} {K : Trail} {flow : Flow} {s t : Interpreter} {k : Value},
      Flows n L rest K flow s → L.Instr s.image.heap .rtn [] c.code k → Parallel c.Detour s t →
      Nearly (Parallel fun _ _ _ _ => True) (runFrom fuel flow s) (runFrom fuel flow t)
        (runFrom (fuel + 1) flow t) := by
  induction fuel with
  | zero =>
    intro n L rest K flow s t k _ _ _
    exact .endless ⟨s, by rw [runFrom]; rfl⟩ ⟨t, by rw [runFrom]; rfl⟩
  | succ fuel ih =>
    -- The interpreter `t` has a detour on its dump: it still has to return to code that only
    -- returns.
    intro n L rest K flow s t k hf hcode h
    have hon : c.OnDetour s t := by
      obtain ⟨env, st, hi, -⟩ := hf.inside
      have hreturn : s.image.heap.AtReturn c.code := by
        generalize c.code = code at hcode
        obtain ⟨-, op, -⟩ := hcode
        exact ⟨_, rfl, op⟩
      refine ⟨h, ?_, hreturn⟩
      obtain ⟨-, ⟨above, hdump, -⟩, -⟩ := h
      exact hi.settled hdump
    -- Once the ways have been carried on side by side, either the detour is still ahead, and the
    -- induction goes on, or it is behind and the two are the same.
    have hlater {x : LispM Flow} (hx : Safe (Goes n rest) L x s (Continues n rest K)) {flow : Flow}
        {s' t' : Interpreter} (hs' : x s = .ok flow s') (h' : Parallel c.ways s' t') :
        Nearly (Parallel fun _ _ _ _ => True) (runFrom fuel flow s') (runFrom fuel flow t')
          (runFrom (fuel + 1) flow t') := by
      refine nearly_runFrom_ways h' fun hdetour => ?_
      obtain ⟨L', g, K', -, hf'⟩ := (leads_of_ok hs').1 hx
      exact ih hf' (hcode.grows g.grows (by decide)) hdetour
    cases flow with
    | stop =>
      rw [runFrom, runFrom]
      exact .alike (.ok (h.mono fun _ _ _ _ _ => trivial)) (.inl rfl)
    | next =>
      rw [runFrom, runFrom]
      -- The two take the same step, or `s` returns past the detour and `t` needs one more step to
      -- catch up.
      rcases hon.matches_step with hstep | ⟨s', t', hs', ht', howes, hreturn⟩
      · exact Nearly.bind (.of_matches hstep (.inl rfl)) (fun flow s' t' hs' h' => hlater (safe_step hf) hs' h')
          fun _ _ => Parallel.mono fun _ _ _ _ _ => trivial
      · obtain ⟨t'', ht'', hsame⟩ := howes.step hreturn
        simp only [Bind.bind, EStateM.bind, hs', ht']
        refine .alike ?_ (((agree_engine fuel).2 .next).agrees t')
        rw [runFrom]
        simp only [Bind.bind, EStateM.bind, ht'']
        exact ((together_runFrom fuel .next).run hsame).mono fun _ _ => Parallel.mono fun _ _ _ _ _ => trivial
    | request r =>
      rw [runFrom, runFrom]
      refine Nearly.bind (hon.nearly_serve fuel r) (fun flow s' t' hs' h' => ?_)
        fun _ _ => Parallel.mono fun _ _ _ _ _ => trivial
      -- A request is served by the compiler and by nested runs, which are in order.
      obtain ⟨hc, hr⟩ := compiles_and_runs fuel
      have hrun : RunsInOrder (runFrom fuel .next) := @fun _ _ _ _ hruns => @hr _ _ _ _ .next _ hruns
      exact hlater (safe_serve hc hrun hf) hs' h'

/-! ## Calls -/

namespace LastCall

variable {c : LastCall} {s s' : Interpreter}

/-- The call is about to be made. -/
structure IsNext (c : LastCall) (s : Interpreter) : Prop where
  unlimited : s.machine.maxSteps = none
  env : s.machine.env = c.env
  control : s.machine.control = c.code
  dump : s.machine.dump.items = c.below
  height : s.machine.exits.height = c.exits
  exits : ∀ x ∈ s.machine.exits.items, x.Below c.height

theorem IsNext.parallel (h : c.IsNext s) : Parallel c.ways s s :=
  (Parallel.refl h.unlimited).mono fun _ _ _ _ => .inl

/-- Something is done before the call. -/
theorem matches_before {x : LispM α} {f g : α → LispM β}
    (hx : Leads x s (fun _ s' => c.IsNext s') fun _ s' => c.IsNext s')
    (hf : ∀ a s', c.IsNext s' → Matches (Parallel c.ways) (f a s') (g a s')) :
    Matches (Parallel c.ways) ((x >>= f) s) ((x >>= g) s) := by
  simp only [Bind.bind, EStateM.bind]
  cases heq : x s with
  | ok a s' => exact hf a s' ((leads_of_ok heq).1 hx)
  | error e s' => exact .error ((leads_of_error heq).1 hx).parallel

theorem IsNext.looks (h : c.IsNext s) {x : LispM α} (hx : Looks x) :
    Leads x s (fun _ s' => c.IsNext s') fun _ s' => c.IsNext s' :=
  (hx.leads s).mono (fun _ _ heq => heq ▸ h) fun _ _ heq => heq ▸ h

theorem IsNext.heap (h : c.IsNext s) (x : HeapM α) :
    Leads (liftM x : LispM α) s (fun _ s' => c.IsNext s') fun _ s' => c.IsNext s' :=
  leads_heap.2 (leads_trivial.mono (fun _ _ _ => ⟨h.unlimited, h.env, h.control, h.dump, h.height, h.exits⟩)
    fun _ _ _ => ⟨h.unlimited, h.env, h.control, h.dump, h.height, h.exits⟩)

theorem IsNext.setStack (h : c.IsNext s) (stack : Stack Value) :
    c.IsNext { s with machine.stack := stack } :=
  ⟨h.unlimited, h.env, h.control, h.dump, h.height, h.exits⟩

/-- Entering a function, by a tail call or not. -/
theorem IsNext.matches_enter (h : c.IsNext s) (code env : Value) (args : List Value) :
    Matches (Parallel c.ways) (enter code env args .tail s) (enter code env args .push s) := by
  refine matches_before (h.heap _) fun frame s₁ h₁ => ?_
  refine matches_before (h₁.heap _) fun env s₂ h₂ => ?_
  -- The tail call reads the caller's entry and cuts the exits to their height there, which they
  -- have already.
  have htop : s₂.machine.dump.top? = some (.call c.callerEnv c.callerCode c.exits) := by
    simp [Stack.top?, h₂.dump, below]
  have hkept : s₂.machine.exits.truncate c.exits = s₂.machine.exits := by
    ext1
    simp [Stack.truncate, h₂.height]
  have hextra : DumpEntry.call s₂.machine.env s₂.machine.control s₂.machine.exits.height = c.extra := by
    rw [h₂.env, h₂.control, h₂.height, extra]
  -- The push call leaves one entry more on the dump: the call takes the detour over its own `RTN`.
  let s' : Interpreter := { s₂ with machine.env := env, machine.control := code }
  have hdetour : Parallel c.Detour s' (s'.diverted s₂.image.log s₂.machine.steps
      (max s₂.machine.maxDumpDepth (s₂.machine.dump.push c.extra).height) (s₂.machine.dump.push c.extra)
      s₂.machine.exits) :=
    .intro h₂.unlimited ⟨⟨[], h₂.dump, by rw [Stack.items_push, h₂.dump]; rfl⟩, .older h₂.exits⟩
  simp only [Bind.bind, EStateM.bind, view, htop, modifyMachine_apply, hkept, pushDump, id, hextra]
  exact .ok (hdetour.mono fun _ _ _ _ => .inr)

theorem IsNext.matches_callFunction (h : c.IsNext s) (callee : Value) (args : List Value) :
    Matches (Parallel c.ways) (callFunction callee args .tail s) (callFunction callee args .push s) := by
  unfold callFunction
  dsimp only
  split
  · refine matches_before (h.looks (looks_asks _ fun _ _ => rfl)) fun function s₁ h₁ => ?_
    refine matches_before (h₁.looks (looks_asks _ fun _ _ => rfl)) fun name s₂ h₂ => ?_
    split
    · exact .error h₂.parallel
    · exact matches_before (h₂.looks (looks_ofExcept _)) fun _ s₃ h₃ => h₃.matches_enter ..
  · refine matches_before (h.looks (looks_closureParts _)) fun parts s₁ h₁ => ?_
    refine matches_before (h₁.looks (looks_asks _ fun _ _ => rfl)) fun function s₂ h₂ => ?_
    refine matches_before (h₂.looks (looks_asks _ fun _ _ => rfl)) fun name s₃ h₃ => ?_
    exact matches_before (h₃.looks (looks_ofExcept _)) fun _ s₄ h₄ => h₄.matches_enter ..
  · exact .error h.parallel

/-- Calling a function, by a tail call or not. -/
theorem IsNext.matches_call (h : c.IsNext s) (argc : Nat) :
    Matches (Parallel c.ways) (call argc .tail s) (call argc .push s) := by
  have hargs : Leads (popMany argc) s (fun _ s' => c.IsNext s') fun _ s' => c.IsNext s' := by
    unfold Leads popMany
    cases s.machine.stack.popMany? argc with
    | none => exact h
    | some top => exact h.setStack top.2
  -- Taking the arguments and the callee off the stack is the same in both.
  refine matches_before hargs fun args s₁ h₁ => ?_
  have hcallee : Leads pop s₁ (fun _ s' => c.IsNext s') fun _ s' => c.IsNext s' := by
    unfold Leads pop
    cases s₁.machine.stack.pop? with
    | none => exact h₁
    | some top => exact h₁.setStack top.2
  refine matches_before hcallee fun callee s₂ h₂ => ?_
  split
  · refine (((quiet_pushMany args).even.together c.ways).bind fun _ => ?_).run h₂.parallel
    exact (together_turningCongruence c.carried).callPrimitive (together_runBuiltin c.carried) _ argc
  · exact (h₂.matches_callFunction ..).bind_pure Flow.next

end LastCall

/-! ## Calls before a return -/

/-- A call on so many arguments comes next: it has been asked for, or its instruction is to be
    executed. The second interpreter is past that instruction. -/
inductive CallNext (s : Interpreter) : Flow → Nat → Interpreter → Prop
  | asked {argc : Nat} {mode : CallMode} : CallNext s (.request (.call argc mode)) argc s
  | instruction {code : Opcode} {n k : Value} {argc : Nat} (isCall : code = .ap ∨ code = .tap)
      (instr : s.image.heap.instruction? s.machine.control = some (code, [n], k))
      (count : n.count? = some argc) : CallNext s .next argc { s with machine.control := k }

/-- Nothing but a return is left to do, in a function that has been called with as many exits as
    there are. -/
structure Interpreter.AtTail (s : Interpreter) : Prop where
  control : s.image.heap.AtReturn s.machine.control
  dump : ∃ env code, s.machine.dump.top? = some (.call env code s.machine.exits.height)

/-- Makes a call and runs to the end, where the registers of the run around are put back. -/
def callAndFinish (before : Machine) (argc : Nat) (mode : CallMode) (fuel : Nat) : LispM Value := do
  let result ← attempt (do
    runFrom fuel (← call argc mode)
    pop)
  leaveRun before result

/-- Whenever one of the computations comes to its end within some bound, so does the other one
    within some bound, in the same way: with the same value or the same failure, in interpreters
    that differ in what they have logged and counted only. -/
structure SameOutcome (x y : Nat → LispM α) (s : Interpreter) : Prop where
  forth : ∀ fuel, Endless (x fuel s) ∨ ∃ fuel', Matches (Parallel .same) (x fuel s) (y fuel' s)
  back : ∀ fuel, Endless (y fuel s) ∨ ∃ fuel', Matches (Parallel .same) (x fuel' s) (y fuel s)

/-- Without a limit on the steps, a call before a return may be a tail call or not. -/
def tailCallsAgree : Watch
  | _, flow, s => ∀ argc s', CallNext s flow argc s' → s'.AtTail → s'.machine.maxSteps = none →
      ∀ before, SameOutcome (callAndFinish before argc .tail) (callAndFinish before argc .push) s'

/-- What lies between two outcomes of another computation comes to the same outcome. -/
theorem SameOutcome.of_nearly {x y : Nat → LispM α} {s : Interpreter}
    (h : ∀ fuel, Nearly (Parallel .same) (x fuel s) (y fuel s) (y (fuel + 1) s)) : SameOutcome x y s where
  forth fuel := by
    cases h fuel with
    | alike same _ => exact .inr ⟨fuel + 1, same⟩
    | endless first _ => exact .inl first
  back fuel := by
    cases h fuel with
    | alike same bound =>
      refine bound.symm.imp id fun heq => ⟨fuel, ?_⟩
      rw [heq]
      exact same
    | endless _ second => exact .inl second

section

variable {n : Nat} {L : Layout} {rest : List SavedValue} {K : Trail} {env : List FrameShape}
  {st st' : List Slot} {s s' : Interpreter} {flow : Flow} {argc : Nat}

/-- What the code at a call is. -/
theorem Layout.Code.call_inv {h : Heap} {b : Base} {ctx : List Item} {c k v : Value} {code : Opcode}
    (hc : L.Code h b env st ctx c) (hb : b.Whole) (hcode : code = .ap ∨ code = .tap)
    (hi : h.instruction? c = some (code, [v], k)) (hcount : v.count? = some argc) :
    ∃ st', st = List.replicate (argc + 1) .value ++ st' ∧ L.Code h b env (.value :: st') ctx k := by
  obtain ⟨code', vs, k', instr, hlen⟩ := hc.instr
  obtain ⟨rfl, rfl, rfl⟩ : code' = code ∧ vs = [v] ∧ k' = k := by
    simpa using (instr.instruction? hlen).symm.trans hi
  -- The instruction is a call, so its code is one of `ap` and `tap`; every other case names another
  -- instruction.
  cases hc
  case ap n count next instr' =>
    obtain ⟨hv, rfl⟩ := instr.operands_eq instr' rfl
    obtain rfl := List.head_eq_of_cons_eq hv
    obtain rfl := Option.some.inj (hcount.symm.trans count)
    exact ⟨_, rfl, next⟩
  case tap n count _ next instr' =>
    obtain ⟨hv, rfl⟩ := instr.operands_eq instr' rfl
    obtain rfl := List.head_eq_of_cons_eq hv
    obtain rfl := Option.some.inj (hcount.symm.trans count)
    exact ⟨_, rfl, next⟩
  case reached => exact absurd hb id
  all_goals
    obtain rfl := Instr.op_eq instr ‹_›
    exact absurd hcode (by decide)

/-- At a call, the arguments are on the stack with the callee below them, and the code that
    follows is in order. -/
theorem CallNext.inside (hc : CallNext s flow argc s') (hf : Flows n L rest K flow s) :
    ∃ env st, Inside n L rest K env (List.replicate (argc + 1) .value ++ st) s' ∧
      L.Code s'.image.heap K.base env (.value :: st) K.context s'.machine.control := by
  cases hc with
  | asked =>
    obtain ⟨env, st, hy, hcode⟩ := hf
    exact ⟨env, st, hy.1, hcode⟩
  | instruction isCall instr count =>
    rcases hf with ⟨hi, hcode⟩ | ⟨-, hload, -, -⟩
    · obtain ⟨st', rfl, hnext⟩ := hcode.call_inv K.whole_base isCall instr count
      exact ⟨_, st', ⟨hi.sound.registers rfl, hi.around, hi.valid, hi.isEnv, hi.operands, hi.dump, hi.exits,
        hi.bindings⟩, hnext⟩
    · obtain ⟨rfl, -, -⟩ : _ = _ ∧ _ = _ ∧ _ = _ := by simpa using (hload.instruction? rfl).symm.trans instr
      exact absurd isCall (by decide)

/-- Before a return, the call is the last one of the function. -/
theorem Inside.lastCall (hi : Inside n L rest K env st s)
    (hcode : L.Code s.image.heap K.base env (.value :: st') K.context s.machine.control) (hs : s.AtTail)
    (hmax : s.machine.maxSteps = none) :
    ∃ (c : LastCall) (k : Value), c.IsNext s ∧ L.Instr s.image.heap .rtn [] c.code k := by
  obtain ⟨id, hcontrol, hcar⟩ := hs.control
  obtain ⟨k, instr⟩ : ∃ k, L.Instr s.image.heap .rtn [] s.machine.control k := by
    obtain ⟨code, vs, k, instr, hlen⟩ := hcode.instr
    have hop : code = .rtn := by
      rw [hcontrol] at instr
      obtain ⟨-, op, -⟩ := instr
      simpa using op.symm.trans hcar
    subst hop
    obtain rfl : vs = [] := List.length_eq_zero_iff.1 hlen
    exact ⟨k, instr⟩
  -- The code returns at once, so the innermost level is a call, and its entry is on top of the
  -- dump.
  obtain ⟨hbase, -, hcontext⟩ := hcode.rtn_inv K.whole_base instr
  obtain ⟨l, K', rfl, hl⟩ := Trail.eq_call hcontext hbase
  obtain ⟨callerEnv, callerCode, htop⟩ := hs.dump
  have hdump : s.machine.dump.items =
      .call callerEnv callerCode s.machine.exits.height :: K'.dump rest.length := by
    have hitems := hi.dump
    rw [Stack.top?, hitems] at htop
    rw [hitems]
    simp only [Trail.dump, hl, List.head?_cons, Option.some.injEq] at htop ⊢
    rw [htop]
  refine ⟨⟨s.machine.env, s.machine.control, callerEnv, callerCode, s.machine.exits.height,
    K'.dump rest.length⟩, k, ⟨hmax, rfl, rfl, hdump, rfl, ?_⟩, instr⟩
  rw [hi.exits, LastCall.height, Trail.length_dump]
  simpa only [Trail.exits, hl] using Trail.exits_below rest.length K'

theorem leaveRun_endless (before : Machine) (s : Interpreter) :
    Endless (leaveRun before (.error .endless) s) := by
  have hleads : Leads (leaveRun before (.error .endless)) s (fun _ _ => False) fun e _ => e = .endless := by
    unfold leaveRun
    rw [leads_bind, leads_modifyMachine, leads_bind, leads_unwindBindings]
    rfl
  cases heq : leaveRun before (.error .endless) s with
  | ok v s' => exact absurd ((leads_of_ok heq).1 hleads) not_false
  | error e s' =>
    obtain rfl := (leads_of_error heq).1 hleads
    exact ⟨s', rfl⟩

/-- A call before a return comes to the same outcome, whether it is a tail call or not. -/
theorem nearly_callAndFinish (hi : Inside n L rest K env (List.replicate (argc + 1) .value ++ st) s)
    (hcode : L.Code s.image.heap K.base env (.value :: st) K.context s.machine.control) (hs : s.AtTail)
    (hmax : s.machine.maxSteps = none) (before : Machine) (fuel : Nat) :
    Nearly (Parallel .same) (callAndFinish before argc .tail fuel s)
      (callAndFinish before argc .push fuel s) (callAndFinish before argc .push (fuel + 1) s) := by
  obtain ⟨c, k, hnext, instr⟩ := hi.lastCall hcode hs hmax
  have hsafe : Safe (Goes n rest) L (call argc .tail) s (Continues n rest K) :=
    (safe_call hi hcode fun _ => hnext.control ▸ .rtn instr).mono fun _ _ _ _ h => h.1
  -- The call itself agrees, and from there on the two runs are either in step or one of them on the
  -- detour, where one more unit of fuel is allowed.
  have hrun : Nearly (Parallel fun _ _ _ _ => True) ((do runFrom fuel (← call argc .tail); pop) s)
      ((do runFrom fuel (← call argc .push); pop) s) ((do runFrom (fuel + 1) (← call argc .push); pop) s) := by
    refine Nearly.bind (.of_matches (hnext.matches_call argc) (.inl rfl)) (fun flow s₁ t₁ hs₁ h₁ => ?_)
      fun _ _ => Parallel.mono fun _ _ _ _ _ => trivial
    refine Nearly.bind (LastCall.nearly_runFrom_ways h₁ fun hdetour => ?_) (fun _ s₂ t₂ _ h₂ => ?_) fun _ _ h => h
    · obtain ⟨L', g, K', -, hf'⟩ := (leads_of_ok hs₁).1 hsafe
      exact c.nearly_runFrom fuel hf' (instr.grows g.grows (by decide)) hdetour
    · exact .of_matches ((quiet_pop.even.together _).run h₂) (.inl rfl)
  refine hrun.attempt_bind (fun result s₁ t₁ h₁ => ?_) (leaveRun_endless before)
  have hbefore : Parallel .same { s with machine := { before with maxSteps := none } }
      { s with machine := { before with maxSteps := none } } := .refl rfl
  exact matches_leaveRun hbefore h₁ result

theorem tailCallsAgree_of_flows {entries : List Interpreter} (_ : EntriesOf L s.image.heap rest K entries)
    (hf : Flows n L rest K flow s) : tailCallsAgree entries flow s := by
  intro argc s' hcall hs hmax before
  obtain ⟨env, st, hi, hcode⟩ := hcall.inside hf
  exact .of_nearly (nearly_callAndFinish hi hcode hs hmax before)

end

/-- Whenever a session makes a call before a return, it does not matter whether it is a tail
    call: checking this at every moment changes nothing. -/
theorem Session.tailCallsAgree_run (config : Config) (level : LogLevel) (commands : List Command) :
    run (.watched tailCallsAgree) config level commands = run .plain config level commands ∧
      (run (.watched tailCallsAgree) config level commands).BreaksNoRule :=
  run_of_flows tailCallsAgree_of_flows config level commands

end StackLisp
