import Mathlib.Data.List.Forall2
import StackLisp.Proofs.Binding
import StackLisp.Proofs.TailCall

/-!
# The depth of tail calls

A call of a function puts a continuation on the dump. The tail calls that come in its
place do not: with the call they make up a *chain* (`CallChain`), all of whose functions
are entered with the same dump, that of the caller with one continuation on top, and with
the exits that the caller had (`CallChain.Constant`). In between, the dump is higher by
the branches that are open, and by the calls of operands that are going on. No branch is
open at a tail call (`ConstantDepth`).

This is so because code before a return is inside of blocks only
(`Trail.Valid.returns`), so the innermost level of the trail with a continuation is the
call.
-/

namespace StackLisp

open Interpreter Layout Machine

/-! ## Chains of calls -/

/-- A call of a function, and the tail calls that have come in its place. -/
structure CallChain where
  /-- The interpreter when the call was made. -/
  caller : Interpreter
  /-- The interpreter when the function that is running was entered. -/
  latest : Interpreter
  /-- The interpreters when the functions before it were entered, the latest first. -/
  earlier : List Interpreter

/-- The interpreters when the functions of the chain were entered. -/
def CallChain.entries (chain : CallChain) : List Interpreter := chain.latest :: chain.earlier

/-- Whether a continuation is that of a call. -/
def DumpEntry.isCall : DumpEntry → Bool
  | call _ _ _ => true
  | join _ => false

/-- How many calls there are on the dump. -/
def Machine.calls (m : Machine) : Nat := m.dump.items.countP DumpEntry.isCall

/-- Whether a call of a value enters a function. -/
def Value.isEntered : Value → Bool
  | .function _ | .closure _ => true
  | _ => false

/-- A tail call of a function comes next: it has been asked for, or its instruction is to be
    executed. -/
inductive TailCallNext (s : Interpreter) : Flow → Prop
  | asked {argc : Nat} {callee : Value} (below : s.machine.stack.items[argc]? = some callee)
      (entered : callee.isEntered = true) : TailCallNext s (.request (.call argc .tail))
  | instruction {n k callee : Value} {argc : Nat}
      (instr : s.image.heap.instruction? s.machine.control = some (.tap, [n], k))
      (count : n.count? = some argc) (below : s.machine.stack.items[argc]? = some callee)
      (entered : callee.isEntered = true) : TailCallNext s .next

open Classical in
/-- The chains of the calls that are going on, after the run has gone on to `s'`: a new call
    begins one, and a tail call goes on with the innermost one. -/
noncomputable def chainsAfter (chains : List CallChain) (flow : Flow) (s s' : Interpreter) :
    List CallChain :=
  if chains.length < s'.machine.calls then
    ⟨s, s', []⟩ :: chains
  else if TailCallNext s flow then
    match chains with
    | chain :: outer => ⟨chain.caller, s', chain.entries⟩ :: outer
    | [] => []
  else
    chains.drop (chains.length - s'.machine.calls)

/-- The chains of the calls that are going on, the innermost first, as notes on a run. -/
noncomputable def chainNotes : Notes (List CallChain) := ⟨[], chainsAfter⟩

/-- All functions of a chain are entered with the same continuation on top of the caller's dump,
    and with the caller's exits. -/
def CallChain.Constant (chain : CallChain) : Prop :=
  ∃ env code, ∀ entry ∈ chain.entries,
    entry.machine.dump.items =
      .call env code chain.caller.machine.exits.height :: chain.caller.machine.dump.items ∧
    entry.machine.exits.items = chain.caller.machine.exits.items

/-- Tail calls keep the depth of the dump. -/
structure ConstantDepth (chains : List CallChain) (flow : Flow) (s : Interpreter) : Prop where
  constant : ∀ chain ∈ chains, chain.Constant
  /-- Above the dump at the entry of the running function there are open branches only. -/
  branches : ∃ above, (∀ d ∈ above, d.isCall = false) ∧ s.machine.dump.items =
    above ++ (chains.head?.elim [] fun chain => chain.latest.machine.dump.items)
  /-- A tail call finds the dump as it was at the entry of the running function, and leaves it
      so; of the exits it leaves those of the caller. -/
  tail : TailCallNext s flow → ∃ chain outer, chains = chain :: outer ∧
    s.machine.dump.items = chain.latest.machine.dump.items ∧
    ∀ flow' s', Proceeds flow s flow' s' →
      s'.machine.dump.items = s.machine.dump.items ∧
      s'.machine.exits.items = chain.caller.machine.exits.items

/-! ## The calls of a trail -/

namespace Trail

/-- The parts of a trail that end in a call, the innermost first. -/
def calls : Trail → List Trail
  | [] => []
  | l :: K =>
    match l.kind with
    | .call => (l :: K) :: calls K
    | _ => calls K

theorem calls_suffix {K K' : Trail} (hs : K' <:+ K) : K'.calls <:+ K.calls := by
  refine suffix_of_cons (f := calls) (fun l K => ?_) hs
  cases hk : l.kind <;> simp [calls, hk]

theorem countP_dump (r : Nat) : ∀ K : Trail, (K.dump r).countP DumpEntry.isCall = K.calls.length
  | [] => rfl
  | l :: K => by
    have ih := countP_dump r K
    cases hk : l.kind <;> simp [dump, calls, hk, DumpEntry.isCall, List.countP_cons, ih]

/-- The dump is the branches inside of the innermost call on top of the dump at that call. -/
theorem dump_eq_branches (r : Nat) : ∀ K : Trail, ∃ above, (∀ d ∈ above, d.isCall = false) ∧
    K.dump r = above ++ (K.calls.head?.elim [] (dump r))
  | [] => ⟨[], List.forall_mem_nil _, rfl⟩
  | l :: K => by
    obtain ⟨above, habove, hK⟩ := dump_eq_branches r K
    cases hk : l.kind with
    | call => exact ⟨[], List.forall_mem_nil _, by simp [calls, hk]⟩
    | join =>
      refine ⟨.join l.next :: above, ?_, by simp [dump, calls, hk, hK]⟩
      exact List.forall_mem_cons.2 ⟨rfl, habove⟩
    | block | tagbody | bind => exact ⟨above, habove, by simpa [dump, calls, hk] using hK⟩

/-- With a call on top of the dump, no branch is open. -/
theorem calls_of_top {r : Nat} {env code : Value} {n : Nat} :
    ∀ {K : Trail}, (K.dump r).head? = some (.call env code n) →
      ∃ (l : Level) (K' : Trail) (outer : List Trail), K.calls = (l :: K') :: outer ∧
        K.dump r = dump r (l :: K') ∧ n = (K'.exits r).length ∧ K' <:+ K
  | [], h => by cases h
  | l :: K, h => by
    cases hk : l.kind with
    | call =>
      refine ⟨l, K, calls K, by simp [calls, hk], rfl, ?_, List.suffix_cons l K⟩
      simp only [dump, hk, List.head?_cons, Option.some.injEq, DumpEntry.call.injEq] at h
      exact h.2.2.symm
    | join => simp [dump, hk] at h
    | block | tagbody | bind =>
      obtain ⟨l', K', outer, hcalls, hdump, hn, hs⟩ :=
        calls_of_top (K := K) (by simpa only [dump, hk] using h)
      exact ⟨l', K', outer, by simpa only [calls, hk] using hcalls,
        by simpa only [dump, hk] using hdump, hn, hs.trans (List.suffix_cons l K)⟩

end Trail

/-- The chain belongs to a call of a trail. -/
structure CallChain.Of (r : Nat) (chain : CallChain) (T : Trail) : Prop where
  isCall : ∃ (l : Level) (K : Trail), T = l :: K ∧ l.kind = .call ∧
    chain.caller.machine.dump.items = K.dump r ∧ chain.caller.machine.exits.items = K.exits r
  dump : ∀ entry ∈ chain.entries, entry.machine.dump.items = T.dump r
  exits : ∀ entry ∈ chain.entries,
    entry.machine.exits.items = chain.caller.machine.exits.items

theorem CallChain.Of.constant {r : Nat} {chain : CallChain} {T : Trail} (h : chain.Of r T) :
    chain.Constant := by
  obtain ⟨l, K, rfl, hl, hdump, hexits⟩ := h.isCall
  refine ⟨l.outer, l.next, fun entry hentry => ⟨?_, h.exits entry hentry⟩⟩
  rw [h.dump entry hentry, hdump, chain.caller.machine.exits.height_eq, hexits]
  simp only [Trail.dump, hl]

/-! ## What a tail call does -/

/-- The interpreter `s'` has taken over the continuation that `s` was called with. -/
def Interpreter.TakesOver (s s' : Interpreter) : Prop :=
  ∃ env code n, s.machine.dump.top? = some (.call env code n) ∧
    s'.machine.dump = s.machine.dump ∧ s'.machine.exits = s.machine.exits.truncate n

section

variable {s : Interpreter}

theorem takesOver_enter (code env : Value) (args : List Value) :
    Leads (enter code env args .tail) s (fun _ s' => s.TakesOver s') fun _ _ => True := by
  unfold enter
  refine (leads_bind _).2 (leads_heap.2 (leads_trivial.mono (fun frame h₁ _ => ?_) fun _ _ h => h))
  refine (leads_bind _).2 (leads_heap.2 (leads_trivial.mono (fun env' h₂ _ => ?_) fun _ _ h => h))
  dsimp only
  rw [leads_bind, leads_view]
  split
  · next callerEnv callerCode n htop =>
    exact ⟨callerEnv, callerCode, n, htop, rfl, rfl⟩
  · trivial

theorem takesOver_callFunction (callee : Value) (args : List Value) :
    Leads (callFunction callee args .tail) s (fun _ s' => s.TakesOver s') fun _ _ => True := by
  -- A wrong number of arguments fails before anything is entered.
  have hcheck (arity : Arity) (name : String) {x : LispM Unit}
      (hx : Leads x s (fun _ s' => s.TakesOver s') fun _ _ => True) :
      Leads (do checkArity arity name args.length; x) s (fun _ s' => s.TakesOver s') fun _ _ => True := by
    rw [leads_bind, checkArity, leads_ofExcept]
    split
    · exact hx
    · trivial
  cases callee with
  | function f =>
    rw [callFunction, leads_bind, leads_asks, leads_bind, leads_asks]
    split
    · trivial
    · exact hcheck _ _ (takesOver_enter ..)
  | closure id =>
    rw [callFunction, leads_bind]
    refine ((looks_closureParts id).leads s).mono (fun parts s' hs' => ?_) fun _ _ _ => trivial
    subst hs'
    exact hcheck _ _ (takesOver_enter ..)
  | _ => trivial

/-- A tail call of a function takes over the continuation. -/
theorem takesOver_call {argc : Nat} {callee : Value}
    (hbelow : s.machine.stack.items[argc]? = some callee) (hentered : callee.isEntered = true) :
    Leads (call argc .tail) s (fun _ s' => s.TakesOver s') fun _ _ => True := by
  unfold call
  rw [leads_bind]
  refine leads_popMany (fun _ => trivial) ?_
  rw [leads_bind]
  refine leads_pop (fun _ => trivial) fun callee' below hstack => ?_
  obtain rfl : callee' = callee := by
    have hdrop : s.machine.stack.items.drop argc = callee' :: below := hstack
    have hhead : (s.machine.stack.items.drop argc)[0]? = some callee' := by rw [hdrop]; rfl
    rw [List.getElem?_drop, Nat.add_zero, hbelow] at hhead
    exact (Option.some.inj hhead).symm
  split
  · cases hentered
  · rw [leads_bind]
    exact takesOver_callFunction ..

end

/-! ## Runs in order -/

section

variable {n : Nat} {L L' : Layout} {rest : List SavedValue} {K K' : Trail} {flow flow' : Flow}
  {s s' : Interpreter} {chains : List CallChain}

/-- What the code at a tail call is. -/
theorem Layout.Code.tap_inv {h : Heap} {b : Base} {env : List FrameShape} {st : List Slot}
    {ctx : List Item} {c k v : Value} (hc : L.Code h b env st ctx c) (hb : b.Whole)
    (hi : h.instruction? c = some (.tap, [v], k)) :
    ∃ st', L.Code h b env (.value :: st') ctx k ∧ L.Returns h k := by
  obtain ⟨code', vs, k', instr, hlen⟩ := hc.instr
  obtain ⟨rfl, rfl, rfl⟩ : code' = .tap ∧ vs = [v] ∧ k' = k := by
    simpa using (instr.instruction? hlen).symm.trans hi
  cases hc
  case tap n count returns next instr' =>
    obtain ⟨-, rfl⟩ := instr.operands_eq instr' rfl
    exact ⟨_, next, returns⟩
  case reached => exact absurd hb id
  all_goals cases Instr.op_eq instr ‹_›

/-- The operand of an instruction with a single one. -/
theorem Heap.operandsAt_singleton {h : Heap} {count : Nat} {c v k : Value}
    (ho : h.operandsAt count c = some ([v], k)) : ∃ id, c = .pair id ∧ v = h.car id := by
  cases count with
  | zero => cases ho
  | succ count =>
    cases c with
    | pair id =>
      simp only [Heap.operandsAt, Option.map_eq_some_iff] at ho
      obtain ⟨⟨vs, k'⟩, -, heq⟩ := ho
      cases heq
      exact ⟨id, rfl, rfl⟩
    | _ => cases ho

theorem Heap.instruction?_singleton {h : Heap} {v k : Value} {id : PairId} {code code' : Opcode}
    (hop : h.car id = .op code') (hi : h.instruction? (.pair id) = some (code, [v], k)) :
    code' = code ∧ ∃ id', h.cdr id = .pair id' ∧ v = h.car id' := by
  simp only [Heap.instruction?, hop, Option.map_eq_some_iff] at hi
  obtain ⟨⟨vs, k'⟩, hoperands, heq⟩ := hi
  cases heq
  exact ⟨rfl, operandsAt_singleton hoperands⟩

/-- At a tail call, the continuation of the running function is on top of the dump. -/
theorem TailCallNext.top (ht : TailCallNext s flow) (hf : Flows n L rest K flow s) :
    ∃ env code exits, (K.dump rest.length).head? = some (.call env code exits) := by
  -- Asked for by a primitive or met as an instruction, a tail call stands before code that returns.
  have hreturns : ∃ env st c, K.Valid L s.image.heap ∧
      L.Code s.image.heap K.base env (.value :: st) K.context c ∧ L.Returns s.image.heap c := by
    cases ht with
    | asked =>
      obtain ⟨env, st, ⟨hi, hreturns⟩, hcode⟩ := hf
      exact ⟨env, st, _, hi.valid, hcode, hreturns rfl⟩
    | instruction instr =>
      rcases hf with ⟨hi, hcode⟩ | ⟨-, hload, -, -⟩
      · obtain ⟨st', hnext, hreturns⟩ := hcode.tap_inv K.whole_base instr
        exact ⟨_, st', _, hi.valid, hnext, hreturns⟩
      · cases (hload.instruction? rfl).symm.trans instr
  obtain ⟨env, st, c, hvalid, hcode, hreturns⟩ := hreturns
  -- Code that returns has the entry of its caller on top of the dump.
  obtain ⟨-, l, K', hl, -, -, -, -, hdump⟩ := hvalid.returns hcode hreturns
  refine ⟨l.outer, l.next, (K'.exits rest.length).length, ?_⟩
  rw [hdump]
  simp [Trail.dump, hl]

/-- Making a tail call takes over the continuation. -/
theorem TailCallNext.takesOver (ht : TailCallNext s flow) (hp : Proceeds flow s flow' s') :
    s.TakesOver s' := by
  -- The call has been asked for, or it is the next instruction, which asks for it once its operand
  -- has been fetched.
  cases ht with
  | asked below entered => exact (leads_of_ok hp).1 (takesOver_call below entered)
  | @instruction v k callee argc instr count below entered =>
    have hstep : Leads step s (fun _ s' => s.TakesOver s') fun _ _ => True := by
      refine leads_step (fun _ _ _ _ => trivial) fun {id code s₁} hid hcode hcontrol halike _ => ?_
      obtain ⟨rfl, id', hcdr, rfl⟩ := Heap.instruction?_singleton hcode (hid ▸ instr)
      have hcall (k : Value) : Leads (call argc .tail) { s₁ with machine.control := k }
          (fun _ s' => s.TakesOver s') fun _ _ => True := by
        refine (takesOver_call (halike.stack ▸ below) entered).mono ?_ fun _ _ h => h
        rintro _ s' ⟨env, code, n, htop, hdump, hexits⟩
        exact ⟨env, code, n, halike.dump ▸ htop, hdump.trans halike.dump,
          hexits.trans (by rw [halike.exits])⟩
      simp only [Machine.execute, leads_bind]
      refine leads_operandIndex (fun _ _ _ => trivial) fun id₁ i hid₁ hi => ?_
      obtain rfl : id₁ = id' := by simpa [hcontrol, hcdr] using hid₁.symm
      have hargc : i.toNatClampNeg = argc := by
        rw [← halike.heap, hi] at count
        simp only [Value.count?] at count
        split at count
        · exact Option.some.inj count
        · cases count
      exact hargc ▸ hcall _
    exact (leads_of_ok (show step s = .ok flow' s' from hp)).1 hstep

/-- Going on, a run makes a new call, or the calls that are going on are among those before. -/
theorem Trail.Follows.calls (hK : K.Follows K') :
    K'.calls <:+ K.calls ∨ ∃ l : Level, l.kind = .call ∧ K' = l :: K := by
  rcases hK with hs | ⟨l, rfl⟩
  · exact .inl (Trail.calls_suffix hs)
  · cases hk : l.kind with
    | call => exact .inr ⟨l, hk, rfl⟩
    | _ => exact .inl (by simp [Trail.calls, hk])

theorem Inside.calls {env : List FrameShape} {st : List Slot} (hi : Inside n L rest K env st s) :
    s.machine.calls = K.calls.length := by
  rw [Machine.calls, hi.dump, Trail.countP_dump]

/-- The chains go with the calls of the trail. -/
theorem chainNotes_keep : chainNotes.Keep fun _ _ rest K chains =>
    List.Forall₂ (CallChain.Of rest.length) chains K.calls where
  start _ _ _ := .nil
  after {n L L' rest K K' chains flow flow' s s'} hchains hf hp hK g hf' := by
    obtain ⟨env, st, hi, -⟩ := hf.inside
    obtain ⟨env', st', hi', -⟩ := hf'.inside
    have hlength : chains.length = K.calls.length := hchains.length_eq
    change List.Forall₂ _ (chainsAfter chains flow s s') _
    unfold chainsAfter
    rw [hi'.calls]
    rcases hK.calls with hs | ⟨l, hl, rfl⟩
    · rw [if_neg (by rw [hlength]; exact Nat.not_lt.2 hs.length_le)]
      split
      · next ht =>
        -- The dump is the same, so no call has ended.
        obtain ⟨callerEnv, callerCode, exits, htop, hdump, hexits⟩ := ht.takesOver hp
        have hsame : K'.calls = K.calls := by
          refine hs.eq_of_length ?_
          rw [← hi'.calls, ← hi.calls, Machine.calls, Machine.calls, hdump]
        rw [Stack.top?, hi.dump] at htop
        obtain ⟨l, K₁, outer, hcalls, hK₁, rfl, hs₁⟩ := Trail.calls_of_top htop
        rw [hsame, hcalls]
        rw [hcalls] at hchains
        cases hchains with
        | cons hchain houter =>
          obtain ⟨l', K₂, hT, -, hcallerDump, hcallerExits⟩ := hchain.isCall
          obtain ⟨rfl, rfl⟩ := List.cons.inj hT
          refine .cons ⟨hchain.isCall, ?_, ?_⟩ houter
          · refine List.forall_mem_cons.2 ⟨?_, hchain.dump⟩
            rw [hdump, hi.dump, hK₁]
          · refine List.forall_mem_cons.2 ⟨?_, hchain.exits⟩
            rw [hexits, hcallerExits]
            exact Stack.items_truncate (hi.exits ▸ Trail.exits_suffix rest.length hs₁)
      · have hdrop : K'.calls = K.calls.drop (chains.length - K'.calls.length) :=
          hlength ▸ List.suffix_iff_eq_drop.1 hs
        generalize chains.length - K'.calls.length = ended at hdrop ⊢
        exact hdrop ▸ List.forall₂_drop ended hchains
    · have hnew : Trail.calls (l :: K) = (l :: K) :: K.calls := by simp [Trail.calls, hl]
      rw [hnew, if_pos (by rw [hlength, List.length_cons]; exact Nat.lt_succ_self _)]
      refine .cons ⟨⟨l, K, rfl, hl, hi.dump, hi.exits⟩, ?_, ?_⟩ hchains
      · rintro entry hentry
        obtain rfl := List.mem_singleton.1 hentry
        exact hi'.dump
      · rintro entry hentry
        obtain rfl := List.mem_singleton.1 hentry
        rw [hi'.exits, hi.exits]
        simp [Trail.exits, hl]

theorem constantDepth_of_flows (hchains : List.Forall₂ (CallChain.Of rest.length) chains K.calls)
    (hf : Flows n L rest K flow s) : ConstantDepth chains flow s := by
  obtain ⟨env, st, hi, -⟩ := hf.inside
  refine ⟨fun chain hchain => ?_, ?_, fun ht => ?_⟩
  · obtain ⟨i, hi, rfl⟩ := List.getElem_of_mem hchain
    exact ((List.forall₂_iff_get.1 hchains).2 i hi (hchains.length_eq ▸ hi)).constant
  -- Above the return of the latest call, the dump has only joins.
  · obtain ⟨above, habove, hdump⟩ := Trail.dump_eq_branches rest.length K
    refine ⟨above, habove, ?_⟩
    rw [hi.dump, hdump]
    generalize K.calls = calls at hchains
    cases hchains with
    | nil => rfl
    | cons hchain _ => rw [List.head?_cons, List.head?_cons, Option.elim_some, Option.elim_some,
        hchain.dump _ List.mem_cons_self]
  -- Where a tail call comes next, no join is open, so the top of the dump is the return of the
  -- latest chain.
  · obtain ⟨callerEnv, callerCode, exits, htop⟩ := ht.top hf
    obtain ⟨l, K₁, outer, hcalls, hK₁, rfl, hs₁⟩ := Trail.calls_of_top htop
    rw [hcalls] at hchains
    obtain ⟨chain, chains, hchain, -, rfl⟩ := List.forall₂_cons_right_iff.1 hchains
    have hlatest := hchain.dump _ List.mem_cons_self
    refine ⟨chain, chains, rfl, by rw [hi.dump, hK₁, hlatest], fun flow' s' hp => ?_⟩
    obtain ⟨callerEnv', callerCode', exits, htop', hdump, hexits⟩ := ht.takesOver hp
    obtain ⟨l', K₂, hT, -, -, hcallerExits⟩ := hchain.isCall
    obtain ⟨rfl, rfl⟩ := List.cons.inj hT
    rw [Stack.top?, hi.dump, htop] at htop'
    cases htop'
    refine ⟨congrArg Stack.items hdump, ?_⟩
    rw [hexits, hcallerExits]
    exact Stack.items_truncate (hi.exits ▸ Trail.exits_suffix rest.length hs₁)

end

/-- Tail calls run in constant depth: at every moment of every session, all functions that have
    been entered in a chain of tail calls found the same dump, which no branch has grown. -/
theorem Session.constantDepth_run (config : Config) (level : LogLevel) (commands : List Command) :
    run (.noted chainNotes ConstantDepth) config level commands = run .plain config level commands ∧
      (run (.noted chainNotes ConstantDepth) config level commands).BreaksNoRule :=
  run_of_checks (.noted chainNotes ConstantDepth)
    (Engine.noted_inOrder chainNotes_keep constantDepth_of_flows) config level commands

end StackLisp
