import StackLisp.Proofs.Actions.Agreement
import StackLisp.Proofs.Binding
import StackLisp.Proofs.Safety.Watch
import StackLisp.Proofs.Walks

/-!
# The walk of a return-from ends

A `return-from` walks the code ahead without counting steps, takes returns and joins from
the dump on its way, and goes into the arms of branches. On code that is made by hand it
might go round in circles, but on code without cycles it does not (`exitBlock_halts`): at
every instruction it either goes on along its stream, or it takes a continuation off the dump
(`WalksOn`). Along a stream it meets no instruction twice, so the pairs of the heap bound the
instructions between two continuations (`Heap.Short`), and the height of the dump bounds the
continuations.
-/

namespace StackLisp

open Interpreter Machine

namespace Heap

/-- Code that one comes to from an instruction: what follows it, and the arms of a branch
    without a join. -/
def LeadsOn (h : Heap) (c c' : Value) : Prop :=
  ∃ code vs k, h.instruction? c = some (code, vs, k) ∧ (c' = k ∨ code = .tsel ∧ c' ∈ vs)

/-- From the code on, no instruction is come back to. -/
def AcyclicCode (h : Heap) (c : Value) : Prop := ¬Loops h.LeadsOn c

/-- From the code on, there are at most `n` instructions one after the other. -/
def Short (h : Heap) (n : Nat) (c : Value) : Prop :=
  ∀ l : List Value, (c :: l).IsChain h.LeadsOn → l.length ≤ n

section

variable {h : Heap} {c c' k : Value} {code : Opcode} {vs : List Value} {n : Nat}

/-- Code is free of cycles if what follows its first instruction is, and the arms of a branch are,
    too. -/
theorem acyclicCode_iff (hc : h.instruction? c = some (code, vs, k)) :
    h.AcyclicCode c ↔ h.AcyclicCode k ∧ (code = .tsel → ∀ x ∈ vs, h.AcyclicCode x) := by
  -- The stream goes on after the instruction, and a `TSEL` goes on with its arms too.
  have hnext : ∀ c', h.LeadsOn c c' ↔ c' = k ∨ code = .tsel ∧ c' ∈ vs := by
    intro c'
    constructor
    · rintro ⟨code', vs', k', hc', hnext⟩
      rw [hc, Option.some.injEq, Prod.mk.injEq, Prod.mk.injEq] at hc'
      obtain ⟨rfl, rfl, rfl⟩ := hc'
      exact hnext
    · exact fun hnext => ⟨code, vs, k, hc, hnext⟩
  unfold AcyclicCode
  rw [loops_iff]
  simp only [hnext]
  constructor
  · exact fun hloops => ⟨fun hk => hloops ⟨k, .inl rfl, hk⟩,
      fun htsel x hx hloop => hloops ⟨x, .inr ⟨htsel, hx⟩, hloop⟩⟩
  · rintro ⟨hk, harms⟩ ⟨x, rfl | ⟨htsel, hx⟩, hloop⟩
    · exact hk hloop
    · exact harms htsel x hx hloop

/-- Where no instruction can be fetched, there is nothing to follow. -/
theorem acyclicCode_of_instruction?_eq_none (hc : h.instruction? c = none) : h.AcyclicCode c := by
  intro hloops
  obtain ⟨c', ⟨code, vs, k, hc', -⟩, -⟩ := loops_iff.1 hloops
  rw [hc] at hc'
  cases hc'

/-- An instruction starts with a pair of the heap. -/
theorem mem_pairs_of_instruction? (hc : h.instruction? c = some (code, vs, k)) :
    c ∈ h.pairs.image Value.pair := by
  unfold instruction? at hc
  split at hc
  · next id =>
    split at hc
    · next op hop =>
      have hvalid : id.index < h.pairCount := by
        by_contra hid
        rw [car_of_size_le (Nat.le_of_not_lt hid)] at hop
        cases hop
      refine Finset.mem_image.2 ⟨id, Finset.mem_image.2 ⟨id.index, ?_, rfl⟩, rfl⟩
      exact Finset.mem_range.2 hvalid
    · cases hc
  · cases hc

/-- There are no more places in the code than pairs on the heap. -/
theorem card_image_pairs_le (h : Heap) : (h.pairs.image Value.pair).card ≤ h.pairCount :=
  Finset.card_image_le.trans h.card_pairs_le

/-- Without a cycle, no more instructions come one after the other than there are pairs. -/
theorem AcyclicCode.short (hc : h.AcyclicCode c) : h.Short h.pairCount c :=
  bounded_of_not_loops (fun _ _ ⟨_, _, _, hinstr, _⟩ => mem_pairs_of_instruction? hinstr) h.card_image_pairs_le hc

/-- One step further there is one step less to go. -/
theorem Short.next (hc : h.Short n c) (hnext : h.LeadsOn c c') : ∃ m, n = m + 1 ∧ h.Short m c' :=
  Bounded.next hc hnext

end

end Heap

/-! ## A step of the walk -/

/-- The code that a continuation goes on with. -/
def DumpEntry.code : DumpEntry → Value
  | .call _ code _ | .join code => code

/-- A walk goes on along its stream, or with the innermost continuation; pairs stay as they
    are. -/
def WalksOn (s s' : Interpreter) : Prop :=
  s'.image.heap = s.image.heap ∧
    (s'.machine.dump.items = s.machine.dump.items ∧
        s.image.heap.LeadsOn s.machine.control s'.machine.control ∨
      ∃ entry, s.machine.dump.items = entry :: s'.machine.dump.items ∧
        s'.machine.control = entry.code)

/-- A broken rule of the machine. -/
def Failure.IsFatal (e : Failure) : Prop := ∃ fault, e = .error (.fatal fault)

section

variable {s : Interpreter} {ok : Value → Interpreter → Prop} {target value : Value}

/-- Fetching an operand gives what is in the code, or it breaks a rule. -/
theorem leads_operand_fatal
    (found : ∀ id, s.machine.control = .pair id →
      ok (s.image.heap.car id) { s with machine.control := s.image.heap.cdr id }) :
    Leads operand s ok fun e _ => e.IsFatal := by
  unfold Leads operand
  cases hcontrol : s.machine.control with
  | pair id => exact found id hcontrol
  | _ => exact ⟨_, rfl⟩

/-- Going past operands comes to the code after them. -/
theorem leads_skipOperands (n : Nat) :
    Leads (skipOperands n) s
      (fun _ s' => ∃ vs k, s.image.heap.operandsAt n s.machine.control = some (vs, k) ∧
        s' = { s with machine.control := k })
      fun e _ => e.IsFatal := by
  induction n generalizing s with
  | zero => exact ⟨[], _, rfl, rfl⟩
  | succ n ih =>
    rw [skipOperands, leads_bind]
    refine leads_operand_fatal fun id hid => ih.mono ?_ fun _ _ he => he
    rintro _ s' ⟨vs, k, hk, rfl⟩
    refine ⟨s.image.heap.car id :: vs, k, ?_, rfl⟩
    simpa [Heap.operandsAt, hid] using hk

/-- The walk is at an instruction whose opcode has been fetched. -/
structure Fetched (code : Opcode) (s s' : Interpreter) : Prop where
  opcode : ∃ id, s.machine.control = .pair id ∧ s.image.heap.car id = .op code ∧
    s'.machine.control = s.image.heap.cdr id
  heap : s'.image.heap = s.image.heap
  dump : s'.machine.dump = s.machine.dump

/-- With its operands, what has been fetched is an instruction. -/
theorem Fetched.instruction? {code : Opcode} {s' : Interpreter} (hs : Fetched code s s')
    {vs : List Value} {k : Value}
    (hk : s'.image.heap.operandsAt code.operandCount s'.machine.control = some (vs, k)) :
    s.image.heap.instruction? s.machine.control = some (code, vs, k) := by
  obtain ⟨id, hid, hop, hcontrol⟩ := hs.opcode
  rw [hs.heap, hcontrol] at hk
  simp [Heap.instruction?, hid, hop, hk]

/-- What follows an instruction comes next. -/
theorem Fetched.walksOn {code : Opcode} {s' s'' : Interpreter} (hs : Fetched code s s')
    {vs : List Value} {k : Value}
    (hk : s'.image.heap.operandsAt code.operandCount s'.machine.control = some (vs, k))
    (hheap : s''.image.heap = s'.image.heap) (hdump : s''.machine.dump = s'.machine.dump)
    (hcontrol : s''.machine.control = k) : WalksOn s s'' :=
  ⟨hheap.trans hs.heap, .inl ⟨by rw [hdump, hs.dump],
    code, vs, k, hs.instruction? hk, .inl hcontrol⟩⟩

/-- A walk fetches the operation code it meets, or it breaks a rule. -/
theorem leads_meet :
    Leads (meet target) s (fun code s' => Fetched code s s') fun e _ => e.IsFatal := by
  unfold meet
  rw [leads_bind, leads_attempt]
  unfold fetch
  rw [leads_bind, leads_view]
  split
  · exact ⟨_, rfl⟩
  · rw [leads_bind]
    unfold Leads operand
    cases hcontrol : s.machine.control with
    | pair id =>
      dsimp only
      cases hop : s.image.heap.car id with
      | op code => exact ⟨⟨id, hcontrol, hop, rfl⟩, rfl, rfl⟩
      | _ => exact ⟨_, rfl⟩
    | _ => exact ⟨_, rfl⟩

/-- At every instruction the walk comes to its end, goes on, or fails by a broken rule. -/
theorem leads_pass {code : Opcode} {s₀ : Interpreter} (hs : Fetched code s₀ s) (skipped : Nat) :
    Leads (pass target value skipped code) s (fun next s' => next ≠ none → WalksOn s₀ s')
      fun e _ => e.IsFatal := by
  -- Most instructions are skipped with their operands.
  have hskip (next : Option Nat) :
      Leads (do skipOperands code.operandCount; return next : LispM (Option Nat)) s
        (fun next s' => next ≠ none → WalksOn s₀ s') fun e _ => e.IsFatal := by
    rw [leads_bind]
    refine (leads_skipOperands code.operandCount).mono ?_ fun _ _ he => he
    rintro _ s' ⟨vs, k, hk, rfl⟩ -
    exact hs.walksOn hk rfl rfl rfl
  cases code with
  | stop => exact ⟨_, rfl⟩
  | rtn | join =>
    rcases hdump : s.machine.dump with ⟨_ | ⟨_ | _, rest⟩, height, hheight⟩
    all_goals
      simp only [pass, returnToCaller, Machine.join, leads_bind, leads_view, hdump, Stack.pop?,
        leads_fault, leads_modifyMachine, leads_pure]
    all_goals first
      | exact ⟨_, rfl⟩
      | exact fun _ => ⟨hs.heap, .inr ⟨_, by rw [← hs.dump, hdump], rfl⟩⟩
  | tsel =>
    simp only [pass, leads_bind]
    refine leads_operand_fatal fun id hid => ?_
    refine leads_operand_fatal fun id' hid' => ?_
    simp only [leads_modifyMachine, leads_pure]
    refine fun _ => ⟨hs.heap, .inl ⟨by rw [← hs.dump], ?_⟩⟩
    refine ⟨.tsel, [s.image.heap.car id, s.image.heap.car id'], s.image.heap.cdr id', ?_, ?_⟩
    · refine hs.instruction? ?_
      rw [hid]
      have hid' : s.image.heap.cdr id = .pair id' := hid'
      simp [Opcode.operandCount, Heap.operandsAt, hid']
    · exact .inr ⟨rfl, List.mem_cons_self⟩
  | block | tagbody | bind => exact hskip _
  | blockend =>
    simp only [pass, leads_bind]
    refine leads_operand_fatal fun id hid => ?_
    have hk : s.image.heap.operandsAt Opcode.blockend.operandCount s.machine.control =
        some ([s.image.heap.car id], s.image.heap.cdr id) := by
      simp [Opcode.operandCount, Heap.operandsAt, hid]
    cases skipped with
    | succ skipped => exact fun _ => hs.walksOn hk rfl rfl rfl
    | zero =>
      simp only [leaveBlock, leads_bind, leads_view]
      split
      · split
        · exact ⟨_, rfl⟩
        · simp only [leads_pure, leads_modifyMachine, leads_bind]
          split
          · exact fun h => absurd rfl h
          · exact fun _ => hs.walksOn hk rfl rfl rfl
      · exact ⟨_, rfl⟩
  | tagend =>
    have hnone : s.image.heap.operandsAt Opcode.tagend.operandCount s.machine.control =
        some ([], s.machine.control) := rfl
    cases skipped with
    | succ skipped => exact fun _ => hs.walksOn hnone rfl rfl rfl
    | zero =>
      simp only [pass, endTagbody, leads_bind, leads_view]
      split
      · exact fun _ => hs.walksOn hnone rfl rfl rfl
      · exact ⟨_, rfl⟩
  | unbind =>
    simp only [pass, operandSymbol, leads_bind]
    refine leads_operand_fatal fun id hid => ?_
    have hk : s.image.heap.operandsAt Opcode.unbind.operandCount s.machine.control =
        some ([s.image.heap.car id], s.image.heap.cdr id) := by
      simp [Opcode.operandCount, Heap.operandsAt, hid]
    split
    · rw [leads_pure]
      cases skipped with
      | succ skipped => exact fun _ => hs.walksOn hk rfl rfl rfl
      | zero =>
        rw [leads_bind, leads_unbindSpecial]
        split
        · exact ⟨_, rfl⟩
        · split
          · exact fun _ => hs.walksOn hk rfl rfl rfl
          · exact ⟨_, rfl⟩
    · exact ⟨_, rfl⟩
  | _ => exact hskip _

end

/-! ## The walk as a whole -/

/-- The walk of a `return-from` has come to its end: to the end of the block, or to a broken
    rule. -/
def Halts : EStateM.Result Failure Interpreter Unit → Prop
  | .ok _ _ => True
  | .error e _ => e.IsFatal

/-- Coming to an end means to find the exit, or to fail by a broken rule. -/
theorem halts_iff {x : LispM Unit} {s : Interpreter} :
    Halts (x s) ↔ Leads x s (fun _ _ => True) fun e _ => e.IsFatal := by
  unfold Halts Leads
  cases x s <;> rfl

/-- With at most `n` instructions ahead on the stream, and at most `m` after each continuation,
    so many steps are enough. -/
theorem halts_of_short {target value : Value} {m : Nat} :
    ∀ {fuel n skipped : Nat} {s : Interpreter}, s.image.heap.Short n s.machine.control →
      (∀ entry ∈ s.machine.dump.items, s.image.heap.Short m entry.code) →
      n + s.machine.dump.items.length * (m + 1) < fuel →
      Halts (exitBlock target value fuel skipped s)
  | 0, _, _, _, _, _, hfuel => absurd hfuel (Nat.not_lt_zero _)
  | fuel + 1, n, skipped, s, hcontrol, hdump, hfuel => by
    rw [halts_iff, exitBlock_succ, leads_bind]
    refine leads_meet.mono (fun code s₁ hfetched => ?_) fun _ _ he => he
    rw [leads_bind]
    refine (leads_pass hfetched skipped).mono (fun next s₂ hwalks => ?_) fun _ _ he => he
    -- Either the walk passed one instruction, and the stream left is shorter, or it took an entry
    -- off the dump.
    cases next with
    | none => trivial
    | some skipped =>
      obtain ⟨hheap, ⟨hsame, hnext⟩ | ⟨entry, hentry, hcode⟩⟩ := hwalks nofun
      · obtain ⟨n, rfl, hshort⟩ := hcontrol.next hnext
        exact halts_iff.1
          (halts_of_short (by rwa [hheap]) (by rwa [hheap, hsame]) (by rw [hsame]; omega))
      · rw [hentry] at hdump hfuel
        obtain ⟨hfirst, hrest⟩ := List.forall_mem_cons.1 hdump
        rw [List.length_cons, Nat.add_mul] at hfuel
        exact halts_iff.1 (halts_of_short (by rwa [hheap, hcode]) (by rwa [hheap]) (by omega))

/-- On code without cycles, also in the continuations on the dump, the walk of a `return-from`
    ends, in the block or by a broken rule of the machine. A number of steps that grows with the
    heap and the dump is always enough, and every greater bound gives the same outcome. -/
theorem exitBlock_halts (target value : Value) (skipped : Nat) {s : Interpreter}
    (control : s.image.heap.AcyclicCode s.machine.control)
    (dump : ∀ entry ∈ s.machine.dump.items, s.image.heap.AcyclicCode entry.code) :
    ∃ outcome, Halts outcome ∧
      ∀ fuel, (s.image.heap.pairCount + 1) * (s.machine.dump.height + 1) ≤ fuel →
        exitBlock target value fuel skipped s = outcome := by
  -- The control and every entry of the dump are streams no longer than there are pairs.
  have henough (fuel : Nat)
      (hfuel : (s.image.heap.pairCount + 1) * (s.machine.dump.height + 1) ≤ fuel) :
      Halts (exitBlock target value fuel skipped s) := by
    refine halts_of_short control.short (fun entry hentry => (dump entry hentry).short) ?_
    rw [s.machine.dump.height_eq, Nat.mul_add, Nat.mul_one, Nat.mul_comm] at hfuel
    omega
  refine ⟨_, henough _ (Nat.le_refl _), fun fuel hfuel => ?_⟩
  induction hfuel with
  | refl => rfl
  | @step fuel hfuel ih =>
    rw [← ih]
    -- One unit of fuel more only matters where the walk gave up, and with enough it does not.
    rcases (agree_exitBlock target value fuel skipped).agrees s with heq | ⟨s', hendless⟩
    · exact heq.symm
    · have hend := henough fuel hfuel
      rw [hendless] at hend
      obtain ⟨fault, hfault⟩ := hend
      cases hfault

/-- A branch without a join, whose first arm returns to the end of the block `b`. -/
def beforeReturn : Interpreter :=
  let b : Value := .symbol ⟨2⟩
  let returning := (((Heap.empty 7).push (.op .rtn) .nil).push .nil .nil).push (.pair ⟨0⟩) (.pair ⟨1⟩)
  let ending := ((returning.push (.op .tsel) (.pair ⟨2⟩)).push (.op .stop) .nil).push b (.pair ⟨4⟩)
  { image := { heap := ending.push (.op .blockend) (.pair ⟨5⟩) }
    machine :=
      { control := .pair ⟨3⟩
        dump := Stack.empty.push (.call .nil (.pair ⟨6⟩) 1)
        exits := Stack.empty.push (.block b 0 .nil) } }

/-- The walk passes a branch and the end of a function, takes up the caller's code from the dump,
    and finds the end of the block there. -/
theorem exitBlock_halts_beforeReturn :
    beforeReturn.image.heap.AcyclicCode beforeReturn.machine.control ∧
      (∀ entry ∈ beforeReturn.machine.dump.items, beforeReturn.image.heap.AcyclicCode entry.code) ∧
      ∀ fuel, 16 ≤ fuel → Leads (exitBlock (.symbol ⟨2⟩) .t fuel 0) beforeReturn
        (fun _ s => s.machine.control = .pair ⟨4⟩ ∧ s.machine.stack.items = [.t]) fun _ _ => False := by
  have hnil : beforeReturn.image.heap.AcyclicCode .nil := Heap.acyclicCode_of_instruction?_eq_none rfl
  have hrtn : beforeReturn.image.heap.AcyclicCode (.pair ⟨0⟩) :=
    (Heap.acyclicCode_iff (show _ = some (.rtn, [], .nil) from rfl)).2 ⟨hnil, nofun⟩
  have hcontrol : beforeReturn.image.heap.AcyclicCode (.pair ⟨3⟩) := by
    refine (Heap.acyclicCode_iff (show _ = some (.tsel, [.pair ⟨0⟩, .nil], .nil) from rfl)).2
      ⟨hnil, fun _ => ?_⟩
    simp only [List.forall_mem_cons]
    exact ⟨hrtn, hnil, nofun⟩
  have hstop : beforeReturn.image.heap.AcyclicCode (.pair ⟨4⟩) :=
    (Heap.acyclicCode_iff (show _ = some (.stop, [], .nil) from rfl)).2 ⟨hnil, nofun⟩
  have hend : beforeReturn.image.heap.AcyclicCode (.pair ⟨6⟩) :=
    (Heap.acyclicCode_iff (show _ = some (.blockend, [.symbol ⟨2⟩], .pair ⟨4⟩) from rfl)).2
      ⟨hstop, nofun⟩
  have hdump : ∀ entry ∈ beforeReturn.machine.dump.items,
      beforeReturn.image.heap.AcyclicCode entry.code := by
    intro entry hentry
    rw [List.mem_singleton.1 hentry]
    exact hend
  refine ⟨hcontrol, hdump, fun fuel hfuel => ?_⟩
  obtain ⟨outcome, -, houtcome⟩ := exitBlock_halts (.symbol ⟨2⟩) .t 0 hcontrol hdump
  -- With the bound as fuel, the walk can be run; with more, it does the same.
  have hsixteen : Leads (exitBlock (.symbol ⟨2⟩) .t 16 0) beforeReturn
      (fun _ s => s.machine.control = .pair ⟨4⟩ ∧ s.machine.stack.items = [.t])
      fun _ _ => False := by decide +kernel
  unfold Leads at hsixteen ⊢
  rwa [houtcome fuel hfuel, ← houtcome 16 (Nat.le_refl 16)]

end StackLisp
