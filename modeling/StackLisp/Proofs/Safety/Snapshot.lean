import StackLisp.Proofs.Actions.Watched

/-!
# Exits as snapshots

A `return-from` does not jump: it walks the code ahead of it, leaves the constructs
that it comes out of one by one, and stops at the end of a block of its name. At
every moment of every run, this amounts to coming back to how the machine was when
the innermost active block of that name was entered (`ActiveBlock.Restores`), with
the code that follows the end of that very block (`BlockEnd`).
-/

namespace StackLisp

open Interpreter Layout Machine

/-! ## The end of a block -/

/-- Instructions after which code goes on, inside of as many blocks as before. -/
def Opcode.isStraight : Opcode → Bool
  | .block | .blockend | .tsel | .rtn | .join | .stop => false
  | _ => true

/-- On a way through the code `c`, which is inside of `depth + 1` blocks, the outermost
    of them ends, and `k` follows its end. -/
inductive BlockEnd (h : Heap) : Nat → Value → Value → Prop
  | here {c name k : Value} (instr : h.instruction? c = some (.blockend, [name], k)) :
      BlockEnd h 0 c k
  | leave {depth : Nat} {c c' name k : Value}
      (instr : h.instruction? c = some (.blockend, [name], c')) (rest : BlockEnd h depth c' k) :
      BlockEnd h (depth + 1) c k
  | enter {depth : Nat} {c c' name k : Value}
      (instr : h.instruction? c = some (.block, [name], c')) (rest : BlockEnd h (depth + 1) c' k) :
      BlockEnd h depth c k
  | yes {depth : Nat} {c c' x y k : Value} (instr : h.instruction? c = some (.tsel, [x, y], c'))
      (arm : BlockEnd h depth x k) : BlockEnd h depth c k
  | no {depth : Nat} {c c' x y k : Value} (instr : h.instruction? c = some (.tsel, [x, y], c'))
      (arm : BlockEnd h depth y k) : BlockEnd h depth c k
  | pass {depth : Nat} {code : Opcode} {vs : List Value} {c c' k : Value}
      (instr : h.instruction? c = some (code, vs, c')) (straight : code.isStraight = true)
      (rest : BlockEnd h depth c' k) : BlockEnd h depth c k

section

variable {L : Layout} {h : Heap} {depth : Nat} {c c' k : Value}

/-- Operands that the layout knows of can be fetched. -/
theorem Layout.Operands.operandsAt {vs : List Value} (ho : L.Operands h vs c k) :
    h.operandsAt vs.length c = some (vs, k) := by
  induction ho with
  | nil => rfl
  | cons _ _ _ ih => simp [Heap.operandsAt, ih]

/-- An instruction that the layout knows of can be fetched. -/
theorem Layout.Instr.instruction? {code : Opcode} {vs : List Value} (hi : L.Instr h code vs c k)
    (hlen : vs.length = code.operandCount) : h.instruction? c = some (code, vs, k) := by
  obtain ⟨-, op, operands⟩ := hi
  simp [Heap.instruction?, op, ← hlen, operands.operandsAt]

/-- An instruction that goes straight on is passed. -/
theorem blockEnd_pass {code : Opcode} {vs : List Value}
    (hi : h.instruction? c = some (code, vs, c')) (hcode : code.isStraight = true) :
    BlockEnd h depth c k ↔ BlockEnd h depth c' k := by
  refine ⟨fun hb => ?_, .pass hi hcode⟩
  cases hb with
  | pass instr _ rest =>
    obtain ⟨-, -, rfl⟩ : _ = _ ∧ _ = _ ∧ _ = _ := by simpa using hi.symm.trans instr
    exact rest
  | here instr | leave instr _ | enter instr _ | yes instr _ | no instr _ =>
    obtain ⟨rfl, -, -⟩ : _ = _ ∧ _ = _ ∧ _ = _ := by simpa using hi.symm.trans instr
    cases hcode

/-- Another block is entered, and has to end first. -/
theorem blockEnd_block {name : Value} (hi : h.instruction? c = some (.block, [name], c')) :
    BlockEnd h depth c k ↔ BlockEnd h (depth + 1) c' k := by
  refine ⟨fun hb => ?_, .enter hi⟩
  cases hb with
  | enter instr rest =>
    obtain ⟨-, rfl⟩ : _ = _ ∧ _ = _ := by simpa using hi.symm.trans instr
    exact rest
  | pass instr straight _ =>
    obtain ⟨rfl, -, -⟩ : _ = _ ∧ _ = _ ∧ _ = _ := by simpa using hi.symm.trans instr
    cases straight
  | here instr | leave instr _ | yes instr _ | no instr _ => simp [hi] at instr

/-- The ways through both arms count. -/
theorem blockEnd_tsel {x y : Value} (hi : h.instruction? c = some (.tsel, [x, y], c')) :
    BlockEnd h depth c k ↔ BlockEnd h depth x k ∨ BlockEnd h depth y k := by
  refine ⟨fun hb => ?_, fun hb => hb.elim (.yes hi) (.no hi)⟩
  cases hb with
  | yes instr arm =>
    obtain ⟨⟨rfl, -⟩, -⟩ : (_ = _ ∧ _ = _) ∧ _ = _ := by simpa using hi.symm.trans instr
    exact .inl arm
  | no instr arm =>
    obtain ⟨⟨-, rfl⟩, -⟩ : (_ = _ ∧ _ = _) ∧ _ = _ := by simpa using hi.symm.trans instr
    exact .inr arm
  | pass instr straight _ =>
    obtain ⟨rfl, -, -⟩ : _ = _ ∧ _ = _ ∧ _ = _ := by simpa using hi.symm.trans instr
    cases straight
  | here instr | leave instr _ | enter instr _ => simp [hi] at instr

/-- The end of a block is the one looked for, or it leaves one of those entered on the way. -/
theorem blockEnd_blockend {name : Value} (hi : h.instruction? c = some (.blockend, [name], c')) :
    BlockEnd h depth c k ↔
      match depth with
      | 0 => k = c'
      | depth + 1 => BlockEnd h depth c' k := by
  constructor
  · intro hb
    -- The instruction is known, so every other way to the end starts with a different one.
    cases hb with
    | here instr =>
      obtain ⟨-, rfl⟩ : _ = _ ∧ _ = _ := by simpa using hi.symm.trans instr
      rfl
    | leave instr rest =>
      obtain ⟨-, rfl⟩ : _ = _ ∧ _ = _ := by simpa using hi.symm.trans instr
      exact rest
    | pass instr straight _ =>
      obtain ⟨rfl, -, -⟩ : _ = _ ∧ _ = _ ∧ _ = _ := by simpa using hi.symm.trans instr
      cases straight
    | enter instr _ | yes instr _ | no instr _ => simp [hi] at instr
  · intro hb
    cases depth with
    | zero => exact hb ▸ .here hi
    | succ depth => exact .leave hi hb

/-- How many of the constructs are blocks. -/
def blockDepth (ctx : List Item) : Nat :=
  ctx.countP fun i => match i.construct with
    | .block _ => true
    | _ => false

/-- A block around counts. -/
theorem blockDepth_block {name next : Value} {env : List FrameShape} {below : List Slot}
    {ctx : List Item} : blockDepth (⟨.block name, env, below, next⟩ :: ctx) = blockDepth ctx + 1 := by
  simp [blockDepth]

/-- Code inside of a block comes to the end of that block on every way, and what follows is
    always the same. -/
theorem Layout.Code.blockEnd_iff {b : Base} {env : List FrameShape} {st : List Slot} {ctx : List Item}
    (hc : L.Code h b env st ctx c) {name next : Value} {env' : List FrameShape} {below : List Slot}
    {outer : List Item} :
    ∀ inner : List Item, (∀ i ∈ inner, i.construct ≠ .join) →
      ctx = inner ++ ⟨.block name, env', below, next⟩ :: outer →
      ∀ k, BlockEnd h (blockDepth inner) c k ↔ k = next := by
  -- The induction is along the code. `inner` has the constructs entered on the way, whose ends come
  -- first.
  induction hc with
  | ldc instr _ _ ih | ld instr _ _ _ _ _ ih | ldr instr _ _ _ _ _ ih | ldg instr _ ih
  | gfn instr _ ih | setl instr _ _ _ _ _ ih | setlr instr _ _ _ _ _ ih | setg instr _ ih
  | ldf instr _ _ ih | ap instr _ _ ih | tap instr _ _ _ ih | rap instr _ _ ih
  | sel instr _ _ _ _ _ ih | pop instr _ ih | callp instr _ _ ih | retfrom instr _ _ ih
  | go instr _ _ _ _ ih =>
    intro inner hinner hctx k
    rw [blockEnd_pass (instr.instruction? rfl) rfl]
    exact ih inner hinner hctx k
  | dum instr _ load _ _ ih =>
    intro inner hinner hctx k
    rw [blockEnd_pass (instr.instruction? rfl) rfl, blockEnd_pass (load.instruction? rfl) rfl]
    exact ih inner hinner hctx k
  | bind instr _ _ _ ih _ | tagbody instr _ _ _ _ _ _ _ ih _ =>
    intro inner hinner hctx k
    rw [blockEnd_pass (instr.instruction? rfl) rfl]
    subst hctx
    refine ih (_ :: inner) ?_ rfl k
    simpa using hinner
  -- The end of a construct is not the one of the block, so it is one of those entered.
  | unbind instr _ ih | tagend instr _ ih =>
    intro inner hinner hctx k
    rw [blockEnd_pass (instr.instruction? rfl) rfl]
    cases inner with
    | nil => simp at hctx
    | cons i inner =>
      obtain ⟨rfl, hrest⟩ := List.cons.inj hctx
      exact ih inner (fun j hj => hinner j (List.mem_cons_of_mem _ hj)) hrest k
  -- Both arms lead to the same code.
  | tsel instr _ _ _ _ ihyes ihno _ =>
    intro inner hinner hctx k
    rw [blockEnd_tsel (instr.instruction? rfl), ihyes inner hinner hctx k, ihno inner hinner hctx k,
      or_self]
  | block instr _ _ _ ih _ =>
    intro inner hinner hctx k
    rw [blockEnd_block (instr.instruction? rfl)]
    subst hctx
    rw [← blockDepth_block]
    refine ih (_ :: inner) ?_ rfl k
    simpa using hinner
  | blockend instr _ ih =>
    intro inner hinner hctx k
    rw [blockEnd_blockend (instr.instruction? rfl)]
    cases inner with
    | nil =>
      obtain ⟨hitem, -⟩ := List.cons.inj hctx
      cases hitem
      rfl
    | cons i inner =>
      obtain ⟨rfl, hrest⟩ := List.cons.inj hctx
      rw [blockDepth_block]
      exact ih inner (fun j hj => hinner j (List.mem_cons_of_mem _ hj)) hrest k
  | join instr =>
    intro inner hinner hctx
    cases inner with
    | nil => simp at hctx
    | cons i inner =>
      obtain ⟨rfl, -⟩ := List.cons.inj hctx
      exact absurd rfl (hinner _ List.mem_cons_self)
  | rtn | stop | reached =>
    intro inner hinner hctx
    simp at hctx

/-- From the beginning of a block, the outermost end is its own. -/
theorem Layout.Body.blockEnd_iff {name next : Value} {env : List FrameShape} {below : List Slot}
    {outer : List Item} (hb : L.Body h (⟨.block name, env, below, next⟩ :: outer) c) :
    BlockEnd h 0 c k ↔ k = next := by
  cases hb with
  | code code => exact code.blockEnd_iff [] (List.forall_mem_nil _) rfl k
  | load instr code =>
    rw [blockEnd_pass (instr.instruction? rfl) rfl]
    exact code.blockEnd_iff [] (List.forall_mem_nil _) rfl k

end

/-! ## Active blocks -/

/-- A block that is active: what its exit has kept, the interpreter right after its entry,
    and the exits below it. -/
structure ActiveBlock where
  stack : Nat
  env : Value
  entry : Interpreter
  below : List Exit

/-- The active blocks of a name, the innermost first. -/
def activeBlocks (name : Value) : List Exit → List Interpreter → List ActiveBlock
  | .block entered stack env :: below, entry :: entries =>
    if entered = name then
      ⟨stack, env, entry, below⟩ :: activeBlocks name below entries
    else
      activeBlocks name below entries
  | .tagbody .. :: below, _ :: entries => activeBlocks name below entries
  | _, _ => []

/-- The interpreter `s'` is `s`, back at the end of an active block with a value. -/
structure ActiveBlock.Restores (block : ActiveBlock) (v : Value) (s s' : Interpreter) : Prop where
  exits : s'.machine.exits.items = block.below
  stack : ∃ above kept, s.machine.stack.items = above ++ kept ∧ kept.length = block.stack ∧
    s'.machine.stack.items = v :: kept
  env : s'.machine.env = block.env
  dump : s'.machine.dump.items = block.entry.machine.dump.items
  bindings : s'.machine.bindings.items = block.entry.machine.bindings.items
  /-- The value cells bound since the entry are put back, the latest first. -/
  cells : ∃ undone, s.machine.bindings.items = undone ++ block.entry.machine.bindings.items ∧
    s'.image.symbols = s.image.symbols.restoreAll undone
  control : ∀ k, BlockEnd s.image.heap 0 block.entry.machine.control k ↔ k = s'.machine.control
  /-- Nothing else is changed. -/
  same : s' = { s with
    image.symbols := s'.image.symbols
    machine := { s.machine with
      stack := s'.machine.stack
      env := s'.machine.env
      control := s'.machine.control
      dump := s'.machine.dump
      exits := s'.machine.exits
      bindings := s'.machine.bindings } }

/-- Leaving a block by a walk comes back to the end of an active block. -/
def ActiveBlock.ExitsTo (block : ActiveBlock) (name v : Value) (s : Interpreter) : Prop :=
  ∃ N, ∀ fuel, N ≤ fuel → ∃ s', exitBlock name v fuel 0 s = .ok () s' ∧ block.Restores v s s'

/-- Every `return-from` comes back to the end of the innermost active block of its name,
    and is a late exit if there is none. -/
def exitsRestore : Watch
  | entries, .request (.returnFrom name v), s =>
    match activeBlocks name s.machine.exits.items entries with
    | block :: _ => block.ExitsTo name v s
    | [] => ∃ N, ∀ fuel, N ≤ fuel → ∃ text s',
        exitBlock name v fuel 0 s = .error (.error (.fatal (.blockNotActive text))) s'
  | _, _, _ => True

section

variable {n : Nat} {L : Layout} {h : Heap} {rest : List SavedValue} {K : Trail}
  {entries : List Interpreter} {s : Interpreter}

/-- The innermost active block of a name is the innermost level of it. -/
theorem EntriesOf.activeBlocks (he : EntriesOf L h rest K entries) (name : Value) :
    (K.toBlock name = none ∧ activeBlocks name (K.exits rest.length) entries = []) ∨
      ∃ l K' entry others, K.toBlock name = some (l, K') ∧
        activeBlocks name (K.exits rest.length) entries =
          ⟨(Trail.operands (l :: K')).length, l.outer, entry, K'.exits rest.length⟩ :: others ∧
        entry.machine.dump.items = K'.dump rest.length ∧
        entry.machine.bindings.items = K'.saved ++ rest ∧
        L.Body h (Trail.context (l :: K')) entry.machine.control := by
  -- Outward through the levels: only those of blocks count, and of these only those of the name.
  induction he with
  | nil => exact .inl ⟨rfl, rfl⟩
  | @other l K entries kind _ ih =>
    have hblock : Trail.toBlock name (l :: K) = K.toBlock name := by
      cases hk : l.kind <;> simp [hk, LevelKind.isExit, Trail.toBlock] at kind ⊢
    have hexits : Trail.exits rest.length (l :: K) = K.exits rest.length := by
      cases hk : l.kind <;> simp [hk, LevelKind.isExit, Trail.exits] at kind ⊢
    rw [hblock, hexits]
    exact ih
  | @exit l K entry entries kind dump bindings body _ ih =>
    cases hk : l.kind with
    | call | join | bind _ _ => simp [hk, LevelKind.isExit] at kind
    | tagbody id table => simpa [Trail.toBlock, Trail.exits, hk, StackLisp.activeBlocks] using ih
    | block entered =>
      by_cases hname : entered = name
      · refine .inr ⟨l, K, entry, StackLisp.activeBlocks name (K.exits rest.length) entries,
          by simp [Trail.toBlock, hk, hname], ?_, dump, bindings, body⟩
        simp [Trail.exits, hk, StackLisp.activeBlocks, hname]
      · simpa [Trail.toBlock, Trail.exits, hk, StackLisp.activeBlocks, hname] using ih

/-- Coming back to the end of a level is coming back to the end of its block. -/
theorem Walks.restores {l : Level} {K' : Trail} {name v : Value} {entry : Interpreter}
    (hw : Walks n L rest K s) (hs : l :: K' <:+ K) (hl : l.kind = .block name)
    (hdump : entry.machine.dump.items = K'.dump rest.length)
    (hbindings : entry.machine.bindings.items = K'.saved ++ rest)
    (hbody : L.Body s.image.heap (Trail.context (l :: K')) entry.machine.control) :
    ∃ s', (l.snapshot rest.length K').restore v s = .ok () s' ∧
      ActiveBlock.Restores ⟨(Trail.operands (l :: K')).length, l.outer, entry, K'.exits rest.length⟩
        v s s' := by
  have hK' : K' <:+ K := (List.suffix_cons l K').trans hs
  -- What the snapshot of the level restores is what was there at the entry of the block.
  obtain ⟨pre, hsaved⟩ := Trail.saved_suffix hK'
  have hitems : s.machine.bindings.items = pre ++ (K'.saved ++ rest) := by
    rw [hw.bindings, ← hsaved, List.append_assoc]
  have hlen : (l.snapshot rest.length K').bindings = (K'.saved ++ rest).length := by
    simp [Level.snapshot]
  have hoperands := (Trail.operands_suffix hs).trans hw.operands
  obtain ⟨above, habove⟩ := hoperands
  have hcontext : Trail.context (l :: K') = ⟨.block name, l.env, l.below, l.next⟩ :: K'.context := by
    simp [Trail.context, hl, LevelKind.construct?]
  rw [hcontext] at hbody
  refine ⟨_, Snapshot.restore_eq _ v hitems hlen, ?_, ⟨above, _, habove.symm, rfl, ?_⟩, rfl, ?_, ?_,
    ⟨pre, hbindings ▸ hitems, rfl⟩, fun k => hbody.blockEnd_iff, rfl⟩
  · exact Stack.items_truncate (s := s.machine.exits) (hw.exits ▸ Trail.exits_suffix rest.length hK')
  · simp only [Level.snapshot, Stack.items_push, Stack.items_truncate ⟨above, habove⟩]
  · have htrunc := Stack.items_truncate (s := s.machine.dump)
      (hw.dump ▸ Trail.dump_suffix rest.length hK')
    rw [Trail.length_dump] at htrunc
    exact htrunc.trans hdump.symm
  · rw [hlen, hbindings]
    exact Stack.items_truncate ⟨pre, hitems.symm⟩

/-- At every moment of a run, leaving a block comes back to the innermost active block of
    the name. -/
theorem exitsRestore_of_flows {flow : Flow} (he : EntriesOf L s.image.heap rest K entries)
    (hf : Flows n L rest K flow s) : exitsRestore entries flow s := by
  match flow with
  | .request (.returnFrom name v) =>
    obtain ⟨env, st, ⟨-, hi⟩, hcode⟩ := hf
    obtain ⟨N, hN⟩ := hi.walks.exit name v hcode
    unfold exitsRestore
    simp only [hi.exits]
    -- The innermost active block of the name is the level where the walk ends, if there is one.
    rcases he.activeBlocks name with ⟨hnone, hblocks⟩ | ⟨l, K', entry, others, hsome, hblocks, hentry⟩
    · rw [hblocks]
      refine ⟨N, fun fuel hfuel => ?_⟩
      have hend := (hN fuel).2 hfuel
      rw [hnone] at hend
      obtain ⟨text, s', hs', -⟩ := hend
      exact ⟨text, s', hs'⟩
    · rw [hblocks]
      refine ⟨N, fun fuel hfuel => ?_⟩
      have hend := (hN fuel).2 hfuel
      rw [hsome] at hend
      obtain ⟨hs, hl⟩ := Trail.toBlock_suffix hsome
      obtain ⟨s', hs', hrestores⟩ := hi.walks.restores (v := v) hs hl hentry.1 hentry.2.1 hentry.2.2
      exact ⟨s', hend.trans hs', hrestores⟩
  | .request (.call ..) | .request (.macroexpandOnce _) | .request (.macroexpand _)
  | .request (.eval _) | .next | .stop => trivial

end

/-- Whenever a session leaves a block by force, it comes back to the snapshot of the
    innermost active block of that name: checking this at every moment changes nothing. -/
theorem Session.exitsRestore_run (config : Config) (level : LogLevel) (commands : List Command) :
    run (.watched exitsRestore) config level commands = run .plain config level commands ∧
      (run (.watched exitsRestore) config level commands).BreaksNoRule :=
  run_of_flows exitsRestore_of_flows config level commands

end StackLisp
