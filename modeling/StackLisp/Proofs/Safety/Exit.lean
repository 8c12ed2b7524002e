import StackLisp.Proofs.Safety.Unwind

/-!
# Non-local exits in order

A `go` to a tag of an active tagbody comes back to the level of that tagbody
(`safe_goTo`). A `return-from` walks the code ahead to the end of the innermost
block of its name, and the state it ends in is the one that restoring the
`Level.snapshot` of that block gives (`Walks.exit`). If there is no such block, the
walk ends at the end of the run.

The walk follows the code, so the proof is by induction on the code, where the
constructs that are entered on the walk stand in front of those of the trail; at
the end of a level it goes on with the code after that level, by induction on the
trail.
-/

namespace StackLisp

open Interpreter Layout Machine

/-- The innermost block of a name, and the trail around it. -/
def Trail.toBlock (name : Value) : Trail → Option (Level × Trail)
  | [] => none
  | l :: K =>
    match l.kind with
    | .block entered => if entered = name then some (l, K) else toBlock name K
    | _ => toBlock name K

/-- The block is one of the levels, and the trail around it is what is below. -/
theorem Trail.toBlock_suffix {name : Value} {l : Level} {K' : Trail} :
    ∀ {K : Trail}, K.toBlock name = some (l, K') → l :: K' <:+ K ∧ l.kind = .block name
  | [], h => by cases h
  | l' :: K, h => by
    have outward (h : toBlock name K = some (l, K')) : l :: K' <:+ l' :: K ∧ l.kind = .block name :=
      ⟨(toBlock_suffix h).1.trans (List.suffix_cons _ _), (toBlock_suffix h).2⟩
    unfold toBlock at h
    split at h
    · next entered hk =>
      split at h
      · next heq =>
        cases h
        exact ⟨List.suffix_refl _, heq ▸ hk⟩
      · exact outward h
    · exact outward h

/-- The machine on its way out of a trail. -/
structure Walks (n : Nat) (L : Layout) (rest : List SavedValue) (K : Trail) (s : Interpreter) :
    Prop where
  sound : Sound L s
  around : n ≤ s.image.heap.frames.size
  valid : K.Valid L s.image.heap
  operands : K.operands <:+ s.machine.stack.items
  frames : Dummies n s.image.heap K.frames
  dump : s.machine.dump.items = K.dump rest.length
  exits : s.machine.exits.items = K.exits rest.length
  bindings : s.machine.bindings.items = K.saved ++ rest

section

variable {n : Nat} {L : Layout} {rest : List SavedValue} {K : Trail} {env : List FrameShape}
  {st : List Slot} {s s' s'' : Interpreter}

/-- A walk begins inside of a trail. -/
theorem Inside.walks (hi : Inside n L rest K env st s) : Walks n L rest K s := by
  obtain ⟨vs, fs, -, hstack, hd⟩ := hi.operands
  exact ⟨hi.sound, hi.around, hi.valid, ⟨vs, hstack.symm⟩, hd.suffix (List.suffix_append _ _),
    hi.dump, hi.exits, hi.bindings⟩

/-- The bindings of the run are above those of before. -/
theorem Walks.bindings_suffix (hw : Walks n L rest K s) : rest <:+ s.machine.bindings.items :=
  ⟨K.saved, hw.bindings.symm⟩

theorem Unwinds.refl (s : Interpreter) : Unwinds s s :=
  ⟨rfl, List.suffix_refl _, List.suffix_refl _, [], rfl, rfl⟩

/-- Levels that are left one after the other. -/
theorem Unwinds.trans (hu : Unwinds s s') (hu' : Unwinds s' s'') : Unwinds s s'' := by
  obtain ⟨popped, hitems, hsymbols⟩ := hu.bindings
  obtain ⟨popped', hitems', hsymbols'⟩ := hu'.bindings
  refine ⟨?_, hu'.dump.trans hu.dump, hu'.exits.trans hu.exits, popped ++ popped', ?_, ?_⟩
  · rw [hu'.same, hu.same]
  · rw [hitems, hitems', List.append_assoc]
  · rw [hsymbols', hsymbols, SymbolTable.restoreAll_append]

/-- The heap is the same. -/
theorem Unwinds.heap (hu : Unwinds s s') : s'.image.heap = s.image.heap := by
  rw [hu.same]

/-- Ending bindings keeps the interpreter in order. -/
theorem Unwinds.sound (hu : Unwinds s s') (hs : Sound L s) : Sound L s' := by
  obtain ⟨popped, hitems, hsymbols⟩ := hu.bindings
  rw [hu.same, hsymbols]
  exact hs.unwind hitems rfl

/-- So a machine that has left some levels goes on in order. -/
theorem Unwinds.goes (hu : Unwinds s s') (hs : Sound L s)
    (hrest : rest <:+ s'.machine.bindings.items) : Goes n rest L s L s' :=
  ⟨hu.heap ▸ .refl n L _, hu.sound hs, fun hi => by rw [hu.same]; exact hi.of_eq rfl rfl rfl,
    hrest⟩

/-- Leaving the innermost level. -/
theorem Walks.outward {l : Level} (hw : Walks n L rest (l :: K) s) (hu : Unwinds s s')
    (hdump : s'.machine.dump.items = K.dump rest.length)
    (hexits : s'.machine.exits.items = K.exits rest.length)
    (hbindings : s'.machine.bindings.items = K.saved ++ rest) : Walks n L rest K s' := by
  have hstack : s'.machine.stack = s.machine.stack := by rw [hu.same]
  refine ⟨hu.sound hw.sound, hu.heap ▸ hw.around, hu.heap ▸ hw.valid.2, ?_, ?_, hdump, hexits,
    hbindings⟩
  · rw [hstack]
    exact (List.suffix_append _ _).trans hw.operands
  · rw [hu.heap]
    exact hw.frames.suffix (List.suffix_append _ _)

/-- Coming back to the end of a level. -/
theorem Walks.restore {l : Level} {K' : Trail} (hw : Walks n L rest K s) (hs : l :: K' <:+ K)
    {v : Value} (hv : L.Visible v) :
    ∃ s', (l.snapshot rest.length K').restore v s = .ok () s' ∧
      Inside n L rest K' l.env (.value :: l.below) s' ∧ s'.machine.control = l.next ∧
      Goes n rest L s L s' := by
  have hK' : K' <:+ K := (List.suffix_cons l K').trans hs
  -- The bindings made since are on top, so unwinding to the depth kept by the level takes off just
  -- these.
  obtain ⟨pre, hsaved⟩ := Trail.saved_suffix hK'
  have hitems : s.machine.bindings.items = pre ++ (K'.saved ++ rest) := by
    rw [hw.bindings, ← hsaved, List.append_assoc]
  have hlen : (l.snapshot rest.length K').bindings = (K'.saved ++ rest).length := by
    simp [Level.snapshot]
  have hvalid := hw.valid.suffix hs
  have hbelow : (s.machine.bindings.truncate (K'.saved ++ rest).length).items = K'.saved ++ rest :=
    Stack.items_truncate ⟨pre, hitems.symm⟩
  refine ⟨_, Snapshot.restore_eq _ _ hitems hlen, ?_, rfl, .refl n L _,
    hw.sound.unwind hitems (by rw [hlen, hbelow]), fun hi => hi.of_eq rfl rfl rfl, ?_⟩
  -- What is left of each register are the parts of the levels below.
  · refine ⟨hw.sound.unwind hitems (by rw [hlen, hbelow]), hw.around, hvalid.2, hvalid.1.outer, ?_, ?_, ?_, ?_⟩
    · refine ⟨v :: l.values, l.frames, .value hv hvalid.1.operands, ?_,
        hw.frames.suffix (Trail.frames_suffix hs)⟩
      have := Stack.items_truncate ((Trail.operands_suffix hs).trans hw.operands)
      simp only [Level.snapshot, Stack.items_push, this]
      rfl
    · have := Stack.items_truncate (s := s.machine.dump) (hw.dump ▸ Trail.dump_suffix rest.length hK')
      rw [Trail.length_dump] at this
      exact this
    · exact Stack.items_truncate (s := s.machine.exits) (hw.exits ▸ Trail.exits_suffix rest.length hK')
    · rw [hlen]
      exact hbelow
  · rw [hlen]
    exact ⟨K'.saved, hbelow.symm⟩

end

/-! ## One step of the walk -/

section

variable {L : Layout} {s : Interpreter} {target v k : Value} {vs : List Value} {fuel skipped : Nat}
  {code : Opcode}

/-- Instructions that the walk passes over. -/
def Opcode.isPassed : Opcode → Bool
  | .stop | .rtn | .join | .tsel | .block | .tagbody | .bind | .blockend | .tagend | .unbind => false
  | _ => true

theorem exitBlock_pass (hi : L.Instr s.image.heap code vs s.machine.control k)
    (hlen : vs.length = code.operandCount) (hcode : code.isPassed = true) :
    exitBlock target v (fuel + 1) skipped s =
      exitBlock target v fuel skipped { s with machine.control := k } := by
  obtain ⟨c, hfetch, ho⟩ := fetch_eq hi
  have hskip := skipOperands_eq (s := { s with machine.control := c }) ho
  rw [hlen] at hskip
  cases code <;> simp [Opcode.isPassed] at hcode <;>
    simp only [exitBlock, bind, EStateM.bind, attempt, hfetch, pure, EStateM.pure, hskip]

/-- Constructs that the walk enters. -/
def Opcode.isEntered : Opcode → Bool
  | .block | .tagbody | .bind => true
  | _ => false

theorem exitBlock_enter (hi : L.Instr s.image.heap code vs s.machine.control k)
    (hlen : vs.length = code.operandCount) (hcode : code.isEntered = true) :
    exitBlock target v (fuel + 1) skipped s =
      exitBlock target v fuel (skipped + 1) { s with machine.control := k } := by
  obtain ⟨c, hfetch, ho⟩ := fetch_eq hi
  have hskip := skipOperands_eq (s := { s with machine.control := c }) ho
  rw [hlen] at hskip
  cases code <;> simp [Opcode.isEntered] at hcode <;>
    simp only [exitBlock, bind, EStateM.bind, attempt, hfetch, pure, EStateM.pure, hskip]

/-- Of a branch in tail position, the first arm is followed: both come to the same end. -/
theorem exitBlock_tsel {x y : Value} (hi : L.Instr s.image.heap .tsel [x, y] s.machine.control k) :
    exitBlock target v (fuel + 1) skipped s =
      exitBlock target v fuel skipped { s with machine.control := x } := by
  obtain ⟨c, hfetch, ho⟩ := fetch_eq hi
  obtain ⟨c', hx, ho'⟩ := operand_eq (s := { s with machine.control := c }) ho
  obtain ⟨c'', hy, -⟩ := operand_eq (s := { s with machine.control := c' }) ho'
  simp only [exitBlock, bind, EStateM.bind, attempt, hfetch, pure, EStateM.pure, hx, hy,
    modifyMachine_apply]

/-- There is no code behind the end of a run. -/
theorem exitBlock_stop (hi : L.Instr s.image.heap .stop [] s.machine.control k) :
    exitBlock target v (fuel + 1) skipped s = .error (.error (.fatal
      (.blockNotActive (s.image.print target)))) { s with machine.control := k } := by
  obtain ⟨c, hfetch, ho⟩ := fetch_eq hi
  obtain rfl : c = k := by cases ho; rfl
  simp only [exitBlock, bind, EStateM.bind, attempt, hfetch, pure, EStateM.pure, shown, asks, fault_apply]

/-- A return is taken, and the walk goes on in the caller. -/
theorem exitBlock_rtn (hi : L.Instr s.image.heap .rtn [] s.machine.control k) {env next : Value}
    {exits : Nat} {dump : Stack DumpEntry}
    (hd : s.machine.dump.pop? = some (.call env next exits, dump)) :
    exitBlock target v (fuel + 1) skipped s = exitBlock target v fuel skipped { s with
      machine := { s.machine with
        dump
        env
        control := next
        exits := s.machine.exits.truncate exits } } := by
  obtain ⟨c, hfetch, -⟩ := fetch_eq hi
  simp only [exitBlock, bind, EStateM.bind, attempt, hfetch, pure, EStateM.pure, returnToCaller, view,
    hd, modifyMachine_apply]

/-- So is the end of an arm. -/
theorem exitBlock_join (hi : L.Instr s.image.heap .join [] s.machine.control k) {next : Value}
    {dump : Stack DumpEntry} (hd : s.machine.dump.pop? = some (.join next, dump)) :
    exitBlock target v (fuel + 1) skipped s = exitBlock target v fuel skipped { s with
      machine := { s.machine with dump, control := next } } := by
  obtain ⟨c, hfetch, -⟩ := fetch_eq hi
  simp only [exitBlock, bind, EStateM.bind, attempt, hfetch, pure, EStateM.pure, join, view, hd,
    modifyMachine_apply]

/-- The end of a block that was met on the walk. -/
theorem exitBlock_blockend_skipped {name : Value}
    (hi : L.Instr s.image.heap .blockend [name] s.machine.control k) :
    exitBlock target v (fuel + 1) (skipped + 1) s =
      exitBlock target v fuel skipped { s with machine.control := k } := by
  obtain ⟨c, hfetch, ho⟩ := fetch_eq hi
  obtain ⟨c', hx, ho'⟩ := operand_eq (s := { s with machine.control := c }) ho
  obtain rfl : c' = k := by cases ho'; rfl
  simp only [exitBlock, bind, EStateM.bind, attempt, hfetch, pure, EStateM.pure, hx]

/-- The end of one that is active. If it is the block looked for, the walk is over. -/
theorem exitBlock_blockend {name env : Value} {stack : Nat} {exits : Stack Exit}
    (hi : L.Instr s.image.heap .blockend [name] s.machine.control k)
    (he : s.machine.exits.pop? = some (.block name stack env, exits)) :
    exitBlock target v (fuel + 1) 0 s =
      if name = target then
        .ok () { s with
          machine := { s.machine with
            control := k
            exits
            env
            stack := (s.machine.stack.truncate stack).push v } }
      else
        exitBlock target v fuel 0 { s with machine := { s.machine with control := k, exits } } := by
  obtain ⟨c, hfetch, ho⟩ := fetch_eq hi
  obtain ⟨c', hx, ho'⟩ := operand_eq (s := { s with machine.control := c }) ho
  obtain rfl : c' = k := by cases ho'; rfl
  simp only [exitBlock, bind, EStateM.bind, attempt, hfetch, pure, EStateM.pure, hx, view, he, ne_eq,
    not_true_eq_false, if_false, modifyMachine_apply]
  split <;> rfl

/-- The end of a tagbody that was met on the walk. -/
theorem exitBlock_tagend_skipped (hi : L.Instr s.image.heap .tagend [] s.machine.control k) :
    exitBlock target v (fuel + 1) (skipped + 1) s =
      exitBlock target v fuel skipped { s with machine.control := k } := by
  obtain ⟨c, hfetch, ho⟩ := fetch_eq hi
  obtain rfl : c = k := by cases ho; rfl
  simp only [exitBlock, bind, EStateM.bind, attempt, hfetch, pure, EStateM.pure]

/-- The end of one that is active: its exit is taken off. -/
theorem exitBlock_tagend {id table env : Value} {dump stack bindings : Nat} {exits : Stack Exit}
    (hi : L.Instr s.image.heap .tagend [] s.machine.control k)
    (he : s.machine.exits.pop? = some (.tagbody id table env dump stack bindings, exits)) :
    exitBlock target v (fuel + 1) 0 s =
      exitBlock target v fuel 0 { s with machine := { s.machine with control := k, exits } } := by
  obtain ⟨c, hfetch, ho⟩ := fetch_eq hi
  obtain rfl : c = k := by cases ho; rfl
  simp only [exitBlock, bind, EStateM.bind, attempt, hfetch, pure, EStateM.pure, endTagbody, view, he,
    modifyMachine_apply]

/-- The end of a binding that was met on the walk. -/
theorem exitBlock_unbind_skipped {symbol : SymbolId}
    (hi : L.Instr s.image.heap .unbind [.symbol symbol] s.machine.control k) :
    exitBlock target v (fuel + 1) (skipped + 1) s =
      exitBlock target v fuel skipped { s with machine.control := k } := by
  obtain ⟨c, hfetch, ho⟩ := fetch_eq hi
  obtain ⟨c', hx, ho'⟩ := operand_eq (s := { s with machine.control := c }) ho
  obtain rfl : c' = k := by cases ho'; rfl
  simp only [exitBlock, bind, EStateM.bind, attempt, hfetch, pure, EStateM.pure, operandSymbol, hx,
    Value.symbol?]

/-- The end of one that is in force. -/
theorem exitBlock_unbind {symbol : SymbolId} {value : Option Value} {bindings : Stack SavedValue}
    (hi : L.Instr s.image.heap .unbind [.symbol symbol] s.machine.control k)
    (hb : s.machine.bindings.pop? = some (⟨symbol, value⟩, bindings)) :
    exitBlock target v (fuel + 1) 0 s = exitBlock target v fuel 0 { s with
      image.symbols := s.image.symbols.restoreAll [⟨symbol, value⟩]
      machine := { s.machine with control := k, bindings } } := by
  obtain ⟨c, hfetch, ho⟩ := fetch_eq hi
  obtain ⟨c', hx, ho'⟩ := operand_eq (s := { s with machine.control := c }) ho
  obtain rfl : c' = k := by cases ho'; rfl
  simp only [exitBlock, bind, EStateM.bind, attempt, hfetch, pure, EStateM.pure, operandSymbol, hx,
    Value.symbol?, unbindSpecial, view, hb, modifyMachine_apply, if_true, restore_eq]

end

/-! ## The whole walk -/

/-- With enough fuel, the walk ends at a block as if the block's snapshot was restored,
    or at the end of the run if there is no block to end at. With less, it has left
    some levels. -/
def Ends (rest : List SavedValue) (target v : Value) (block : Option (Level × Trail))
    (skipped : Nat) (s : Interpreter) : Prop :=
  ∃ N, ∀ fuel,
    (fuel < N → ∃ s', exitBlock target v fuel skipped s = .error .endless s' ∧ Unwinds s s' ∧
      rest <:+ s'.machine.bindings.items) ∧
    (N ≤ fuel →
      match block with
      | some (l, K) =>
        exitBlock target v fuel skipped s = (l.snapshot rest.length K).restore v s
      | none => ∃ text s', exitBlock target v fuel skipped s =
          .error (.error (.fatal (.blockNotActive text))) s' ∧ Unwinds s s' ∧
            rest <:+ s'.machine.bindings.items)

section

variable {n : Nat} {L : Layout} {rest : List SavedValue} {K : Trail} {env : List FrameShape}
  {st : List Slot} {s s' : Interpreter} {target v : Value}

/-- One more step of the walk, to the same trail or one further out. -/
theorem Walks.ends_step {skipped skipped' : Nat} (hw : Walks n L rest K s')
    (hx : ∀ fuel, exitBlock target v (fuel + 1) skipped s = exitBlock target v fuel skipped' s')
    (hu : Unwinds s s') (hrest : rest <:+ s.machine.bindings.items)
    (h : Ends rest target v (K.toBlock target) skipped' s') :
    Ends rest target v (K.toBlock target) skipped s := by
  obtain ⟨N, hN⟩ := h
  refine ⟨N + 1, fun fuel => ?_⟩
  cases fuel with
  | zero => exact ⟨fun _ => ⟨s, rfl, .refl s, hrest⟩, fun h => absurd h (by omega)⟩
  | succ fuel =>
    obtain ⟨hless, henough⟩ := hN fuel
    -- With too little fuel both walks run out. With enough of it, the rest of the walk ends as it
    -- would from the code ahead.
    refine ⟨fun hlt => ?_, fun hle => ?_⟩
    · obtain ⟨s'', hs'', hu', hrest'⟩ := hless (by omega)
      exact ⟨s'', (hx fuel).trans hs'', hu.trans hu', hrest'⟩
    · have hend := henough (by omega)
      cases hblock : K.toBlock target with
      | none =>
        rw [hblock] at hend
        obtain ⟨text, s'', hs'', hu', hrest'⟩ := hend
        exact ⟨text, s'', (hx fuel).trans hs'', hu.trans hu', hrest'⟩
      | some p =>
        -- The snapshot that is restored is below all that the step has taken off.
        obtain ⟨l, K'⟩ := p
        rw [hblock] at hend
        have hK' : K' <:+ K := (List.suffix_cons l K').trans (Trail.toBlock_suffix hblock).1
        refine (hx fuel).trans (hend.trans (hu.restore_eq ?_ ?_ ?_))
        · change K'.depth ≤ s'.machine.dump.height
          rw [s'.machine.dump.height_eq, hw.dump, ← Trail.length_dump rest.length]
          exact (Trail.dump_suffix _ hK').length_le
        · rw [s'.machine.exits.height_eq, hw.exits]
          exact (Trail.exits_suffix _ hK').length_le
        · rw [s'.machine.bindings.height_eq, hw.bindings, List.length_append]
          exact Nat.add_le_add_right (Trail.saved_suffix hK').length_le _

/-- The control has moved. -/
theorem Walks.setControl (hw : Walks n L rest K s) (c : Value) :
    Walks n L rest K { s with machine.control := c } :=
  ⟨hw.sound.registers rfl, hw.around, hw.valid, hw.operands, hw.frames, hw.dump, hw.exits,
    hw.bindings⟩

/-- Moving along the code leaves no level. -/
theorem Unwinds.setControl (s : Interpreter) (c : Value) :
    Unwinds s { s with machine.control := c } :=
  ⟨rfl, List.suffix_refl _, List.suffix_refl _, [], rfl, rfl⟩

/-- A step of the walk within a level. -/
theorem Walks.ends_inside {skipped skipped' : Nat} {c : Value} (hw : Walks n L rest K s)
    (hx : ∀ fuel, exitBlock target v (fuel + 1) skipped s =
      exitBlock target v fuel skipped' { s with machine.control := c })
    (h : Ends rest target v (K.toBlock target) skipped' { s with machine.control := c }) :
    Ends rest target v (K.toBlock target) skipped s :=
  (hw.setControl c).ends_step hx (.setControl s c) hw.bindings_suffix h

/-- The instruction that the control is at. -/
theorem instr_at {h : Heap} {code : Opcode} {vs : List Value} {c k : Value}
    (instr : L.Instr h code vs c k) (hheap : s.image.heap = h) (hcontrol : s.machine.control = c) :
    L.Instr s.image.heap code vs s.machine.control k := by
  rw [hheap, hcontrol]
  exact instr

/-- Passing over an instruction. -/
theorem Walks.ends_pass {skipped : Nat} {code : Opcode} {vs : List Value} {k : Value}
    (hw : Walks n L rest K s) (instr : L.Instr s.image.heap code vs s.machine.control k)
    (hlen : vs.length = code.operandCount) (hcode : code.isPassed = true)
    (h : Ends rest target v (K.toBlock target) skipped { s with machine.control := k }) :
    Ends rest target v (K.toBlock target) skipped s :=
  hw.ends_inside (fun _ => exitBlock_pass instr hlen hcode) h

/-- Entering a construct. -/
theorem Walks.ends_enter {skipped : Nat} {code : Opcode} {vs : List Value} {k : Value}
    (hw : Walks n L rest K s) (instr : L.Instr s.image.heap code vs s.machine.control k)
    (hlen : vs.length = code.operandCount) (hcode : code.isEntered = true)
    (h : Ends rest target v (K.toBlock target) (skipped + 1) { s with machine.control := k }) :
    Ends rest target v (K.toBlock target) skipped s :=
  hw.ends_inside (fun _ => exitBlock_enter instr hlen hcode) h

section

variable {l : Level} {k : Value}
  (houter : ∀ s', Walks n L rest K s' → s'.image.heap = s.image.heap →
    s'.machine.control = l.next → Ends rest target v (K.toBlock target) 0 s')
include houter

/-- A return on the walk. -/
theorem Walks.ends_rtn (hw : Walks n L rest (l :: K) s) (hl : l.kind = .call)
    (instr : L.Instr s.image.heap .rtn [] s.machine.control k) :
    Ends rest target v (Trail.toBlock target (l :: K)) 0 s := by
  have hitems : s.machine.dump.items =
      .call l.outer l.next (K.exits rest.length).length :: K.dump rest.length := by
    rw [hw.dump]
    simp [Trail.dump, hl]
  have hexits : s.machine.exits.items = K.exits rest.length := by
    rw [hw.exits]
    simp [Trail.exits, hl]
  have htruncate : (s.machine.exits.truncate (K.exits rest.length).length).items =
      K.exits rest.length := Stack.items_truncate (hexits ▸ List.suffix_refl _)
  -- The walk returns to the caller and goes on with the code there, in the level below.
  obtain ⟨dump, hpop, hdump⟩ := Stack.pop?_of_items hitems
  have hu : Unwinds s { s with
      machine := { s.machine with
        dump
        env := l.outer
        control := l.next
        exits := s.machine.exits.truncate (K.exits rest.length).length } } :=
    ⟨rfl, ⟨[_], by rw [hitems, hdump]; rfl⟩, ⟨[], htruncate.trans hexits.symm⟩, [], rfl, rfl⟩
  have hw' := hw.outward hu hdump htruncate (by rw [hw.bindings]; simp [Trail.saved, hl])
  have hblock : Trail.toBlock target (l :: K) = K.toBlock target := by simp [Trail.toBlock, hl]
  rw [hblock]
  exact hw'.ends_step (fun _ => exitBlock_rtn instr hpop) hu hw.bindings_suffix
    (houter _ hw' rfl rfl)

/-- A join on the walk. -/
theorem Walks.ends_join (hw : Walks n L rest (l :: K) s) (hl : l.kind.construct? = some .join)
    (instr : L.Instr s.image.heap .join [] s.machine.control k) :
    Ends rest target v (Trail.toBlock target (l :: K)) 0 s := by
  have hl : l.kind = .join := by
    cases hk : l.kind <;> simp [hk, LevelKind.construct?] at hl
    rfl
  have hitems : s.machine.dump.items = .join l.next :: K.dump rest.length := by
    rw [hw.dump]
    simp [Trail.dump, hl]
  obtain ⟨dump, hpop, hdump⟩ := Stack.pop?_of_items hitems
  -- Passing the `JOIN` takes its entry off the dump and goes on behind the branch.
  have hu : Unwinds s { s with machine := { s.machine with dump, control := l.next } } :=
    ⟨rfl, ⟨[_], by rw [hitems, hdump]; rfl⟩, List.suffix_refl _, [], rfl, rfl⟩
  have hw' := hw.outward hu hdump (by rw [hw.exits]; simp [Trail.exits, hl])
    (by rw [hw.bindings]; simp [Trail.saved, hl])
  have hblock : Trail.toBlock target (l :: K) = K.toBlock target := by simp [Trail.toBlock, hl]
  rw [hblock]
  exact hw'.ends_step (fun _ => exitBlock_join instr hpop) hu hw.bindings_suffix
    (houter _ hw' rfl rfl)

/-- The end of a dynamic binding on the walk. -/
theorem Walks.ends_unbind {symbol : SymbolId} (hw : Walks n L rest (l :: K) s)
    (hl : l.kind.construct? = some (.bind symbol))
    (instr : L.Instr s.image.heap .unbind [.symbol symbol] s.machine.control l.next) :
    Ends rest target v (Trail.toBlock target (l :: K)) 0 s := by
  obtain ⟨value, hl⟩ : ∃ value, l.kind = .bind symbol value := by
    cases hk : l.kind <;> simp [hk, LevelKind.construct?] at hl
    exact ⟨_, by rw [hl]⟩
  have hitems : s.machine.bindings.items = ⟨symbol, value⟩ :: (K.saved ++ rest) := by
    rw [hw.bindings]
    simp [Trail.saved, hl]
  obtain ⟨bindings, hpop, hbindings⟩ := Stack.pop?_of_items hitems
  -- Passing the `UNBIND` restores the one value that the level saved.
  have hu : Unwinds s { s with
      image.symbols := s.image.symbols.restoreAll [⟨symbol, value⟩]
      machine := { s.machine with control := l.next, bindings } } :=
    ⟨rfl, List.suffix_refl _, List.suffix_refl _, [_], by rw [hitems, hbindings]; rfl, rfl⟩
  have hw' := hw.outward hu (by rw [hw.dump]; simp [Trail.dump, hl])
    (by rw [hw.exits]; simp [Trail.exits, hl]) hbindings
  have hblock : Trail.toBlock target (l :: K) = K.toBlock target := by simp [Trail.toBlock, hl]
  rw [hblock]
  exact hw'.ends_step (fun _ => exitBlock_unbind instr hpop) hu hw.bindings_suffix
    (houter _ hw' rfl rfl)

/-- The end of a tagbody on the walk. -/
theorem Walks.ends_tagend {id : SymbolId} (hw : Walks n L rest (l :: K) s)
    (hl : l.kind.construct? = some (.tagbody id))
    (instr : L.Instr s.image.heap .tagend [] s.machine.control l.next) :
    Ends rest target v (Trail.toBlock target (l :: K)) 0 s := by
  obtain ⟨table, hl⟩ : ∃ table, l.kind = .tagbody id table := by
    cases hk : l.kind <;> simp [hk, LevelKind.construct?] at hl
    exact ⟨_, by rw [hl]⟩
  have hitems : s.machine.exits.items = .tagbody (.symbol id) table l.outer K.depth
      (Trail.operands (l :: K)).length (K.saved.length + rest.length) :: K.exits rest.length := by
    rw [hw.exits]
    simp [Trail.exits, hl]
  obtain ⟨exits, hpop, hexits⟩ := Stack.pop?_of_items hitems
  -- Passing the `TAGEND` takes its record off the exits; the dump is as high as before.
  have hu : Unwinds s { s with machine := { s.machine with control := l.next, exits } } :=
    ⟨rfl, List.suffix_refl _, ⟨[_], by rw [hitems, hexits]; rfl⟩, [], rfl, rfl⟩
  have hw' := hw.outward hu (by rw [hw.dump]; simp [Trail.dump, hl]) hexits
    (by rw [hw.bindings]; simp [Trail.saved, hl])
  have hblock : Trail.toBlock target (l :: K) = K.toBlock target := by simp [Trail.toBlock, hl]
  rw [hblock]
  exact hw'.ends_step (fun _ => exitBlock_tagend instr hpop) hu hw.bindings_suffix
    (houter _ hw' rfl rfl)

/-- The end of a block on the walk, which may be the one to be left. -/
theorem Walks.ends_blockend {name : Value} (hw : Walks n L rest (l :: K) s)
    (hl : l.kind.construct? = some (.block name))
    (instr : L.Instr s.image.heap .blockend [name] s.machine.control l.next) :
    Ends rest target v (Trail.toBlock target (l :: K)) 0 s := by
  have hl : l.kind = .block name := by
    cases hk : l.kind <;> simp [hk, LevelKind.construct?] at hl
    rw [hl]
  have hitems : s.machine.exits.items =
      .block name (Trail.operands (l :: K)).length l.outer :: K.exits rest.length := by
    rw [hw.exits]
    simp [Trail.exits, hl]
  have hdump : s.machine.dump.items = K.dump rest.length := by
    rw [hw.dump]
    simp [Trail.dump, hl]
  have hbindings : s.machine.bindings.items = K.saved ++ rest := by
    rw [hw.bindings]
    simp [Trail.saved, hl]
  -- The exit of the block is on top, so the walk takes it off, whether it stops here or not.
  obtain ⟨exits, hpop, hexits⟩ := Stack.pop?_of_items hitems
  by_cases hname : name = target
  · -- The block to be left: what the walk does to the registers is what its snapshot says.
    subst hname
    have hblock : Trail.toBlock name (l :: K) = some (l, K) := by simp [Trail.toBlock, hl]
    rw [hblock]
    refine ⟨1, fun fuel => ?_⟩
    cases fuel with
    | zero => exact ⟨fun _ => ⟨s, rfl, .refl s, hw.bindings_suffix⟩, fun h => absurd h (by omega)⟩
    | succ fuel =>
      refine ⟨fun h => absurd h (by omega), fun _ => ?_⟩
      have hnone : s.machine.bindings.items = [] ++ (K.saved ++ rest) := hbindings
      have hrestore := Snapshot.restore_eq (l.snapshot rest.length K) v hnone (by simp [Level.snapshot])
      have hd : s.machine.dump.truncate K.depth = s.machine.dump := by
        ext1
        rw [← Trail.length_dump rest.length, Stack.items_truncate (hdump ▸ List.suffix_refl _), hdump]
      have hb : s.machine.bindings.truncate (K.saved.length + rest.length) = s.machine.bindings := by
        ext1
        rw [← List.length_append, Stack.items_truncate (hbindings ▸ List.suffix_refl _), hbindings]
      have he : s.machine.exits.truncate (K.exits rest.length).length = exits := by
        ext1
        rw [Stack.items_truncate (hitems ▸ List.suffix_cons _ _), hexits]
      change exitBlock name v (fuel + 1) 0 s = (l.snapshot rest.length K).restore v s
      rw [exitBlock_blockend instr hpop, if_pos rfl, hrestore]
      simp only [Level.snapshot, hd, hb, he, SymbolTable.restoreAll_nil]
  -- Another block: it is left, and the walk goes on with the code after it.
  · have hblock : Trail.toBlock target (l :: K) = K.toBlock target := by
      simp [Trail.toBlock, hl, hname]
    rw [hblock]
    have hu : Unwinds s { s with machine := { s.machine with control := l.next, exits } } :=
      ⟨rfl, List.suffix_refl _, ⟨[_], by rw [hitems, hexits]; rfl⟩, [], rfl, rfl⟩
    have hw' := hw.outward hu hdump hexits hbindings
    refine hw'.ends_step (fun _ => ?_) hu hw.bindings_suffix (houter _ hw' rfl rfl)
    rw [exitBlock_blockend instr hpop, if_neg hname]

end

/-- The walk from code that is in order, if it is in order from the end of the innermost
    level on. -/
theorem Walks.exit_within {h : Heap}
    (houter : ∀ l K', K = l :: K' → ∀ s', Walks n L rest K' s' → s'.image.heap = h →
      s'.machine.control = l.next → Ends rest target v (Trail.toBlock target K') 0 s')
    {b : Base} {ctx : List Item} {c : Value} (hc : L.Code h b env st ctx c) :
    ∀ (skip : List Item) {s : Interpreter}, (∀ i ∈ skip, i.construct ≠ .join) → b = K.base →
      ctx = skip ++ K.context → s.image.heap = h → s.machine.control = c → Walks n L rest K s →
      Ends rest target v (K.toBlock target) skip.length s := by
  -- The induction is along the way that the walk takes through the code. `skip` has what it has
  -- entered on that way: the ends of these constructs come first, and are passed.
  induction hc with
  | ldc instr _ _ ih | ld instr _ _ _ _ _ ih | ldr instr _ _ _ _ _ ih | ldg instr _ ih
  | gfn instr _ ih | setl instr _ _ _ _ _ ih | setlr instr _ _ _ _ _ ih | setg instr _ ih
  | ldf instr _ _ ih | ap instr _ _ ih | tap instr _ _ _ ih | rap instr _ _ ih
  | sel instr _ _ _ _ _ ih | pop instr _ ih | callp instr _ _ ih | retfrom instr _ _ ih
  | go instr _ _ _ _ ih =>
    intro skip s hskip hb hctx hheap hcontrol hw
    exact hw.ends_pass (instr_at instr hheap hcontrol) rfl rfl
      (ih skip hskip hb hctx hheap rfl (hw.setControl _))
  | dum instr _ load _ _ ih =>
    intro skip s hskip hb hctx hheap hcontrol hw
    refine hw.ends_pass (instr_at instr hheap hcontrol) rfl rfl ?_
    refine (hw.setControl _).ends_pass (instr_at load hheap rfl) rfl rfl ?_
    exact ih skip hskip hb hctx hheap rfl (hw.setControl _)
  -- Both arms of a branch come to the same end, and the walk takes the first one.
  | tsel instr _ _ _ _ ih _ _ =>
    intro skip s hskip hb hctx hheap hcontrol hw
    refine hw.ends_inside (fun _ => exitBlock_tsel (instr_at instr hheap hcontrol)) ?_
    exact ih skip hskip hb hctx hheap rfl (hw.setControl _)
  -- A construct that is entered on the way is one more to be skipped.
  | bind instr _ _ _ ih _ | block instr _ _ _ ih _ =>
    intro skip s hskip hb hctx hheap hcontrol hw
    refine hw.ends_enter (instr_at instr hheap hcontrol) rfl rfl ?_
    refine ih (_ :: skip) ?_ hb (by rw [hctx]; rfl) hheap rfl (hw.setControl _)
    simpa using hskip
  | tagbody instr _ _ _ _ _ _ _ ih _ =>
    intro skip s hskip hb hctx hheap hcontrol hw
    refine hw.ends_enter (instr_at instr hheap hcontrol) rfl rfl ?_
    refine ih (_ :: skip) ?_ hb (by rw [hctx]; rfl) hheap rfl (hw.setControl _)
    simpa using hskip
  | reached _ _ =>
    intro skip s hskip hb
    exact absurd K.whole_base (by rw [← hb]; exact id)
  -- There is nothing to skip where the function returns, so the innermost level is the call itself.
  | rtn instr =>
    intro skip s hskip hb hctx hheap hcontrol hw
    obtain ⟨rfl, hcontext⟩ := List.append_eq_nil_iff.1 hctx.symm
    obtain ⟨l, K', rfl, hl⟩ := Trail.eq_call hcontext hb.symm
    exact Walks.ends_rtn (fun s' hw' hh => houter l K' rfl s' hw' (hh.trans hheap)) hw hl
      (instr_at instr hheap hcontrol)
  | join instr =>
    intro skip s hskip hb hctx hheap hcontrol hw
    cases skip with
    | cons i skip =>
      obtain ⟨rfl, -⟩ := List.cons.inj hctx
      exact absurd rfl (hskip _ List.mem_cons_self)
    | nil =>
      obtain ⟨l, K', rfl, hl, -, -, -, -, -⟩ := Trail.context_eq_cons hctx.symm
      exact Walks.ends_join (fun s' hw' hh => houter l K' rfl s' hw' (hh.trans hheap)) hw hl
        (instr_at instr hheap hcontrol)
  -- The end of a construct is one that is skipped, or it is the end of the innermost level, which
  -- is left.
  | unbind instr _ ih =>
    intro skip s hskip hb hctx hheap hcontrol hw
    cases skip with
    | cons i skip =>
      refine hw.ends_inside (fun _ => exitBlock_unbind_skipped (instr_at instr hheap hcontrol)) ?_
      exact ih skip (fun j hj => hskip j (List.mem_cons_of_mem _ hj)) hb (List.cons.inj hctx).2 hheap rfl
        (hw.setControl _)
    | nil =>
      obtain ⟨l, K', rfl, hl, -, -, hnext, -, -⟩ := Trail.context_eq_cons hctx.symm
      subst hnext
      exact Walks.ends_unbind (fun s' hw' hh => houter l K' rfl s' hw' (hh.trans hheap)) hw hl
        (instr_at instr hheap hcontrol)
  | blockend instr _ ih =>
    intro skip s hskip hb hctx hheap hcontrol hw
    cases skip with
    | cons i skip =>
      refine hw.ends_inside (fun _ => exitBlock_blockend_skipped (instr_at instr hheap hcontrol)) ?_
      exact ih skip (fun j hj => hskip j (List.mem_cons_of_mem _ hj)) hb (List.cons.inj hctx).2 hheap rfl
        (hw.setControl _)
    | nil =>
      obtain ⟨l, K', rfl, hl, -, -, hnext, -, -⟩ := Trail.context_eq_cons hctx.symm
      subst hnext
      exact Walks.ends_blockend (fun s' hw' hh => houter l K' rfl s' hw' (hh.trans hheap)) hw hl
        (instr_at instr hheap hcontrol)
  | tagend instr _ ih =>
    intro skip s hskip hb hctx hheap hcontrol hw
    cases skip with
    | cons i skip =>
      refine hw.ends_inside (fun _ => exitBlock_tagend_skipped (instr_at instr hheap hcontrol)) ?_
      exact ih skip (fun j hj => hskip j (List.mem_cons_of_mem _ hj)) hb (List.cons.inj hctx).2 hheap rfl
        (hw.setControl _)
    | nil =>
      obtain ⟨l, K', rfl, hl, -, -, hnext, -, -⟩ := Trail.context_eq_cons hctx.symm
      subst hnext
      exact Walks.ends_tagend (fun s' hw' hh => houter l K' rfl s' hw' (hh.trans hheap)) hw hl
        (instr_at instr hheap hcontrol)
  -- Past the end of the program there is no block: a late exit.
  | stop instr =>
    intro skip s hskip hb hctx hheap hcontrol hw
    obtain ⟨rfl, hcontext⟩ := List.append_eq_nil_iff.1 hctx.symm
    obtain rfl := Trail.eq_nil hcontext hb.symm
    refine ⟨1, fun fuel => ?_⟩
    cases fuel with
    | zero => exact ⟨fun _ => ⟨s, rfl, .refl s, hw.bindings_suffix⟩, fun h => absurd h (by omega)⟩
    | succ fuel =>
      refine ⟨fun h => absurd h (by omega), fun _ => ?_⟩
      exact ⟨_, _, exitBlock_stop (instr_at instr hheap hcontrol), .setControl s _,
        hw.bindings_suffix⟩

/-- A `return-from` ends where the innermost block of its name does. -/
theorem Walks.exit (target v : Value) (hw : Walks n L rest K s)
    (hc : L.Code s.image.heap K.base env st K.context s.machine.control) :
    Ends rest target v (K.toBlock target) 0 s := by
  induction K generalizing s env st with
  | nil =>
    refine Walks.exit_within (fun _ _ heq => ?_) hc [] (List.forall_mem_nil _) rfl rfl rfl rfl hw
    cases heq
  | cons l K ih =>
    refine Walks.exit_within ?_ hc [] (List.forall_mem_nil _) rfl rfl rfl rfl hw
    rintro _ _ heq s' hw' hheap hcontrol
    obtain ⟨rfl, rfl⟩ := List.cons.inj heq
    have hnext := hw.valid.1.code
    rw [← hcontrol, ← hheap] at hnext
    exact ih hw' hnext

end

/-! ## Exits as steps of a run -/

/-- The innermost exit of a tagbody belongs to the innermost level of it. -/
theorem Trail.dropUntil_exits (r : Nat) (id : SymbolId) (K : Trail) :
    (K.exits r).drop ((K.exits r).findIdx (isTagbody (.symbol id))) = [] ∨
      ∃ (l : Level) (K' : Trail) (table : Value), l :: K' <:+ K ∧ l.kind = .tagbody id table ∧
        (K.exits r).drop ((K.exits r).findIdx (isTagbody (.symbol id))) =
          Trail.exits r (l :: K') := by
  -- Levels without an exit, and those with another one, are passed on the way outward.
  induction K with
  | nil => exact .inl rfl
  | cons l K ih =>
    have outward (h : (Trail.exits r (l :: K)).drop
        ((Trail.exits r (l :: K)).findIdx (isTagbody (.symbol id))) =
        (Trail.exits r K).drop ((Trail.exits r K).findIdx (isTagbody (.symbol id)))) :
        (Trail.exits r (l :: K)).drop
          ((Trail.exits r (l :: K)).findIdx (isTagbody (.symbol id))) = [] ∨
        ∃ (l' : Level) (K' : Trail) (table : Value), l' :: K' <:+ l :: K ∧
          l'.kind = .tagbody id table ∧ (Trail.exits r (l :: K)).drop
            ((Trail.exits r (l :: K)).findIdx (isTagbody (.symbol id))) =
          Trail.exits r (l' :: K') := by
      rw [h]
      rcases ih with ih | ⟨l', K', table, hs, hl, heq⟩
      · exact .inl ih
      · exact .inr ⟨l', K', table, hs.trans (List.suffix_cons _ _), hl, heq⟩
    cases hk : l.kind with
    | call | join | bind => exact outward (by simp [Trail.exits, hk])
    | block name => exact outward (by simp [Trail.exits, hk, List.findIdx_cons, isTagbody])
    | tagbody id' table =>
      by_cases hid : id' = id
      · subst hid
        refine .inr ⟨l, K, table, List.suffix_refl _, hk, ?_⟩
        simp [Trail.exits, hk, List.findIdx_cons, isTagbody]
      · exact outward (by simp [Trail.exits, hk, List.findIdx_cons, isTagbody, hid])

/-- A tag of a table is found there. -/
theorem Layout.IsTable.lookupFrom {L : Layout} {h : Heap} {entries : List (Value × Value)}
    {key table : Value} (ht : L.IsTable h entries table) (hk : key ∈ entries.map (·.1)) :
    ∀ fuel, h.lookupFrom key fuel table = .error .endless ∨
      ∃ code, h.lookupFrom key fuel table = .ok (some code) ∧ (key, code) ∈ entries := by
  induction ht with
  | nil => cases hk
  | @cons id entry entries own car ownEntry plain rest ih =>
    intro fuel
    cases fuel with
    | zero => exact .inl rfl
    | succ fuel =>
      by_cases heq : h.car entry = key
      · refine .inr ⟨h.cdr entry, by simp [Heap.lookupFrom, car, heq], ?_⟩
        rw [← heq]
        exact List.mem_cons_self
      · have hk' : key ∈ entries.map (·.1) := by
          rcases List.mem_cons.1 hk with hk | hk
          · exact absurd hk.symm heq
          · exact hk
        rcases ih hk' fuel with h' | ⟨code, h', hmem⟩
        · exact .inl (by simpa [Heap.lookupFrom, car, heq] using h')
        · exact .inr ⟨code, by simpa [Heap.lookupFrom, car, heq] using h',
            List.mem_cons_of_mem _ hmem⟩

section

variable {n : Nat} {L : Layout} {rest : List SavedValue} {K : Trail} {env : List FrameShape}
  {st : List Slot} {s : Interpreter}

/-- Leaving a block by force. -/
theorem safe_exitBlock (hi : Inside n L rest K env st s) {st' : List Slot}
    (hcode : L.Code s.image.heap K.base env st' K.context s.machine.control) {target v : Value}
    (hv : L.Visible v) (fuel : Nat) :
    Safe (Goes n rest) L (exitBlock target v fuel 0) s fun L' _ s' =>
      Continues n rest K L' .next s' := by
  obtain ⟨N, hN⟩ := hi.walks.exit target v hcode
  unfold Safe
  -- With too little fuel, the walk runs out in the middle, in order.
  by_cases hlt : fuel < N
  · obtain ⟨s', hs', hu, hrest⟩ := (hN fuel).1 hlt
    rw [leads_of_error hs']
    exact ⟨trivial, L, hu.goes hi.sound hrest⟩
  -- Otherwise it comes to the end of the block, or to the end of the program.
  · have hend := (hN fuel).2 (Nat.le_of_not_lt hlt)
    cases hblock : K.toBlock target with
    | none =>
      rw [hblock] at hend
      obtain ⟨text, s', hs', hu, hrest⟩ := hend
      rw [leads_of_error hs']
      exact ⟨trivial, L, hu.goes hi.sound hrest⟩
    | some p =>
      obtain ⟨l, K'⟩ := p
      rw [hblock] at hend
      have hs := (Trail.toBlock_suffix hblock).1
      obtain ⟨s', hs', hi', hcontrol, hg⟩ := hi.walks.restore hs hv
      rw [leads_of_ok (hend.trans hs')]
      refine ⟨L, hg, K', .inl ((List.suffix_cons l K').trans hs), .code hi' ?_⟩
      rw [hcontrol]
      exact ((hi.valid.suffix hs).1.code).grows hg.grows

/-- Coming back to the start of a tagbody, with the code of one of its tags. -/
theorem safe_backTo (hi : Inside n L rest K env st s) {l : Level} {K' : Trail} {id : SymbolId}
    {table code : Value} {exits : Stack Exit} (hs : l :: K' <:+ K) (hl : l.kind = .tagbody id table)
    (hexits : exits.items = Trail.exits rest.length (l :: K'))
    (hcode : L.Code s.image.heap (Trail.base (l :: K')) l.env [] (Trail.context (l :: K')) code) :
    Safe (Goes n rest) L (do
      modifyMachine fun m =>
        { m with
          exits
          env := l.outer
          dump := m.dump.truncate K'.depth
          stack := m.stack.truncate (Trail.operands (l :: K')).length
          control := code }
      unwindBindings (K'.saved.length + rest.length)) s fun L' _ s' =>
        Continues n rest K L' .next s' := by
  have hK' : K' <:+ K := (List.suffix_cons l K').trans hs
  have hw := hi.walks
  -- A `tagbody` binds nothing itself.
  have hsaved' : Trail.saved (l :: K') = K'.saved := by simp [Trail.saved, hl]
  obtain ⟨pre, hsaved⟩ := Trail.saved_suffix hK'
  have hitems : s.machine.bindings.items = pre ++ (K'.saved ++ rest) := by
    rw [hw.bindings, ← hsaved, List.append_assoc]
  have hunwind := unwindBindings_eq (s := { s with
    machine := { s.machine with
      exits
      env := l.outer
      dump := s.machine.dump.truncate K'.depth
      stack := s.machine.stack.truncate (Trail.operands (l :: K')).length
      control := code } }) hitems
  rw [List.length_append] at hunwind
  have hbelow : (s.machine.bindings.truncate (K'.saved.length + rest.length)).items =
      K'.saved ++ rest := by
    rw [← List.length_append]
    exact Stack.items_truncate ⟨pre, hitems.symm⟩
  unfold Safe
  rw [leads_bind, leads_modifyMachine, leads_of_ok hunwind]
  refine ⟨L, ⟨.refl n L _, hw.sound.unwind hitems hbelow, fun hi => hi.of_eq rfl rfl rfl,
    K'.saved, hbelow.symm⟩, l :: K', .inl hs, .code ⟨hw.sound.unwind hitems hbelow, hi.around, hi.valid.suffix hs,
      (hi.valid.suffix hs).1.outer, ⟨[], [], .nil, ?_, ?_⟩, ?_, hexits, ?_⟩ hcode⟩
  · exact Stack.items_truncate ((Trail.operands_suffix hs).trans hw.operands)
  · exact hw.frames.suffix (Trail.frames_suffix hs)
  · have := Stack.items_truncate (s := s.machine.dump) (hw.dump ▸ Trail.dump_suffix rest.length hK')
    rw [Trail.length_dump] at this
    simpa [Trail.dump, hl] using this
  · rw [hsaved']
    exact hbelow

/-- Going to a tag. -/
theorem safe_goTo (hi : Inside n L rest K env st s) {id : SymbolId} {tag : Value}
    {ts : List Value} (htags : L.tags id = some ts) (hmem : tag ∈ ts) :
    Safe (Goes n rest) L (goTo (.symbol id) tag) s fun L' _ s' =>
      Continues n rest K L' .next s' := by
  refine safe_view_bind.2 ?_
  have hitems : (s.machine.exits.dropUntil (isTagbody (.symbol id))).items =
      (K.exits rest.length).drop ((K.exits rest.length).findIdx (isTagbody (.symbol id))) := by
    simp [Stack.dropUntil, hi.exits]
  rcases Trail.dropUntil_exits rest.length id K with hnil | ⟨l, K', table, hs, hl, heq⟩
  -- The activation is gone: a late exit.
  · rw [hnil] at hitems
    simp only [Stack.top?, hitems, List.head?_nil]
    exact safe_shown_bind.2 ⟨trivial, L, hi.goes⟩
  -- Its record is on top of the rest, with the table of its tags, where the tag is found unless the
  -- table is endless.
  · rw [heq] at hitems
    obtain ⟨hlevel, hvalid⟩ := hi.valid.suffix hs
    obtain ⟨entries, hentries, htable, htargets⟩ := hlevel.targets id table hl
    obtain rfl : ts = entries.map (·.1) := Option.some.inj (htags.symm.trans hentries)
    have htop : (s.machine.exits.dropUntil (isTagbody (.symbol id))).top? =
        some (.tagbody (.symbol id) table l.outer K'.depth (Trail.operands (l :: K')).length
          (K'.saved.length + rest.length)) := by
      simp [Stack.top?, hitems, Trail.exits, hl]
    simp only [htop]
    refine safe_walk_bind hi.goes (fun e he => ?_) fun code? hcode? => ?_
    · rcases htable.lookupFrom hmem (s.image.heap.pairCount + 1) with h | ⟨code, h, -⟩
      · obtain rfl : Failure.endless = e := by simpa [Heap.lookup, h] using he
        exact trivial
      · simp [Heap.lookup, h] at he
    · rcases htable.lookupFrom hmem (s.image.heap.pairCount + 1) with h | ⟨code, h, hcode⟩
      · simp [Heap.lookup, h] at hcode?
      · obtain rfl : some code = code? := by simpa [Heap.lookup, h] using hcode?
        exact safe_backTo hi hs hl hitems (htargets _ hcode)

end

end StackLisp
