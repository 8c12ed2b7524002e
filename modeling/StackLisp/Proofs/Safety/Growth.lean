import StackLisp.Proofs.Safety.Code

/-!
# Growing heaps

A heap changes in three ways only: pairs and frames are added to it, data and
the slots of frames are changed, and calls before a return are made tail calls
by the compiler (`Heap.setCar`). What is known about code, environments and
tables stays true (`Layout.Code.grows` and the like), since their pairs are never
changed otherwise.

`Grows n L h L' h'` also says that of the dummy frames, those before position `n`
are left alone; only a recursive call fills one.
-/

namespace StackLisp

/-- The frame is one of `n` slots still to be filled. -/
structure Heap.Dummy (h : Heap) (f : FrameId) (n : Nat) : Prop where
  valid : f.index < h.frames.size
  empty : (h.frameAt f).filled = false
  size : (h.frameAt f).slots.size = n

namespace Layout

/-- The streams of a heap are kept: only calls may have changed. -/
structure Keeps (L : Layout) (h : Heap) (L' : Layout) (h' : Heap) : Prop where
  own : ∀ id, L.own id → L'.own id
  cdr : ∀ id, L.own id → h'.cdr id = h.cdr id
  car : ∀ id, L.own id → h.car id ≠ .op .ap → h'.car id = h.car id

/-- The call at a pair has become a tail call. -/
structure Patched (L : Layout) (h h' : Heap) (id : PairId) : Prop where
  before : h.car id = .op .ap
  after : h'.car id = .op .tap
  returns : ∃ v k, Operands L h' [v] (h'.cdr id) k ∧ Returns L h' k

/-- The heap `h` of layout `L` has grown to `h'` of layout `L'`. -/
structure Grows (n : Nat) (L : Layout) (h : Heap) (L' : Layout) (h' : Heap) : Prop where
  within : L.Within L'
  cdr : ∀ id, L.own id → h'.cdr id = h.cdr id
  car : ∀ id, L.own id → h'.car id = h.car id ∨ Patched L' h h' id
  pairs : h.pairCount ≤ h'.pairCount
  frames : h.frames.size ≤ h'.frames.size
  capacity : h'.capacity = h.capacity
  dummies : ∀ f m, f.index < n → h.Dummy f m → h'.Dummy f m

variable {n : Nat} {L L' L'' : Layout} {h h' h'' : Heap}

theorem Grows.refl (n : Nat) (L : Layout) (h : Heap) : Grows n L h L h :=
  ⟨.refl L, fun _ _ => rfl, fun _ _ => .inl rfl, Nat.le_refl _, Nat.le_refl _, rfl, fun _ _ _ hd => hd⟩

/-- Fewer dummy frames may be said to be left alone. -/
theorem Grows.weaken {m : Nat} (g : Grows n L h L' h') (hm : m ≤ n) : Grows m L h L' h' :=
  { g with dummies := fun f k hf hd => g.dummies f k (Nat.lt_of_lt_of_le hf hm) hd }

/-- A pair whose first component is no call keeps it. -/
theorem Grows.car_eq (g : Grows n L h L' h') {id : PairId} (ho : L.own id)
    (hc : h.car id ≠ .op .ap) : h'.car id = h.car id := by
  rcases g.car id ho with heq | hp
  · exact heq
  · exact absurd hp.before hc

/-- The streams are kept, since a pair that is patched held a call. -/
theorem Grows.keeps (g : Grows n L h L' h') : Keeps L h L' h' :=
  ⟨g.within.own, g.cdr, fun _ ho => g.car_eq ho⟩

/-- Operands are pairs of a stream, and none of them is an opcode. -/
theorem Operands.keeps {vs : List Value} {c k : Value} (hc : Operands L h vs c k)
    (hk : Keeps L h L' h') : Operands L' h' vs c k := by
  induction hc with
  | nil => exact .nil
  | @cons id vs k own plain rest ih =>
    have hcar : h'.car id = h.car id := hk.car id own fun heq => by simp [heq, Value.op?] at plain
    rw [← hcar] at plain ⊢
    rw [← hk.cdr id own] at ih
    exact .cons (hk.own id own) plain ih

/-- An instruction that is no call keeps its opcode too. -/
theorem Instr.keeps {code : Opcode} {vs : List Value} {c k : Value} (hc : Instr L h code vs c k)
    (hk : Keeps L h L' h') (hcode : code ≠ .ap) : Instr L' h' code vs c k := by
  obtain ⟨own, op, operands⟩ := hc
  refine .mk (hk.own _ own) ?_ ?_
  · rw [hk.car _ own fun heq => hcode (by simpa [op] using heq), op]
  · rw [hk.cdr _ own]
    exact operands.keeps hk

/-- So do the ends of blocks and the return behind them. -/
theorem Returns.keeps {k : Value} (hr : Returns L h k) (hk : Keeps L h L' h') :
    Returns L' h' k := by
  induction hr with
  | rtn instr => exact .rtn (instr.keeps hk (by decide))
  | blockend instr _ ih => exact .blockend (instr.keeps hk (by decide)) ih

theorem Finishes.keeps {k : Value} (he : Finishes L h k) (hk : Keeps L h L' h') : Finishes L' h' k := by
  induction he with
  | rtn instr => exact .rtn (instr.keeps hk (by decide))
  | stop instr => exact .stop (instr.keeps hk (by decide))
  | blockend instr _ ih => exact .blockend (instr.keeps hk (by decide)) ih

/-- The tails of a list that the interpreter keeps to itself stay its tails. -/
theorem Chain.suffix_keeps {c k : Value} (hc : Chain L h c) (hs : h.Suffix k c)
    (hk : Keeps L h L' h') : h'.Suffix k c := by
  induction hs with
  | refl => exact .refl
  | @cdr id _ ih =>
    obtain _ | ⟨own, rest⟩ := hc
    refine .cdr ?_
    rw [hk.cdr id own]
    exact ih rest

theorem Operands.grows {vs : List Value} {c k : Value} (hc : Operands L h vs c k)
    (g : Grows n L h L' h') : Operands L' h' vs c k := hc.keeps g.keeps

theorem Instr.grows {code : Opcode} {vs : List Value} {c k : Value} (hc : Instr L h code vs c k)
    (g : Grows n L h L' h') (hcode : code ≠ .ap) : Instr L' h' code vs c k := hc.keeps g.keeps hcode

theorem Returns.grows {k : Value} (hr : Returns L h k) (g : Grows n L h L' h') :
    Returns L' h' k := hr.keeps g.keeps

/-- A call stays a call, or becomes a tail call if a return follows. -/
theorem Instr.grows_ap {v c k : Value} (hc : Instr L h .ap [v] c k) (g : Grows n L h L' h') :
    Instr L' h' .ap [v] c k ∨ Instr L' h' .tap [v] c k ∧ Returns L' h' k := by
  obtain ⟨own, op, operands⟩ := hc
  have operands' := operands.grows g
  rw [← g.cdr _ own] at operands'
  rcases g.car _ own with heq | hp
  · exact .inl (.mk (g.within.own _ own) (heq.trans op) operands')
  · obtain ⟨v', k', hv', hk'⟩ := hp.returns
    obtain ⟨-, rfl⟩ := operands'.unique hv' rfl
    exact .inr ⟨.mk (g.within.own _ own) hp.after operands', hk'⟩

/-- An environment is made of pairs of its own and of frames. -/
theorem IsEnv.grows {env : List FrameShape} {v : Value} (hv : IsEnv L h env v)
    (g : Grows n L h L' h') : IsEnv L' h' env v := by
  induction hv with
  | nil => exact .nil
  | cons own car slots _ ih =>
    refine .cons (g.within.own _ own) ?_ (g.within.slots _ _ slots) ?_
    · rw [g.car_eq own (by rw [car]; nofun), car]
    · rw [g.cdr _ own]
      exact ih

/-- A table of tags is a stream of its own. -/
theorem IsTable.grows {entries : List (Value × Value)} {v : Value} (hv : IsTable L h entries v)
    (g : Grows n L h L' h') : IsTable L' h' entries v := by
  induction hv with
  | nil => exact .nil
  | @cons id entry entries own car ownEntry plain _ ih =>
    have hcar : h'.car entry = h.car entry :=
      g.car_eq ownEntry fun heq => by simp [heq, Value.op?] at plain
    rw [← hcar] at plain ⊢
    rw [← g.cdr entry ownEntry]
    refine .cons (g.within.own _ own) ?_ (g.within.own _ ownEntry) plain ?_
    · rw [g.car_eq own (by rw [car]; nofun), car]
    · rw [g.cdr id own]
      exact ih

/-- A pair that starts an instruction goes on to do so. -/
theorem Starts.grows {id : PairId} {code code' : Opcode} (hs : Starts L h id code)
    (hop : h.car id = .op code) (g : Grows n L h L' h') (hop' : h'.car id = .op code') :
    Starts L' h' id code' := by
  obtain ⟨own, vs, k, operands, length, table⟩ := hs
  have operands' := operands.grows g
  rw [← g.cdr id own] at operands'
  rcases g.car id own with heq | hp
  · obtain rfl : code = code' := by simpa [heq, hop] using hop'
    refine ⟨g.within.own id own, vs, k, operands', length, fun hcode => ?_⟩
    obtain ⟨tag, v, entries, hvs, hv⟩ := table hcode
    exact ⟨tag, v, entries, hvs, hv.grows g⟩
  · obtain rfl : code = .ap := by simpa [hop] using hp.before
    obtain rfl : code' = .tap := by simpa [hp.after] using hop'.symm
    exact ⟨g.within.own id own, vs, k, operands', length, nofun⟩

/-- Code is in order as before, by induction on it. A call that has become a tail call is one before
    a return, as code in order may have it. -/
theorem Code.grows {b : Base} {env : List FrameShape} {st : List Slot} {ctx : List Item} {c : Value}
    (hc : Code L h b env st ctx c) (g : Grows n L h L' h') : Code L' h' b env st ctx c := by
  -- No instruction of code in order changes, but for a call that is made a tail call.
  induction hc with
  | ldc instr visible _ ih => exact .ldc (instr.grows g (by decide)) (visible.within g.within) ih
  | ld instr frame slot size inside _ ih =>
    exact .ld (instr.grows g (by decide)) frame slot size inside ih
  | ldr instr frame slot size last _ ih =>
    exact .ldr (instr.grows g (by decide)) frame slot size last ih
  | ldg instr _ ih => exact .ldg (instr.grows g (by decide)) ih
  | gfn instr _ ih => exact .gfn (instr.grows g (by decide)) ih
  | setl instr frame slot size inside _ ih =>
    exact .setl (instr.grows g (by decide)) frame slot size inside ih
  | setlr instr frame slot size last _ ih =>
    exact .setlr (instr.grows g (by decide)) frame slot size last ih
  | setg instr _ ih => exact .setg (instr.grows g (by decide)) ih
  | ldf instr shape _ ih =>
    exact .ldf (instr.grows g (by decide)) (g.within.shape _ _ shape) ih
  -- Of the call itself nothing else is changed, and then what follows it returns.
  | ap instr count _ ih =>
    rcases instr.grows_ap g with instr' | ⟨instr', returns⟩
    · exact .ap instr' count ih
    · exact .tap instr' count returns ih
  | tap instr count returns _ ih =>
    exact .tap (instr.grows g (by decide)) count (returns.grows g) ih
  | dum instr count load shape _ ih =>
    exact .dum (instr.grows g (by decide)) count (load.grows g (by decide))
      (g.within.shape _ _ shape) ih
  | rap instr count _ ih => exact .rap (instr.grows g (by decide)) count ih
  | rtn instr => exact .rtn (instr.grows g (by decide))
  | sel instr _ _ _ yes no next => exact .sel (instr.grows g (by decide)) yes no next
  | tsel instr _ _ finishes _ yes no next =>
    exact .tsel (instr.grows g (by decide)) yes no (finishes.keeps g.keeps) next
  | join instr => exact .join (instr.grows g (by decide))
  | pop instr _ ih => exact .pop (instr.grows g (by decide)) ih
  | callp instr count _ ih => exact .callp (instr.grows g (by decide)) count ih
  | bind instr special _ _ body after =>
    exact .bind (instr.grows g (by decide)) (g.within.symbols.isSpecial special) body after
  | unbind instr _ ih => exact .unbind (instr.grows g (by decide)) ih
  | block instr symbol _ _ body after => exact .block (instr.grows g (by decide)) symbol body after
  | blockend instr _ ih => exact .blockend (instr.grows g (by decide)) ih
  | retfrom instr symbol _ ih => exact .retfrom (instr.grows g (by decide)) symbol ih
  -- The table of tags leads into the code, whose links are as they were.
  | tagbody instr tags isTable tails _ hbody _ targets body after =>
    refine .tagbody (instr.grows g (by decide)) (g.within.tags _ _ tags) (isTable.grows g) ?_
      targets body after
    exact fun e he => ⟨(tails e he).1, hbody.chain.suffix_keeps (tails e he).2 g.keeps⟩
  | tagend instr _ ih => exact .tagend (instr.grows g (by decide)) ih
  | go instr tags mem isTag _ ih =>
    exact .go (instr.grows g (by decide)) (g.within.tags _ _ tags) mem isTag ih
  | stop instr => exact .stop (instr.grows g (by decide))
  | reached _ ih => exact .reached ih

/-- A tail call stays one. -/
theorem Patched.grows {id : PairId} (hp : Patched L' h h' id) (ho : L'.own id)
    (g : Grows n L' h' L'' h'') : Patched L'' h h'' id := by
  obtain ⟨v, k, hv, hk⟩ := hp.returns
  refine ⟨hp.before, ?_, v, k, ?_, hk.grows g⟩
  · rw [g.car_eq ho (by rw [hp.after]; decide), hp.after]
  · rw [g.cdr id ho]
    exact hv.grows g

/-- A pair may be patched in the first step or in the second one, but not in both. -/
theorem Grows.trans (g : Grows n L h L' h') (g' : Grows n L' h' L'' h'') :
    Grows n L h L'' h'' where
  within := g.within.trans g'.within
  cdr id ho := (g'.cdr id (g.within.own id ho)).trans (g.cdr id ho)
  car id ho := by
    have ho' := g.within.own id ho
    rcases g.car id ho with heq | hp
    · rcases g'.car id ho' with heq' | hp'
      · exact .inl (heq'.trans heq)
      · exact .inr ⟨heq ▸ hp'.before, hp'.after, hp'.returns⟩
    · exact .inr (hp.grows ho' g')
  pairs := Nat.le_trans g.pairs g'.pairs
  frames := Nat.le_trans g.frames g'.frames
  capacity := g'.capacity.trans g.capacity
  dummies f m hf hd := g'.dummies f m hf (g.dummies f m hf hd)

end Layout

end StackLisp
