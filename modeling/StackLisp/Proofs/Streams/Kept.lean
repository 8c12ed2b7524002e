import StackLisp.Proofs.Safety.Separation

/-!
# Code that stays

`Heap.IsCode` says which pairs code is made of: those of the instructions, wherever they
are in the heap, and of the tables of tags, also while a table is being made. Where all of
them are kept (`Heap.KeepsCode`), instructions and tables read as before (`Heap.Placed.keeps`,
`Heap.Associates.keeps`), and new pairs do not matter.

`Heap.Placed` tells where an instruction is: at a pair, with its operands in pairs that were
made before.
-/

namespace StackLisp

open Interpreter

namespace Heap

/-- The pairs of instructions and of tables of tags, and those that go on with an instruction, as the
    entries of a table do. -/
inductive IsCode (h : Heap) (p : PairId) : Prop
  | instruction {id : PairId} {code : Opcode} (op : h.car id = .op code)
      (among : h.Among p (code.operandCount + 1) (.pair id)) : IsCode h p
  | table {c tag table k : Value} (instr : h.instruction? c = some (.tagbody, [tag, table], k))
      (tail : h.Suffix (.pair p) table) : IsCode h p
  | entry {id : PairId} {code : Opcode} (cdr : h.cdr p = .pair id) (op : h.car id = .op code) : IsCode h p

/-- The later heap has the pairs that code is made of in the earlier one. -/
structure KeepsCode (h h' : Heap) : Prop where
  pairCount : h.pairCount ≤ h'.pairCount
  car : ∀ p : PairId, p.index < h.pairCount → h.IsCode p → h'.car p = h.car p
  cdr : ∀ p : PairId, p.index < h.pairCount → h.IsCode p → h'.cdr p = h.cdr p

/-- The instruction at a pair has its operands in pairs before it, none of which is below `lo`. -/
structure Placed (h : Heap) (lo : Nat) (id : PairId) (code : Opcode) (vs : List Value) (k : Value) :
    Prop where
  instr : h.instruction? (.pair id) = some (code, vs, k)
  above : lo ≤ id.index
  operands : ∀ p, h.Among p code.operandCount (h.cdr id) → lo ≤ p.index ∧ p.index < id.index

variable {h h' h'' : Heap} {p q id : PairId} {c k v : Value} {code : Opcode} {vs : List Value}
  {lo n : Nat}

/-- Beyond the heap, components read as `nil`. -/
theorem lt_of_car_ne (hp : h.car p ≠ .nil) : p.index < h.pairCount :=
  Nat.lt_of_not_le fun hle => hp (car_of_size_le hle)

theorem lt_of_cdr_ne (hp : h.cdr p ≠ .nil) : p.index < h.pairCount := by
  refine Nat.lt_of_not_le fun hle => hp ?_
  rw [pairCount, ← h.size_cdrs] at hle
  simp [cdr, hle]

theorem KeepsCode.refl (h : Heap) : h.KeepsCode h := ⟨Nat.le_refl _, fun _ _ _ => rfl, fun _ _ _ => rfl⟩

/-- All the pairs of the heap are kept, so those of code are. -/
theorem Extended.keepsCode (e : h.Extended h') : h.KeepsCode h' :=
  ⟨e.pairCount, fun p hp _ => e.car p hp, fun p hp _ => e.cdr p hp⟩

/-! ## Instructions -/

/-- What is read as an instruction begins with its opcode. -/
theorem car_of_instruction? (hi : h.instruction? c = some (code, vs, k)) :
    ∃ id, c = .pair id ∧ h.car id = .op code ∧
      h.operandsAt code.operandCount (h.cdr id) = some (vs, k) := by
  unfold instruction? at hi
  split at hi
  · next id =>
    split at hi
    · next code' hop =>
      obtain ⟨⟨vs', k'⟩, hat, heq⟩ := Option.map_eq_some_iff.1 hi
      obtain ⟨rfl, rfl, rfl⟩ : code' = code ∧ vs' = vs ∧ k' = k := by simpa using heq
      exact ⟨id, rfl, hop, hat⟩
    · cases hi
  · cases hi

/-- An opcode and as many operands as it takes are read as an instruction. -/
theorem instruction?_of_car (hop : h.car id = .op code)
    (hat : h.operandsAt code.operandCount (h.cdr id) = some (vs, k)) :
    h.instruction? (.pair id) = some (code, vs, k) := by
  simp [instruction?, hop, hat]

/-- Reading operands gives as many as are asked for. -/
theorem length_operandsAt (hat : h.operandsAt n c = some (vs, k)) : vs.length = n := by
  induction n generalizing c vs k with
  | zero =>
    obtain ⟨rfl, -⟩ : [] = vs ∧ c = k := by simpa [operandsAt] using hat
    rfl
  | succ n ih =>
    cases c with
    | pair id =>
      obtain ⟨⟨vs', k'⟩, hat', heq⟩ := Option.map_eq_some_iff.1 hat
      obtain ⟨rfl, rfl⟩ : h.car id :: vs' = vs ∧ k' = k := by simpa using heq
      rw [List.length_cons, ih hat']
    | _ => cases hat

theorem length_of_instruction? (hi : h.instruction? c = some (code, vs, k)) :
    vs.length = code.operandCount := by
  obtain ⟨_, -, -, hat⟩ := car_of_instruction? hi
  exact length_operandsAt hat

/-- Where the only operand of an instruction is. -/
theorem operand_of_instruction? (hi : h.instruction? (.pair id) = some (code, [v], k)) :
    ∃ q, h.cdr id = .pair q ∧ h.car q = v ∧ h.cdr q = k := by
  have hlen := length_of_instruction? hi
  obtain ⟨_, heq, -, hat⟩ := car_of_instruction? hi
  cases heq
  rw [← hlen] at hat
  cases hcdr : h.cdr id with
  | pair q => exact ⟨q, rfl, by simpa [hcdr, operandsAt] using hat⟩
  | _ => simp [hcdr, operandsAt] at hat

/-- Operands are read in the same way from a heap with the same pairs for them. -/
theorem operandsAt_congr (hat : h.operandsAt n c = some (vs, k))
    (hsame : ∀ p, h.Among p n c → h'.car p = h.car p ∧ h'.cdr p = h.cdr p) :
    h'.operandsAt n c = some (vs, k) := by
  induction n generalizing c vs k with
  | zero => exact hat
  | succ n ih =>
    cases c with
    | pair id =>
      obtain ⟨⟨vs', k'⟩, hat', heq⟩ := Option.map_eq_some_iff.1 hat
      obtain ⟨hcar, hcdr⟩ := hsame id .here
      have hrest := ih hat' fun p hp => hsame p (.there hp)
      simpa [operandsAt, hcar, hcdr, hrest] using heq
    | _ => cases hat

/-- The pairs in front of one of the first pairs of a list are pairs of the heap. -/
theorem Among.congr (ha : h.Among p n c)
    (hsame : ∀ q, q.index < h.pairCount → h.Among q n c → h'.cdr q = h.cdr q) : h'.Among p n c := by
  induction ha with
  | here => exact .here
  | @there n id rest ih =>
    -- what is not a pair of the heap ends a list
    have hlt : id.index < h.pairCount := lt_of_cdr_ne fun hnil => by
      rw [hnil] at rest
      cases rest
    refine .there ?_
    rw [hsame id hlt .here]
    exact ih fun q hq hamong => hsame q hq (.there hamong)

/-- The same for a part that is reached from the front of a list. -/
theorem Suffix.congr (hs : h.Suffix (.pair p) c)
    (hsame : ∀ q, q.index < h.pairCount → h.Suffix (.pair q) c → h'.cdr q = h.cdr q) :
    h'.Suffix (.pair p) c := by
  induction hs with
  | refl => exact .refl
  | @cdr id rest ih =>
    have hlt : id.index < h.pairCount := lt_of_cdr_ne fun hnil => by
      rw [hnil] at rest
      cases rest
    refine .cdr ?_
    rw [hsame id hlt .refl]
    exact ih fun q hq hsuffix => hsame q hq (.cdr hsuffix)

/-! ## Tables of tags -/

/-- An instruction for a tagbody with a table that is not empty has pairs of the heap for its
    operands. -/
theorem operand_lt_of_table {tag : Value} {t : PairId}
    (hi : h.instruction? c = some (.tagbody, [tag, .pair t], k)) :
    ∃ id, c = .pair id ∧ h.car id = .op .tagbody ∧
      ∀ p, h.Among p 3 (.pair id) → p.index < h.pairCount := by
  obtain ⟨id, rfl, hop, hat⟩ := car_of_instruction? hi
  refine ⟨id, rfl, hop, fun p hp => ?_⟩
  -- the pairs of the opcode, of the tag and of the table, one after the other
  have hid : id.index < h.pairCount := lt_of_car_ne (by simp [hop])
  cases hfirst : h.cdr id with
  | pair q =>
    rw [hfirst] at hat
    cases hsecond : h.cdr q with
    | pair r =>
      obtain ⟨-, htable, -⟩ : h.car q = tag ∧ h.car r = .pair t ∧ h.cdr r = k := by
        simpa [Opcode.operandCount, operandsAt, hsecond, and_assoc] using hat
      have hq : q.index < h.pairCount := lt_of_cdr_ne (by simp [hsecond])
      have hr : r.index < h.pairCount := lt_of_car_ne (by simp [htable])
      cases hp with
      | here => exact hid
      | there hp =>
        rw [hfirst] at hp
        cases hp with
        | here => exact hq
        | there hp =>
          rw [hsecond] at hp
          cases hp with
          | here => exact hr
          | there hp => cases hp
    | _ => simp [Opcode.operandCount, operandsAt, hsecond] at hat
  | _ => simp [Opcode.operandCount, operandsAt, hfirst] at hat

/-- An instruction is read as before if its pairs are among those of the heap. -/
theorem KeepsCode.instruction? (g : h.KeepsCode h') (hi : h.instruction? c = some (code, vs, k))
    (hlt : ∀ id p, c = .pair id → h.Among p (code.operandCount + 1) (.pair id) → p.index < h.pairCount) :
    h'.instruction? c = some (code, vs, k) := by
  obtain ⟨id, rfl, hop, hat⟩ := car_of_instruction? hi
  have hsame (p : PairId) (hp : h.Among p (code.operandCount + 1) (.pair id)) :
      h'.car p = h.car p ∧ h'.cdr p = h.cdr p :=
    ⟨g.car p (hlt id p rfl hp) (.instruction hop hp), g.cdr p (hlt id p rfl hp) (.instruction hop hp)⟩
  obtain ⟨hcar, hcdr⟩ := hsame id .here
  refine instruction?_of_car (hcar.trans hop) ?_
  rw [hcdr]
  exact operandsAt_congr hat fun p hp => hsame p (.there hp)

/-- The instruction of a tagbody is, since its table comes after it. -/
theorem KeepsCode.tagbody (g : h.KeepsCode h') {tag : Value} {t : PairId}
    (hi : h.instruction? c = some (.tagbody, [tag, .pair t], k)) :
    h'.instruction? c = some (.tagbody, [tag, .pair t], k) := by
  obtain ⟨id, rfl, -, hlt⟩ := operand_lt_of_table hi
  exact g.instruction? hi fun id' p heq hp => by
    cases heq
    exact hlt p hp

theorem Suffix.exists_pair (hs : h.Suffix (.pair p) c) : ∃ id, c = .pair id := by
  cases hs with
  | refl => exact ⟨p, rfl⟩
  | @cdr id => exact ⟨id, rfl⟩

/-- The pairs of a table are kept, so its parts are the same. -/
theorem KeepsCode.suffix (g : h.KeepsCode h') {tag table : Value}
    (hi : h.instruction? c = some (.tagbody, [tag, table], k)) (hs : h.Suffix (.pair p) table) :
    h'.Suffix (.pair p) table :=
  hs.congr fun q hq hsuffix => g.cdr q hq (.table hi hsuffix)

/-- What is code stays code, whichever of the three ways it is. -/
theorem IsCode.keeps (hp : h.IsCode p) (g : h.KeepsCode h') : h'.IsCode p := by
  cases hp with
  | @instruction id code op among =>
    have hid : id.index < h.pairCount := lt_of_car_ne (by simp [op])
    refine .instruction ((g.car id hid (.instruction op .here)).trans op) ?_
    exact among.congr fun q hq hamong => g.cdr q hq (.instruction op hamong)
  | table instr tail =>
    obtain ⟨t, rfl⟩ := tail.exists_pair
    exact .table (g.tagbody instr) (g.suffix instr tail)
  | @entry id code cdr op =>
    have hp : p.index < h.pairCount := lt_of_cdr_ne (by simp [cdr])
    have hid : id.index < h.pairCount := lt_of_car_ne (by simp [op])
    exact .entry ((g.cdr p hp (.entry cdr op)).trans cdr) ((g.car id hid (.instruction op .here)).trans op)

/-- Code of the first heap is code of the second one, so it is kept there as well. -/
theorem KeepsCode.trans (g : h.KeepsCode h') (g' : h'.KeepsCode h'') : h.KeepsCode h'' where
  pairCount := Nat.le_trans g.pairCount g'.pairCount
  car p hp hcode := (g'.car p (Nat.lt_of_lt_of_le hp g.pairCount) (hcode.keeps g)).trans (g.car p hp hcode)
  cdr p hp hcode := (g'.cdr p (Nat.lt_of_lt_of_le hp g.pairCount) (hcode.keeps g)).trans (g.cdr p hp hcode)

/-! ## Where instructions are -/

theorem Placed.op (hp : h.Placed lo id code vs k) : h.car id = .op code := by
  obtain ⟨_, heq, hop, -⟩ := car_of_instruction? hp.instr
  cases heq
  exact hop

/-- An opcode is never read beyond the heap. -/
theorem Placed.lt (hp : h.Placed lo id code vs k) : id.index < h.pairCount :=
  lt_of_car_ne (by simp [hp.op])

theorem Placed.length (hp : h.Placed lo id code vs k) : vs.length = code.operandCount :=
  length_of_instruction? hp.instr

/-- The bound may be set lower. -/
theorem Placed.mono {lo' : Nat} (hp : h.Placed lo id code vs k) (hle : lo' ≤ lo) :
    h.Placed lo' id code vs k :=
  ⟨hp.instr, Nat.le_trans hle hp.above, fun p hamong =>
    ⟨Nat.le_trans hle (hp.operands p hamong).1, (hp.operands p hamong).2⟩⟩

/-- The pairs of the instruction are those from `lo` on up to its own. -/
theorem Placed.among (hp : h.Placed lo id code vs k)
    (ha : h.Among p (code.operandCount + 1) (.pair id)) : lo ≤ p.index ∧ p.index ≤ id.index := by
  cases ha with
  | here => exact ⟨hp.above, Nat.le_refl _⟩
  | there ha =>
    obtain ⟨hlo, hlt⟩ := hp.operands p ha
    exact ⟨hlo, Nat.le_of_lt hlt⟩

/-- An instruction is where it was in a heap with the same pairs for it. -/
theorem Placed.congr (hp : h.Placed lo id code vs k)
    (hsame : ∀ p, h.Among p (code.operandCount + 1) (.pair id) →
      h'.car p = h.car p ∧ h'.cdr p = h.cdr p) : h'.Placed lo id code vs k := by
  obtain ⟨_, heq, hop, hat⟩ := car_of_instruction? hp.instr
  cases heq
  obtain ⟨hcar, hcdr⟩ := hsame id .here
  have hback (p : PairId) (ha : h'.Among p code.operandCount (h'.cdr id)) :
      h.Among p code.operandCount (h.cdr id) := by
    rw [hcdr] at ha
    have hsame' (q : PairId) (hq : h.Among q code.operandCount (h.cdr id)) : h'.cdr q = h.cdr q :=
      (hsame q (.there hq)).2
    -- the induction is on the walk along the operands, whatever the instruction
    clear hat hsame hcdr hcar hop hp
    generalize h.cdr id = d, code.operandCount = n at ha hsame'
    induction ha with
    | here => exact .here
    | @there n id rest ih =>
      refine .there ?_
      have hid := hsame' id .here
      rw [← hid]
      refine ih fun q hq => hsame' q (.there ?_)
      rwa [hid] at hq
  refine ⟨instruction?_of_car (hcar.trans hop) ?_, hp.above, fun p ha => hp.operands p (hback p ha)⟩
  rw [hcdr]
  exact operandsAt_congr hat fun p ha => hsame p (.there ha)

/-- The pairs of the instruction are code. -/
theorem Placed.keeps (hp : h.Placed lo id code vs k) (g : h.KeepsCode h') :
    h'.Placed lo id code vs k := by
  refine hp.congr fun p ha => ?_
  have hlt : p.index < h.pairCount := Nat.lt_of_le_of_lt (hp.among ha).2 hp.lt
  have hcode : h.IsCode p := .instruction hp.op ha
  exact ⟨g.car p hlt hcode, g.cdr p hlt hcode⟩

end Heap

end StackLisp
