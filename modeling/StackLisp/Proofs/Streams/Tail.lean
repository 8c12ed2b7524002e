import StackLisp.Proofs.Streams.Piece

/-!
# Calls in tail position

Which calls of a piece of code are in tail position, says the piece: those whose
continuation leads out of it past ends of blocks only (`Piece.tails`). Such a call must not
become a tail call if a function inside one of these blocks returns from it, so the piece
also says which blocks it returns from, and from how many functions deep
(`Piece.returns`). `Piece.Decided` says that every call of a piece is what it has to be,
those in tail position apart, for which what comes after the piece decides.

What the compiler notes about the blocks around a piece is told by the same two lists
(`noted`).
-/

namespace StackLisp

open Interpreter Compiler

/-! ## Ends -/

/-- How code ends. -/
inductive Ending where
  | elsewhere
  | rtn
  | stop
deriving DecidableEq

/-- Where a continuation leads past the ends of `crossed` blocks. -/
def Ending.tail (crossed : Nat) : Ending → Tail
  | elsewhere => .elsewhere
  | rtn => .toReturn crossed
  | stop => .toStop crossed

/-- How many blocks a pending tail call has to wait for, of those that end. -/
def Ending.waits (names : List Value) : Ending → Nat
  | rtn => names.length
  | _ => 0

/-- The code starts with the ends of blocks of these names, and then it returns, stops or does
    something else. -/
inductive Heap.Ends (h : Heap) : Value → List Value → Ending → Prop
  | rtn {id} (op : h.car id = .op .rtn) : Ends h (.pair id) [] .rtn
  | stop {id} (op : h.car id = .op .stop) : Ends h (.pair id) [] .stop
  | other {id code} (op : h.car id = .op code) (notRtn : code ≠ .rtn) (notStop : code ≠ .stop)
      (notBlockend : code ≠ .blockend) : Ends h (.pair id) [] .elsewhere
  | blockend {id name k names ending} (instr : h.instruction? (.pair id) = some (.blockend, [name], k))
      (rest : Ends h k names ending) : Ends h (.pair id) (name :: names) ending

section

variable {h h' : Heap} {c : Value} {names : List Value} {ending : Ending}

/-- Code has at least one instruction. -/
theorem Heap.Ends.exists_pair (he : h.Ends c names ending) : ∃ id, c = .pair id := by
  cases he <;> exact ⟨_, rfl⟩

/-- What the compiler finds out about a continuation. -/
theorem tailFrom_of_ends (he : h.Ends c names ending) {crossed fuel : Nat} {t : Tail}
    (ht : tailFrom h crossed fuel c = .ok t) : t = ending.tail (crossed + names.length) := by
  induction he generalizing crossed fuel with
  | rtn op | stop op =>
    cases fuel with
    | zero => cases ht
    | succ fuel =>
      simp only [tailFrom, op] at ht
      cases ht
      rfl
  | other op notRtn notStop notBlockend =>
    cases fuel with
    | zero => cases ht
    | succ fuel =>
      simp only [tailFrom, op] at ht
      split at ht <;> simp_all [Ending.tail]
  | blockend instr _ ih =>
    cases fuel with
    | zero => cases ht
    | succ fuel =>
      -- one more block is crossed, and what follows its end decides
      obtain ⟨_, heq, hop, -⟩ := Heap.car_of_instruction? instr
      cases heq
      obtain ⟨operand, hcdr, -, hk⟩ := Heap.operand_of_instruction? instr
      simp only [tailFrom, hop, hcdr, hk] at ht
      rw [ih ht, List.length_cons]
      congr 1
      omega

/-- Where the opcode that it ends in is kept, so is the end. -/
theorem Heap.Ends.keeps (he : h.Ends c names ending) (g : h.KeepsCode h') : h'.Ends c names ending := by
  have hkept {id : PairId} {code : Opcode} (op : h.car id = .op code) : h'.car id = .op code :=
    (g.car id (Heap.lt_of_car_ne (by simp [op])) (.instruction op .here)).trans op
  induction he with
  | rtn op => exact .rtn (hkept op)
  | stop op => exact .stop (hkept op)
  | other op notRtn notStop notBlockend => exact .other (hkept op) notRtn notStop notBlockend
  | blockend instr rest ih =>
    -- The two pairs of the instruction are code, so neither of them is written.
    refine .blockend (g.instruction? instr fun id p heq hp => ?_) ih
    cases heq
    obtain ⟨_, heq, hop, -⟩ := Heap.car_of_instruction? instr
    cases heq
    obtain ⟨operand, hcdr, -, hk⟩ := Heap.operand_of_instruction? instr
    obtain ⟨next, rfl⟩ := rest.exists_pair
    cases hp with
    | here => exact Heap.lt_of_car_ne (by simp [hop])
    | there hp =>
      rw [hcdr] at hp
      cases hp with
      | here => exact Heap.lt_of_cdr_ne (by simp [hk])
      | there hp => cases hp

end

/-- In front of a piece that starts, code goes on elsewhere. -/
theorem Image.Emits.ends {image : Image} {lo hi : Nat} {entries : List (Value × Value)} {g : Piece}
    {cont c : Value} (he : image.Emits lo hi entries g cont c) (hstarts : g.starts = true) :
    image.heap.Ends c [] .elsewhere := by
  obtain ⟨id, code, rfl, hop, hrtn, hstop, hblockend, -⟩ := he.exists_op hstarts
  exact .other hop hrtn hstop hblockend

/-! ## Returns and calls in tail position -/

/-- Whether a function inside of a block returns from it, by the returns from there. -/
def isCaptured (name : Value) (rs : List (Value × Nat)) : Bool := rs.any fun r => r.1 = name && 0 < r.2

namespace Piece

/-- The blocks around the piece that it returns from, with the number of functions of the piece
    around the return. -/
def returns : Piece → List (Value × Nat)
  | single .retfrom [name] => [(name, 0)]
  | seq first second => second.returns ++ first.returns
  | branch _ thenArm elseArm => thenArm.returns ++ elseArm.returns
  | enter _ body rest => body.returns.map (fun r => (r.1, r.2 + 1)) ++ rest.returns
  | block name body => body.returns.filter (·.1 ≠ name)
  | tagbody _ items => items.returns
  | label _ rest => rest.returns
  | form item rest => rest.returns ++ item.returns
  | _ => []

/-- Whether a function inside of the piece returns from a block of a name around it. -/
def captures (name : Value) (g : Piece) : Bool := isCaptured name g.returns

/-- The calls of the piece in tail position, the latest first, and whether a block of the piece
    that they leave is captured. -/
def tails : Piece → List (PairId × Bool)
  | call pair _ => [(pair, false)]
  | seq _ second => second.tails
  | branch true thenArm elseArm => elseArm.tails ++ thenArm.tails
  | enter _ _ rest => rest.tails
  | block name body => body.tails.map fun t => (t.1, t.2 || body.captures name)
  | _ => []

/-- All calls in tail position are ordinary calls. -/
def Ordinary (h : Heap) (g : Piece) : Prop := ∀ t ∈ g.tails, h.car t.1 = .op .ap

/-- The calls in tail position of the body of a function are tail calls, unless a block that
    they leave is captured. -/
def Final (h : Heap) (g : Piece) : Prop := ∀ t ∈ g.tails, h.car t.1 = .op (if t.2 then .ap else .tap)

/-- Every call is what it has to be, those in tail position apart. The items of a tagbody have no
    calls in tail position. -/
def Decided (h : Heap) : Piece → Prop
  | seq first second => first.Decided h ∧ second.Decided h ∧ first.Ordinary h
  | branch tail thenArm elseArm =>
    thenArm.Decided h ∧ elseArm.Decided h ∧ (tail = false → thenArm.Ordinary h ∧ elseArm.Ordinary h)
  | enter _ body rest => body.Decided h ∧ rest.Decided h ∧ body.Final h
  | block _ body => body.Decided h
  | tagbody _ items => items.Decided h ∧ items.tails = []
  | label _ rest => rest.Decided h ∧ rest.tails = []
  | form item rest => item.Decided h ∧ rest.Decided h ∧ item.Ordinary h ∧ rest.tails = []
  | _ => True

/-- A call in tail position is one of the calls. -/
theorem mem_calls_of_tails {g : Piece} {q : PairId} {blocked : Bool} (hq : (q, blocked) ∈ g.tails) :
    q ∈ g.calls := by
  -- Only a call is a tail; a construct has the tails of its parts.
  induction g generalizing blocked with
  | call => simp_all [tails, calls]
  | seq first second _ ih => exact List.mem_append_right _ (ih hq)
  | branch tail thenArm elseArm ih₁ ih₂ =>
    cases tail with
    | true =>
      rcases List.mem_append.1 hq with hq | hq
      · exact List.mem_append_right _ (ih₂ hq)
      · exact List.mem_append_left _ (ih₁ hq)
    | false => cases hq
  | enter f body rest _ ih => exact ih hq
  | block name body ih =>
    obtain ⟨t, ht, heq⟩ := List.mem_map.1 hq
    obtain ⟨rfl, -⟩ := Prod.mk.inj heq
    exact ih ht
  | _ => cases hq

end Piece

namespace Image.Emits

variable {image image' : Image} {lo hi : Nat} {entries : List (Value × Value)} {g : Piece}
  {cont c : Value} {q : PairId}

/-- The calls of a piece are calls, and code. -/
theorem isCall (he : image.Emits lo hi entries g cont c) (hq : q ∈ g.calls) :
    image.heap.IsCall q ∧ image.heap.IsCode q := by
  induction he with
  | skip | single => cases hq
  | call placed _ isCall =>
    obtain rfl := List.mem_singleton.1 hq
    exact ⟨by rcases isCall with rfl | rfl <;> simp [Heap.IsCall, placed.op], .instruction placed.op .here⟩
  | seq _ _ _ ih₁ ih₂ => exact (List.mem_append.1 hq).elim ih₂ ih₁
  | sel _ _ _ _ _ ih₁ ih₂ | tsel _ _ _ _ ih₁ ih₂ => exact (List.mem_append.1 hq).elim ih₁ ih₂
  | enter _ _ _ _ _ _ _ ih | block _ _ _ _ ih | tagbody _ _ _ _ _ ih | label _ _ ih => exact ih hq
  | form _ _ _ _ ih₁ ih₂ => exact (List.mem_append.1 hq).elim ih₂ ih₁

/-- The opcode of a call is kept with the code. -/
theorem car_call (he : image.Emits lo hi entries g cont c) (hq : q ∈ g.calls)
    (hkeeps : image.heap.KeepsCode image'.heap) : image'.heap.car q = image.heap.car q :=
  have hcall := he.isCall hq
  hkeeps.car q hcall.1.lt hcall.2

/-- Ordinary calls stay ordinary. -/
theorem ordinary_keeps (he : image.Emits lo hi entries g cont c) (hg : g.Ordinary image.heap)
    (hkeeps : image.heap.KeepsCode image'.heap) : g.Ordinary image'.heap :=
  fun t ht => (he.car_call (Piece.mem_calls_of_tails ht) hkeeps).trans (hg t ht)

/-- Calls that have been decided for the end of a function stay decided. -/
theorem final_keeps (he : image.Emits lo hi entries g cont c) (hg : g.Final image.heap)
    (hkeeps : image.heap.KeepsCode image'.heap) : g.Final image'.heap :=
  fun t ht => (he.car_call (Piece.mem_calls_of_tails ht) hkeeps).trans (hg t ht)

/-- What has been decided stays so while the code stays. -/
theorem decided_keeps (he : image.Emits lo hi entries g cont c) (hg : g.Decided image.heap)
    (hkeeps : image.heap.KeepsCode image'.heap) : g.Decided image'.heap := by
  induction he with
  | skip | single | call => trivial
  | seq _ earlier _ ih₁ ih₂ => exact ⟨ih₂ hg.1, ih₁ hg.2.1, earlier.ordinary_keeps hg.2.2 hkeeps⟩
  | sel _ yes no _ _ ih₁ ih₂ =>
    exact ⟨ih₁ hg.1, ih₂ hg.2.1, fun htail =>
      ⟨yes.ordinary_keeps (hg.2.2 htail).1 hkeeps, no.ordinary_keeps (hg.2.2 htail).2 hkeeps⟩⟩
  | tsel yes no _ _ ih₁ ih₂ => exact ⟨ih₁ hg.1, ih₂ hg.2.1, nofun⟩
  | enter _ _ inside _ _ _ ih₁ ih₂ => exact ⟨ih₁ hg.1, ih₂ hg.2.1, inside.final_keeps hg.2.2 hkeeps⟩
  | block _ _ _ _ ih => exact ih hg
  | tagbody _ _ _ _ _ ih | label _ _ ih => exact ⟨ih hg.1, hg.2⟩
  | form _ _ earlier _ ih₁ ih₂ =>
    exact ⟨ih₂ hg.1, ih₁ hg.2.1, earlier.ordinary_keeps hg.2.2.1 hkeeps, hg.2.2.2⟩

/-- It is within the range of the piece. -/
theorem mem_tails (he : image.Emits lo hi entries g cont c) {blocked : Bool} (hq : (q, blocked) ∈ g.tails) :
    lo ≤ q.index ∧ q.index < hi := he.mem_calls (Piece.mem_calls_of_tails hq)

/-- A call is in tail position in one way. -/
theorem tails_unique (he : image.Emits lo hi entries g cont c) {b b' : Bool} (h : (q, b) ∈ g.tails)
    (h' : (q, b') ∈ g.tails) : b = b' := by
  induction he generalizing b b' with
  | call =>
    rw [Piece.tails, List.mem_singleton, Prod.mk.injEq] at h h'
    exact h.2.trans h'.2.symm
  | seq _ _ _ ih => exact ih h h'
  | tsel yes no _ _ ih₁ ih₂ =>
    rcases List.mem_append.1 h with h | h <;> rcases List.mem_append.1 h' with h' | h'
    · exact ih₂ h h'
    -- the two arms are in ranges of their own
    · exact absurd (no.mem_tails h).1 (Nat.not_le.2 (yes.mem_tails h').2)
    · exact absurd (no.mem_tails h').1 (Nat.not_le.2 (yes.mem_tails h).2)
    · exact ih₁ h h'
  | enter _ _ _ _ _ _ _ ih => exact ih h h'
  | block _ _ _ _ ih =>
    obtain ⟨t, ht, heq⟩ := List.mem_map.1 h
    obtain ⟨t', ht', heq'⟩ := List.mem_map.1 h'
    obtain ⟨rfl, rfl⟩ := Prod.mk.inj heq
    obtain ⟨hfst, rfl⟩ := Prod.mk.inj heq'
    rw [ih ht (hfst ▸ ht' : (t.1, t'.2) ∈ _)]
  | _ => cases h

/-- A tail call elsewhere is none of these. -/
theorem ordinary_tapped (he : image.Emits lo hi entries g cont c) (hg : g.Ordinary image.heap)
    (hq : q.index < lo ∨ hi ≤ q.index) : g.Ordinary (image.heap.tapped q) := fun t ht => by
  have := he.mem_tails ht
  exact (Heap.car_tapped_of_ne _ fun heq => by rw [heq] at this; omega).trans (hg t ht)

theorem final_tapped (he : image.Emits lo hi entries g cont c) (hg : g.Final image.heap)
    (hq : q.index < lo ∨ hi ≤ q.index) : g.Final (image.heap.tapped q) := fun t ht => by
  have := he.mem_tails ht
  exact (Heap.car_tapped_of_ne _ fun heq => by rw [heq] at this; omega).trans (hg t ht)

/-- What has been decided stays so when a call in tail position becomes a tail call, or a call
    elsewhere does. -/
theorem decided_tapped (he : image.Emits lo hi entries g cont c) (hg : g.Decided image.heap)
    (hq : (∃ blocked, (q, blocked) ∈ g.tails) ∨ q.index < lo ∨ hi ≤ q.index) :
    g.Decided (image.heap.tapped q) := by
  induction he with
  | skip | single | call => trivial
  | seq later earlier _ ih₁ ih₂ =>
    have := later.le
    have := earlier.le
    rcases hq with ⟨blocked, hq⟩ | hq
    · -- the call is in the second part, so the first one stays as it is
      have := later.mem_tails hq
      exact ⟨ih₂ hg.1 (by omega), ih₁ hg.2.1 (.inl ⟨blocked, hq⟩),
        earlier.ordinary_tapped hg.2.2 (by omega)⟩
    · exact ⟨ih₂ hg.1 (by omega), ih₁ hg.2.1 (by omega), earlier.ordinary_tapped hg.2.2 (by omega)⟩
  | sel ends yes no placed below ih₁ ih₂ =>
    have := ends.above
    have := yes.le
    have := no.le
    have := placed.above
    -- where the arms join, no call is in tail position
    rcases hq with ⟨_, ⟨⟩⟩ | hq
    exact ⟨ih₁ hg.1 (by omega), ih₂ hg.2.1 (by omega), fun htail =>
      ⟨yes.ordinary_tapped (hg.2.2 htail).1 (by omega), no.ordinary_tapped (hg.2.2 htail).2 (by omega)⟩⟩
  | tsel yes no placed below ih₁ ih₂ =>
    have := yes.le
    have := no.le
    have := placed.above
    rcases hq with ⟨blocked, hq⟩ | hq
    · rcases List.mem_append.1 hq with hq | hq
      · have := no.mem_tails hq
        exact ⟨ih₁ hg.1 (by omega), ih₂ hg.2.1 (.inl ⟨blocked, hq⟩), nofun⟩
      · have := yes.mem_tails hq
        exact ⟨ih₁ hg.1 (.inl ⟨blocked, hq⟩), ih₂ hg.2.1 (by omega), nofun⟩
    · exact ⟨ih₁ hg.1 (by omega), ih₂ hg.2.1 (by omega), nofun⟩
  | enter _ ends inside later placed below ih₁ ih₂ =>
    have := ends.above
    have := inside.le
    have := later.le
    have := placed.above
    rcases hq with ⟨blocked, hq⟩ | hq
    · have := later.mem_tails hq
      exact ⟨ih₁ hg.1 (by omega), ih₂ hg.2.1 (.inl ⟨blocked, hq⟩), inside.final_tapped hg.2.2 (by omega)⟩
    · exact ⟨ih₁ hg.1 (by omega), ih₂ hg.2.1 (by omega), inside.final_tapped hg.2.2 (by omega)⟩
  | block ends inside placed below ih =>
    have := ends.above
    have := inside.le
    have := placed.above
    rcases hq with ⟨blocked, hq⟩ | hq
    · obtain ⟨t, ht, heq⟩ := List.mem_map.1 hq
      obtain ⟨rfl, -⟩ := Prod.mk.inj heq
      exact ih hg (.inl ⟨t.2, ht⟩)
    · exact ih hg (by omega)
  | tagbody ends inside _ placed below ih =>
    have := ends.above
    have := inside.le
    have := placed.above
    rcases hq with ⟨_, ⟨⟩⟩ | hq
    exact ⟨ih hg.1 (by omega), hg.2⟩
  | label _ _ ih =>
    rcases hq with ⟨_, ⟨⟩⟩ | hq
    exact ⟨ih hg.1 (.inr hq), hg.2⟩
  | form later dropped earlier _ ih₁ ih₂ =>
    have := later.le
    have := dropped.above
    have := earlier.le
    rcases hq with ⟨_, ⟨⟩⟩ | hq
    exact ⟨ih₂ hg.1 (by omega), ih₁ hg.2.1 (by omega), earlier.ordinary_tapped hg.2.2.1 (by omega), hg.2.2.2⟩

end Image.Emits

/-! ## What is noted about blocks -/

/-- The blocks after returns from them. -/
def noteReturns (depth : Nat) : List (Value × Nat) → List BlockScope → List BlockScope
  | _, [] => []
  | rs, b :: bs =>
    { b with captured := b.captured || rs.any fun r => r.1 = b.name && b.functionDepth < depth + r.2 } ::
      noteReturns depth (rs.filter (·.1 ≠ b.name)) bs

/-- The blocks after pending tail calls that leave the innermost `k` of them. -/
def noteTails (k : Nat) (indices : List Nat) (bs : List BlockScope) : List BlockScope :=
  (bs.take k).map (fun b => { b with tailCalls := indices ++ b.tailCalls }) ++ bs.drop k

section

variable {depth k : Nat} {rs rs' : List (Value × Nat)} {indices indices' : List Nat} {bs : List BlockScope}

@[simp]
theorem noteReturns_nil : noteReturns depth [] bs = bs := by
  induction bs with
  | nil => rfl
  | cons b bs ih => simp [noteReturns, ih]

/-- The returns of one list and then of another. -/
theorem noteReturns_append :
    noteReturns depth rs' (noteReturns depth rs bs) = noteReturns depth (rs ++ rs') bs := by
  induction bs generalizing rs rs' with
  | nil => rfl
  | cons b bs ih => simp [noteReturns, ih, Bool.or_assoc]

/-- The blocks keep their names. -/
@[simp]
theorem map_name_noteReturns : (noteReturns depth rs bs).map (·.name) = bs.map (·.name) := by
  induction bs generalizing rs with
  | nil => rfl
  | cons b bs ih => simp [noteReturns, ih]

/-- One more function around. -/
theorem noteReturns_succ :
    noteReturns (depth + 1) rs bs = noteReturns depth (rs.map fun r => (r.1, r.2 + 1)) bs := by
  induction bs generalizing rs with
  | nil => rfl
  | cons b bs ih =>
    simp only [noteReturns, ih, List.any_map, List.filter_map, Function.comp_def, Nat.add_assoc,
      Nat.add_comm 1]

/-- A return from the innermost block of a name. -/
theorem capture_eq {name : Value} {bs' : List BlockScope} (h : Scopes.capture name depth bs = some bs') :
    bs' = noteReturns depth [(name, 0)] bs := by
  induction bs generalizing bs' with
  | nil => cases h
  | cons b bs ih =>
    unfold Scopes.capture at h
    split at h
    · next heq =>
      cases h
      simp [noteReturns, heq]
    · next hne =>
      obtain ⟨bs'', h', rfl⟩ := Option.map_eq_some_iff.1 h
      simp [noteReturns, Ne.symm hne, ih h']

@[simp]
theorem noteTails_nil : noteTails k [] bs = bs := by simp [noteTails]

/-- Calls of one list and then of another. -/
theorem noteTails_append :
    noteTails k indices' (noteTails k indices bs) = noteTails k (indices' ++ indices) bs := by
  unfold noteTails
  induction bs generalizing k with
  | nil => simp
  | cons b bs ih => cases k <;> simp_all

/-- Here, too. -/
@[simp]
theorem map_name_noteTails : (noteTails k indices bs).map (·.name) = bs.map (·.name) := by
  unfold noteTails
  induction bs generalizing k with
  | nil => simp
  | cons b bs ih => cases k <;> simp_all

/-- Returns and calls are noted in different places, so in any order. -/
theorem noteReturns_noteTails :
    noteReturns depth rs (noteTails k indices bs) = noteTails k indices (noteReturns depth rs bs) := by
  unfold noteTails
  induction bs generalizing k rs with
  | nil => simp [noteReturns]
  | cons b bs ih => cases k <;> simp_all [noteReturns]

/-- The innermost block is among those that are left. -/
theorem noteTails_succ (b : BlockScope) :
    noteTails (k + 1) indices (b :: bs) =
      { b with tailCalls := indices ++ b.tailCalls } :: noteTails k indices bs := by
  simp [noteTails]

end

end StackLisp
