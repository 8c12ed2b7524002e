import Mathlib.Logic.Relation
import StackLisp.Proofs.Streams.Records

/-!
# The stream of a function

An instruction goes on with the next one, with an arm of a branch, or behind a tag of its table
(`Heap.GoesTo`). The *stream* of a function is all the instructions that one reaches in this way from
its start, and its cells are the pairs of these instructions and of their tables (`Heap.Cell`). The
code of other functions that closures are made of does not belong to it, nor do constants.

The code of a function is a piece, so all instructions of its stream are within the range of the
piece, and those that are calls are the calls of the piece (`Image.Whole.within`). Hence streams
stay as they are when code is kept (`Image.Whole.reaches_keeps`) and when a call elsewhere becomes a
tail call (`Image.Whole.reaches_tapped`).
-/

namespace StackLisp

namespace Heap

variable {h h' : Heap} {c c' c'' cont k tag table : Value} {code : Opcode} {vs : List Value} {p q id : PairId}
  {x y : Value} {lo hi lo' hi' : Nat} {calls calls' : List PairId} {S S' : Value → Prop}

/-! ## Streams and their cells -/

/-- Code that goes on with other code. -/
inductive GoesTo (h : Heap) : Value → Value → Prop
  | next {c k : Value} {code : Opcode} {vs : List Value} (instr : h.instruction? c = some (code, vs, k)) : GoesTo h c k
  | arm {c k x : Value} {code : Opcode} {vs : List Value} (instr : h.instruction? c = some (code, vs, k))
      (branch : code = .sel ∨ code = .tsel) (mem : x ∈ vs) : GoesTo h c x
  | target {c k tag table : Value} {p entry : PairId} (instr : h.instruction? c = some (.tagbody, [tag, table], k))
      (tail : h.Suffix (.pair p) table) (car : h.car p = .pair entry) : GoesTo h c (h.cdr entry)

/-- Code that one comes to from code on. -/
abbrev Reaches (h : Heap) : Value → Value → Prop := Relation.ReflTransGen h.GoesTo

/-- The pairs of an instruction: those of the instruction itself, the spine of its table of tags, and
    the entries there. -/
inductive Cell (h : Heap) (c : Value) (p : PairId) : Prop
  | instruction {code : Opcode} {vs : List Value} {k : Value} (instr : h.instruction? c = some (code, vs, k))
      (among : h.Among p (code.operandCount + 1) c) : Cell h c p
  | table {tag table k : Value} (instr : h.instruction? c = some (.tagbody, [tag, table], k))
      (tail : h.Suffix (.pair p) table) : Cell h c p
  | entry {tag table k : Value} {q : PairId} (instr : h.instruction? c = some (.tagbody, [tag, table], k))
      (tail : h.Suffix (.pair q) table) (car : h.car q = .pair p) : Cell h c p

/-! ## Where the instructions of a piece are -/

/-- The code is an instruction within a range; it is one of the given calls if it is a call, and the
    entries of its table are tags with code behind them. -/
inductive Located (h : Heap) (lo hi : Nat) (calls : List PairId) (c : Value) : Prop
  | intro {id : PairId} {code : Opcode} {vs : List Value} {k : Value} (eq : c = .pair id)
      (placed : h.Placed lo id code vs k) (below : id.index < hi) (call : code = .ap ∨ code = .tap → id ∈ calls)
      (table : ∀ tag table, code = .tagbody → vs = [tag, table] →
        ∃ entries, h.Associates entries table ∧ ∀ e ∈ entries, e.1.op? = none ∧ h.IsOp e.2)

/-- From the code in the set one only comes to code in the set, but for what follows the continuation. -/
def ClosedUpTo (h : Heap) (lo hi : Nat) (calls : List PairId) (cont : Value) (S : Value → Prop) : Prop :=
  ∀ c, S c → c = cont ∨ c = .nil ∨ h.Located lo hi calls c ∧ ∀ c', h.GoesTo c c' → S c'

theorem Located.mono (hw : h.Located lo hi calls c) (hlo : lo' ≤ lo) (hhi : hi ≤ hi') (hcalls : calls ⊆ calls') :
    h.Located lo' hi' calls' c := by
  obtain ⟨eq, placed, below, call, table⟩ := hw
  exact ⟨eq, placed.mono hlo, Nat.lt_of_lt_of_le below hhi, fun hcode => hcalls (call hcode), table⟩

/-- A stream ends with `nil`. -/
theorem not_goesTo_nil : ¬h.GoesTo .nil c := by
  rintro (instr | instr | instr) <;> cases instr

/-- An instruction that is no branch and has no table only goes on with the next one. -/
theorem GoesTo.eq_next (hg : h.GoesTo c c') (hi : h.instruction? c = some (code, vs, k))
    (hcode : code ∉ [.sel, .tsel, .tagbody]) : c' = k := by
  cases hg with
  | next instr => simp_all
  | arm instr branch _ => simp_all
  | target instr => simp_all

/-- A branch goes on with one of its arms, or behind them. -/
theorem GoesTo.of_branch (hg : h.GoesTo c c') (hi : h.instruction? c = some (code, [x, y], k))
    (hcode : code = .sel ∨ code = .tsel) : c' = k ∨ c' = x ∨ c' = y := by
  cases hg with
  | next instr => simp_all
  | arm instr _ mem => simp_all
  | target instr => rcases hcode with rfl | rfl <;> simp [hi] at instr

/-- A tagbody goes on with its first item, or behind one of its tags. -/
theorem GoesTo.of_tagbody (hg : h.GoesTo c c') (hi : h.instruction? c = some (.tagbody, [tag, table], k))
    {entries : List (Value × Value)} (isTable : h.Associates entries table) : c' = k ∨ ∃ e ∈ entries, c' = e.2 := by
  cases hg with
  | next instr => simp_all
  | arm instr branch _ => simp_all
  | target instr tail car =>
    obtain ⟨⟨-, rfl⟩, -⟩ := by simpa [hi] using instr
    obtain ⟨entry, hcar, hmem⟩ := isTable.mem tail
    obtain rfl := by simpa [hcar] using car
    exact .inr ⟨_, hmem, rfl⟩

namespace ClosedUpTo

theorem mono (hS : h.ClosedUpTo lo hi calls cont S) (hlo : lo' ≤ lo) (hhi : hi ≤ hi') (hcalls : calls ⊆ calls') :
    h.ClosedUpTo lo' hi' calls' cont S := fun c hc =>
  (hS c hc).imp_right (Or.imp_right (And.imp_left (·.mono hlo hhi hcalls)))

/-- The continuation, and nothing else. -/
theorem only : h.ClosedUpTo lo hi calls cont (· = cont) := fun _ hc => .inl hc

/-- The end of a stream. -/
theorem ended : h.ClosedUpTo lo hi calls cont (· = .nil) := fun _ hc => .inr (.inl hc)

/-- Code in front of code. -/
theorem trans (hS : h.ClosedUpTo lo hi calls k S) (hS' : h.ClosedUpTo lo hi calls cont S') (hk : S' k) :
    h.ClosedUpTo lo hi calls cont fun c => S c ∨ S' c := by
  have hlater (c : Value) (hc : S' c) :=
    (hS' c hc).imp_right (Or.imp_right (And.imp_right fun hgo c' hg => (.inr (hgo c' hg) : S c' ∨ S' c')))
  rintro c (hc | hc)
  · rcases hS c hc with rfl | hnone | ⟨hw, hgo⟩
    · exact hlater c hk
    · exact .inr (.inl hnone)
    · exact .inr (.inr ⟨hw, fun c' hg => .inl (hgo c' hg)⟩)
  · exact hlater c hc

/-- Code beside code. -/
theorem union (hS : h.ClosedUpTo lo hi calls cont S) (hS' : h.ClosedUpTo lo hi calls cont S') :
    h.ClosedUpTo lo hi calls cont fun c => S c ∨ S' c := by
  rintro c (hc | hc)
  · exact (hS c hc).imp_right (Or.imp_right (And.imp_right fun hgo c' hg => .inl (hgo c' hg)))
  · exact (hS' c hc).imp_right (Or.imp_right (And.imp_right fun hgo c' hg => .inr (hgo c' hg)))

/-- An instruction in front of code. -/
theorem cons (hS : h.ClosedUpTo lo hi calls cont S) (hw : h.Located lo hi calls c') (hgo : ∀ c'', h.GoesTo c' c'' → S c'') :
    h.ClosedUpTo lo hi calls cont fun c => c = c' ∨ S c := by
  rintro c (rfl | hc)
  · exact .inr (.inr ⟨hw, fun c'' hg => .inr (hgo c'' hg)⟩)
  · exact (hS c hc).imp_right (Or.imp_right (And.imp_right fun hgo c' hg => .inr (hgo c' hg)))

/-- An instruction that is no call, no branch and has no table, in front of what it goes on with. -/
theorem plain (hS : h.ClosedUpTo lo hi calls cont S) (hp : h.Placed lo id code vs k) (below : id.index < hi)
    (hcode : code ∉ [.ap, .tap, .sel, .tsel, .tagbody]) (hk : S k) :
    h.ClosedUpTo lo hi calls cont fun c => c = .pair id ∨ S c := by
  simp only [List.mem_cons, List.not_mem_nil, or_false, not_or] at hcode
  refine hS.cons ⟨rfl, hp, below, fun h => by simp_all, fun _ _ h => by simp_all⟩ fun c' hg => ?_
  exact hg.eq_next hp.instr (by simp [hcode]) ▸ hk

/-- A branch in front of its arms and what is behind them. -/
theorem branch (hS : h.ClosedUpTo lo hi calls cont S) (hp : h.Placed lo id code [x, y] k) (below : id.index < hi)
    (hcode : code = .sel ∨ code = .tsel) (hk : S k) (hx : S x) (hy : S y) :
    h.ClosedUpTo lo hi calls cont fun c => c = .pair id ∨ S c := by
  have hplain : (code ≠ .ap ∧ code ≠ .tap) ∧ code ≠ .tagbody := by rcases hcode with rfl | rfl <;> simp
  refine hS.cons ⟨rfl, hp, below, fun h => by simp_all, fun _ _ h => by simp_all⟩ fun c' hg => ?_
  rcases hg.of_branch hp.instr hcode with rfl | rfl | rfl
  · exact hk
  · exact hx
  · exact hy

end ClosedUpTo

end Heap

namespace Image.Emits

variable {image : Image} {lo hi : Nat} {entries : List (Value × Value)} {g : Piece} {cont c : Value}

open Heap in
/-- From a piece, and from behind its labels, one comes to its instructions, and then to the
    continuation. -/
theorem closed (he : image.Emits lo hi entries g cont c) (hcont : image.heap.IsOp cont) :
    ∃ S, image.heap.ClosedUpTo lo hi g.calls cont S ∧ S c ∧ ∀ e ∈ entries, S e.2 := by
  induction he with
  | skip => exact ⟨_, .only, rfl, List.forall_mem_nil _⟩
  | @single _ _ id code vs cont placed below isSingle =>
    have hcode : code ∉ [.ap, .tap, .sel, .tsel, .tagbody] := by cases code <;> simp_all [Opcode.isSingle]
    exact ⟨_, .plain .only placed below hcode rfl, .inl rfl, List.forall_mem_nil _⟩
  | @call _ _ id code argc cont placed below isCall =>
    have hcode : code ∉ [.sel, .tsel, .tagbody] := by rcases isCall with rfl | rfl <;> simp
    refine ⟨_, .cons .only ⟨rfl, placed, below, fun _ => List.mem_singleton_self _, fun _ _ heq => by simp_all⟩
      fun c' hg => ?_, .inl rfl, List.forall_mem_nil _⟩
    exact hg.eq_next placed.instr hcode
  | @seq lo mid hi first second cont k c later earlier starts ih₁ ih₂ =>
    obtain ⟨S, hS, hk, -⟩ := ih₁ hcont
    obtain ⟨S', hS', hc, -⟩ := ih₂ (later.isOp hcont)
    refine ⟨_, (hS'.mono later.le (Nat.le_refl _) (List.subset_append_left ..)).trans
      (hS.mono (Nat.le_refl _) earlier.le (List.subset_append_right ..)) hk, .inl hc, List.forall_mem_nil _⟩
  | @sel lo m₁ m₂ hi thenArm elseArm join id cont x y ends yes no placed below ih₁ ih₂ =>
    have hjoin : image.heap.IsOp (.pair join) := ⟨_, _, rfl, ends.op⟩
    have hlo : lo ≤ join.index := ends.above
    have h₁ := yes.le
    have h₂ := no.le
    have h₃ := placed.above
    obtain ⟨S, hS, hx, -⟩ := ih₁ hjoin
    obtain ⟨S', hS', hy, -⟩ := ih₂ hjoin
    -- both arms end in the join, whose stream ends there; the machine goes on behind the branch
    have hend : image.heap.ClosedUpTo lo hi (Piece.branch false thenArm elseArm).calls cont
        (fun c => c = .pair join ∨ c = .nil) := .plain .ended ends (by omega) (by simp) rfl
    have hyes := (hS.mono (by omega) (by omega) (List.subset_append_left ..)).trans hend (.inl rfl)
    have hno := (hS'.mono (by omega) (by omega) (List.subset_append_right ..)).trans hend (.inl rfl)
    exact ⟨_, ((hyes.union hno).union .only).branch (placed.mono (by omega)) below (.inl rfl) (.inr rfl)
      (.inl (.inl (.inl hx))) (.inl (.inr (.inl hy))), .inl rfl, List.forall_mem_nil _⟩
  | @tsel lo m₁ m₂ hi thenArm elseArm id cont x y yes no placed below ih₁ ih₂ =>
    have h₁ := yes.le
    have h₂ := no.le
    have h₃ := placed.above
    obtain ⟨S, hS, hx, -⟩ := ih₁ hcont
    obtain ⟨S', hS', hy, -⟩ := ih₂ hcont
    have hyes : image.heap.ClosedUpTo lo hi (Piece.branch true thenArm elseArm).calls cont S :=
      hS.mono (Nat.le_refl _) (by omega) (List.subset_append_left ..)
    have hno : image.heap.ClosedUpTo lo hi (Piece.branch true thenArm elseArm).calls cont S' :=
      hS'.mono (by omega) (by omega) (List.subset_append_right ..)
    exact ⟨_, ((hyes.union hno).union .ended).branch (placed.mono (by omega)) below (.inr rfl) (.inr rfl)
      (.inl (.inl hx)) (.inl (.inr hy)), .inl rfl, List.forall_mem_nil _⟩
  | @enter lo m₁ m₂ hi f body rest rtn id cont k known ends inside later placed below _ ih =>
    have h₁ := inside.le
    have h₂ := later.le
    have h₃ := placed.above
    have hlo : lo ≤ rtn.index := ends.above
    -- the body of the closure is a stream of its own, of which the load of the closure is no part
    obtain ⟨S, hS, hk, -⟩ := ih hcont
    exact ⟨_, .plain (hS.mono (by omega) (by omega) (List.Subset.refl _)) (placed.mono (by omega)) below (by simp) hk,
      .inl rfl, List.forall_mem_nil _⟩
  | @block lo m hi name body last id cont k ends inside placed below ih =>
    have h₁ := inside.le
    have h₂ := placed.above
    have hlo : lo ≤ last.index := ends.above
    obtain ⟨S, hS, hk, -⟩ := ih ⟨_, _, rfl, ends.op⟩
    have hend : image.heap.ClosedUpTo lo hi (Piece.block name body).calls cont (fun c => c = .pair last ∨ c = cont) :=
      .plain .only ends (by omega) (by simp) rfl
    exact ⟨_, .plain ((hS.mono (by omega) (by omega) (List.Subset.refl _)).trans hend (.inl rfl))
      (placed.mono (by omega)) below (by simp) (.inl hk), .inl rfl, List.forall_mem_nil _⟩
  | @tagbody lo m hi tag table items entries last id cont k ends inside isTable placed below ih =>
    have h₁ := inside.le
    have h₂ := placed.above
    have hlo : lo ≤ last.index := ends.above
    have hlast : image.heap.IsOp (.pair last) := ⟨_, _, rfl, ends.op⟩
    obtain ⟨S, hS, hk, hentries⟩ := ih hlast
    have hend : image.heap.ClosedUpTo lo hi (Piece.tagbody tag items).calls cont (fun c => c = .pair last ∨ c = cont) :=
      .plain .only ends (by omega) (by simp) rfl
    refine ⟨_, .cons ((hS.mono (by omega) (by omega) (List.Subset.refl _)).trans hend (.inl rfl))
      ⟨rfl, placed.mono (by omega), below, by simp, fun tag' table' _ heq => ?_⟩ fun c' hg => ?_, .inl rfl, List.forall_mem_nil _⟩
    · obtain ⟨-, rfl⟩ := by simpa using heq
      exact ⟨entries, isTable, inside.entries_spec hlast⟩
    · rcases hg.of_tagbody placed.instr isTable with rfl | ⟨e, he, rfl⟩
      · exact .inl hk
      · exact .inl (hentries e he)
  | @label lo hi entries tag rest cont k isTag later ih =>
    obtain ⟨S, hS, hk, hentries⟩ := ih hcont
    exact ⟨S, hS, hk, fun e he => (List.mem_cons.1 he).elim (fun h => h ▸ hk) (hentries e)⟩
  | @form lo m hi entries item rest pop cont k c later dropped earlier starts ih₁ ih₂ =>
    have h₁ := later.le
    have h₂ := earlier.le
    have h₃ := dropped.above
    obtain ⟨S, hS, hk, hentries⟩ := ih₁ hcont
    obtain ⟨S', hS', hc, -⟩ := ih₂ ⟨_, _, rfl, dropped.op⟩
    have hend : image.heap.ClosedUpTo lo hi (Piece.form item rest).calls cont (fun c => c = .pair pop ∨ S c) :=
      .plain (hS.mono (Nat.le_refl _) (by omega) (List.subset_append_right ..)) (dropped.mono (by omega)) (by omega)
        (by simp) hk
    exact ⟨_, (hS'.mono (by omega) (Nat.le_refl _) (List.subset_append_left ..)).trans hend (.inl rfl), .inl hc,
      fun e he => .inr (.inr (hentries e he))⟩

end Image.Emits

/-! ## Streams of functions -/

/-- The pair is a cell of the stream that starts with the code. -/
def Heap.InStream (h : Heap) (c : Value) (p : PairId) : Prop := ∃ c', h.Reaches c c' ∧ h.Cell c' p

section

variable {h h' : Heap} {image image' : Image} {lo hi : Nat} {calls : List PairId} {g : Piece} {c c' : Value}
  {p q : PairId} {f : FunctionId}

open Heap

/-- What one comes to in a piece in front of the end of a stream is an instruction of the piece, or
    that end. -/
theorem Image.Emits.within {last : PairId} {code : Opcode} {lo' : Nat} (he : image.Emits lo hi [] g (.pair last) c)
    (ends : image.heap.Placed lo' last code [] .nil) (hcode : code = .rtn ∨ code = .stop) (hlo : lo' ≤ lo)
    (hlast : last.index < hi) (hr : image.heap.Reaches c c') :
    c' = .nil ∨ image.heap.Located lo' hi g.calls c' := by
  obtain ⟨S, hS, hc, -⟩ := he.closed ⟨_, _, rfl, ends.op⟩
  have hplain : code ∉ [.ap, .tap, .sel, .tsel, .tagbody] := by rcases hcode with rfl | rfl <;> simp
  have hend : image.heap.ClosedUpTo lo' hi g.calls .nil (fun c => c = .pair last ∨ c = .nil) :=
    .plain .ended ends hlast hplain rfl
  -- The places of the piece and those of the instruction at its end are closed under going on, so
  -- nothing else is reached from them.
  have hclosed := (hS.mono hlo (Nat.le_refl hi) (List.Subset.refl _)).trans hend (.inl rfl)
  have hmem : S c' ∨ c' = .pair last ∨ c' = .nil := by
    induction hr with
    | refl => exact .inl hc
    | tail _ hg ih =>
      rcases hclosed _ ih with rfl | rfl | ⟨-, hgo⟩
      · exact absurd hg not_goesTo_nil
      · exact absurd hg not_goesTo_nil
      · exact hgo _ hg
  rcases hclosed c' hmem with hnil | hnil | ⟨hw, -⟩
  · exact .inl hnil
  · exact .inl hnil
  · exact .inr hw

theorem Image.Whole.within (hw : image.Whole lo hi g c) (hr : image.heap.Reaches c c') :
    c' = .nil ∨ image.heap.Located lo hi g.calls c' := by
  obtain ⟨ends, inside, -, -⟩ := hw
  exact inside.within ends (.inl rfl) (Nat.le_succ_of_le ends.above) inside.le hr

/-- The cells of an instruction are code. Those that are outside of its range are no opcodes. -/
theorem Heap.Located.cell (hw : h.Located lo hi calls c) (hp : h.Cell c p) :
    h.IsCode p ∧ p.index < h.pairCount ∧ ((lo ≤ p.index ∧ p.index < hi) ∨ (h.car p).op? = none) := by
  obtain ⟨rfl, placed, below, -, htable⟩ := hw
  -- A pair of the code is one of the instruction itself, of the table it refers to, or of an entry
  -- of that table.
  cases hp with
  | instruction instr among =>
    obtain ⟨rfl, rfl, rfl⟩ := by simpa [placed.instr] using instr
    have hrange := placed.among among
    exact ⟨.instruction placed.op among, Nat.lt_of_le_of_lt hrange.2 placed.lt, .inl ⟨hrange.1, by omega⟩⟩
  | table instr tail =>
    obtain ⟨rfl, rfl, rfl⟩ := by simpa [placed.instr] using instr
    obtain ⟨entries, hentries, -⟩ := htable _ _ rfl rfl
    obtain ⟨entry, hcar, -⟩ := hentries.mem tail
    exact ⟨.table placed.instr tail, lt_of_car_ne (by simp [hcar]), .inr (hcar ▸ rfl)⟩
  | entry instr tail car =>
    obtain ⟨rfl, rfl, rfl⟩ := by simpa [placed.instr] using instr
    obtain ⟨entries, hentries, hops⟩ := htable _ _ rfl rfl
    obtain ⟨entry, hcar, hmem⟩ := hentries.mem tail
    obtain rfl := by simpa [hcar] using car
    obtain ⟨hnone, id, code, hcdr, hop⟩ := hops _ hmem
    exact ⟨.entry hcdr hop, lt_of_cdr_ne (by simp [show h.cdr _ = _ from hcdr]), .inr hnone⟩

theorem Image.Whole.cell (hw : image.Whole lo hi g c) (hp : image.heap.InStream c p) :
    image.heap.IsCode p ∧ p.index < image.heap.pairCount ∧
      ((lo ≤ p.index ∧ p.index < hi) ∨ (image.heap.car p).op? = none) := by
  obtain ⟨c', hr, hcell⟩ := hp
  rcases hw.within hr with rfl | hwithin
  · cases hcell with
    | instruction instr | table instr | entry instr => cases instr
  · exact hwithin.cell hcell

/-- An instruction reads in the same way from a heap with the same pairs for it. -/
theorem Heap.instruction?_congr {code : Opcode} {vs : List Value} {k : Value} (hi : h.instruction? c = some (code, vs, k))
    (hsame : ∀ p, h.Cell c p → h'.car p = h.car p ∧ h'.cdr p = h.cdr p) : h'.instruction? c = some (code, vs, k) := by
  obtain ⟨id, rfl, hop, hat⟩ := car_of_instruction? hi
  have hid := hsame id (.instruction hi .here)
  refine instruction?_of_car (hid.1.trans hop) ?_
  rw [hid.2]
  exact operandsAt_congr hat fun p hp => hsame p (.instruction hi (.there hp))

section

variable (hsame : ∀ p, h.Cell c p → h'.car p = h.car p ∧ h'.cdr p = h.cdr p)

include hsame

theorem Heap.GoesTo.congr (hg : h.GoesTo c c') : h'.GoesTo c c' := by
  cases hg with
  | next instr => exact .next (instruction?_congr instr hsame)
  | arm instr branch mem => exact .arm (instruction?_congr instr hsame) branch mem
  | target instr tail car =>
    rename_i p entry
    have htail := tail.congr fun q _ hq => (hsame q (.table instr hq)).2
    rw [← (hsame entry (.entry instr tail car)).2]
    exact .target (instruction?_congr instr hsame) htail ((hsame p (.table instr tail)).1.trans car)

theorem Heap.Cell.congr (hp : h.Cell c p) : h'.Cell c p := by
  cases hp with
  | instruction instr among =>
    exact .instruction (instruction?_congr instr hsame)
      (among.congr fun q _ hq => (hsame q (.instruction instr hq)).2)
  | table instr tail =>
    exact .table (instruction?_congr instr hsame) (tail.congr fun q _ hq => (hsame q (.table instr hq)).2)
  | entry instr tail car =>
    exact .entry (instruction?_congr instr hsame) (tail.congr fun q _ hq => (hsame q (.table instr hq)).2)
      ((hsame _ (.table instr tail)).1.trans car)

end

/-- A stream is the same in a heap with the same pairs for it. -/
theorem Heap.InStream.congr (hsame : ∀ p, h.InStream c p → h'.car p = h.car p ∧ h'.cdr p = h.cdr p)
    (hp : h.InStream c p) : h'.InStream c p := by
  obtain ⟨c', hr, hcell⟩ := hp
  have hr' : h'.Reaches c c' := by
    clear hcell
    induction hr with
    | refl => exact .refl
    | @tail c₁ c₂ hr hg ih => exact .tail ih (hg.congr fun p hp => hsame p ⟨c₁, hr, hp⟩)
  exact ⟨c', hr', hcell.congr fun p hp => hsame p ⟨c', hr, hp⟩⟩

end

end StackLisp
