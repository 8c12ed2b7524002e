import StackLisp.Proofs.Safety.Nesting
import StackLisp.Proofs.Streams.Kept

/-!
# Pieces of code

The compiler makes code from back to front. What it makes of a form is a *piece*: some
code in front of what runs after it, given as a tree that follows the constructs of the
code, not those of the form (`Piece`). `Image.Emits lo hi entries g cont c` says that `c`
is the piece `g` in front of `cont`, that it is made of pairs from `lo` on and below `hi`,
and that `entries` are the labels in it with the code after them.

* What is made later comes later: the parts of a piece are in separate ranges of pairs.
* Code that stays is the same piece (`Image.Emits.keeps`).
* A call may become a tail call (`Image.Emits.tapped`).
-/

namespace StackLisp

open Interpreter

/-- Instructions that no other code belongs to, and that go on with the next one. -/
def Opcode.isSingle : Opcode → Bool
  | .ldc | .ld | .ldr | .ldg | .gfn | .setl | .setlr | .setg | .rap | .dum | .pop | .callp | .bind | .unbind
  | .retfrom | .go => true
  | _ => false

/-- A piece of code, by its constructs. -/
inductive Piece where
  /-- No code. -/
  | skip
  /-- One instruction. -/
  | single (code : Opcode) (operands : List Value)
  /-- A call, in tail position or not. -/
  | call (pair : PairId) (argc : Value)
  | seq (first second : Piece)
  /-- The arms of a branch, which both go on to the end of the code (`tail`) or join. -/
  | branch (tail : Bool) (thenArm elseArm : Piece)
  /-- A closure of a function with a body, and what goes on with it. -/
  | enter (f : FunctionId) (body rest : Piece)
  | block (name : Value) (body : Piece)
  | tagbody (id : Value) (items : Piece)
  /-- A tag, and the items after it. -/
  | label (tag : Value) (rest : Piece)
  /-- A form whose value is dropped, and the items after it. -/
  | form (item rest : Piece)

namespace Piece

/-- Whether the piece starts with an instruction of its own. -/
def starts : Piece → Bool
  | skip | label .. => false
  | seq first _ => first.starts
  | form item _ => item.starts
  | _ => true

/-- The calls in a piece, but for those in the bodies of functions. -/
def calls : Piece → List PairId
  | skip | single .. => []
  | call pair _ => [pair]
  | seq first second => first.calls ++ second.calls
  | branch _ thenArm elseArm => thenArm.calls ++ elseArm.calls
  | enter _ _ rest => rest.calls
  | block _ body => body.calls
  | tagbody _ items => items.calls
  | label _ rest => rest.calls
  | form item rest => item.calls ++ rest.calls

end Piece

/-- The code is a piece in front of a continuation. -/
inductive Image.Emits (image : Image) :
    Nat → Nat → List (Value × Value) → Piece → Value → Value → Prop
  | skip {lo hi cont} (le : lo ≤ hi) : Emits image lo hi [] .skip cont cont
  | single {lo hi id code vs cont} (placed : image.heap.Placed lo id code vs cont) (below : id.index < hi)
      (isSingle : code.isSingle = true) : Emits image lo hi [] (.single code vs) cont (.pair id)
  | call {lo hi id code argc cont} (placed : image.heap.Placed lo id code [argc] cont) (below : id.index < hi)
      (isCall : code = .ap ∨ code = .tap) : Emits image lo hi [] (.call id argc) cont (.pair id)
  | seq {lo mid hi first second cont k c} (later : Emits image lo mid [] second cont k)
      (earlier : Emits image mid hi [] first k c) (starts : first.starts = true ∧ second.starts = true) :
      Emits image lo hi [] (.seq first second) cont c
  | sel {lo m₁ m₂ hi thenArm elseArm join id cont x y} (ends : image.heap.Placed lo join .join [] .nil)
      (yes : Emits image (join.index + 1) m₁ [] thenArm (.pair join) x)
      (no : Emits image m₁ m₂ [] elseArm (.pair join) y)
      (placed : image.heap.Placed m₂ id .sel [x, y] cont) (below : id.index < hi) :
      Emits image lo hi [] (.branch false thenArm elseArm) cont (.pair id)
  | tsel {lo m₁ m₂ hi thenArm elseArm id cont x y} (yes : Emits image lo m₁ [] thenArm cont x)
      (no : Emits image m₁ m₂ [] elseArm cont y)
      (placed : image.heap.Placed m₂ id .tsel [x, y] .nil) (below : id.index < hi) :
      Emits image lo hi [] (.branch true thenArm elseArm) cont (.pair id)
  | enter {lo m₁ m₂ hi f body rest rtn id cont k} (known : f.index < image.functions.size)
      (ends : image.heap.Placed lo rtn .rtn [] .nil)
      (inside : Emits image (rtn.index + 1) m₁ [] body (.pair rtn) (image.function f).code)
      (later : Emits image m₁ m₂ [] rest cont k)
      (placed : image.heap.Placed m₂ id .ldf [.function f] k) (below : id.index < hi) :
      Emits image lo hi [] (.enter f body rest) cont (.pair id)
  | block {lo m hi name body last id cont k} (ends : image.heap.Placed lo last .blockend [name] cont)
      (inside : Emits image (last.index + 1) m [] body (.pair last) k)
      (placed : image.heap.Placed m id .block [name] k) (below : id.index < hi) :
      Emits image lo hi [] (.block name body) cont (.pair id)
  | tagbody {lo m hi tag table items entries last id cont k}
      (ends : image.heap.Placed lo last .tagend [] cont)
      (inside : Emits image (last.index + 1) m entries items (.pair last) k)
      (isTable : image.heap.Associates entries table)
      (placed : image.heap.Placed m id .tagbody [tag, table] k) (below : id.index < hi) :
      Emits image lo hi [] (.tagbody tag items) cont (.pair id)
  | label {lo hi entries tag rest cont k} (isTag : tag.op? = none)
      (later : Emits image lo hi entries rest cont k) :
      Emits image lo hi ((tag, k) :: entries) (.label tag rest) cont k
  | form {lo m hi entries item rest pop cont k c} (later : Emits image lo m entries rest cont k)
      (dropped : image.heap.Placed m pop .pop [] k)
      (earlier : Emits image (pop.index + 1) hi [] item (.pair pop) c) (starts : item.starts = true) :
      Emits image lo hi entries (.form item rest) cont c

/-- The value is where an instruction starts. -/
def Heap.IsOp (h : Heap) (c : Value) : Prop := ∃ id code, c = .pair id ∧ h.car id = .op code

namespace Image.Emits

variable {image image' : Image} {lo hi lo' hi' : Nat} {entries : List (Value × Value)} {g : Piece}
  {cont c : Value} {q : PairId}

theorem le (he : image.Emits lo hi entries g cont c) : lo ≤ hi := by
  -- What is emitted later lies above what is emitted before, so each construct ends above where it
  -- starts.
  induction he with
  | skip le => exact le
  | single placed below | call placed below => exact Nat.le_of_lt (Nat.lt_of_le_of_lt placed.above below)
  | seq _ _ _ ih₁ ih₂ => exact Nat.le_trans ih₁ ih₂
  | sel ends _ _ placed below ih₁ ih₂ | enter _ ends _ _ placed below ih₁ ih₂ =>
    have := ends.above
    have := placed.above
    omega
  | tsel _ _ placed below ih₁ ih₂ =>
    have := placed.above
    omega
  | block ends _ placed below ih | tagbody ends _ _ placed below ih =>
    have := ends.above
    have := placed.above
    omega
  | label _ _ ih => exact ih
  | form _ dropped _ _ ih₁ ih₂ =>
    have := dropped.above
    omega

theorem mono (he : image.Emits lo hi entries g cont c) (hlo : lo' ≤ lo) (hhi : hi ≤ hi') :
    image.Emits lo' hi' entries g cont c := by
  -- Only the outer ends of the range move; the ranges of the parts between are kept.
  induction he generalizing lo' hi' with
  | skip le => exact .skip (Nat.le_trans hlo (Nat.le_trans le hhi))
  | single placed below isSingle => exact .single (placed.mono hlo) (Nat.lt_of_lt_of_le below hhi) isSingle
  | call placed below isCall => exact .call (placed.mono hlo) (Nat.lt_of_lt_of_le below hhi) isCall
  | seq _ _ starts ih₁ ih₂ => exact .seq (ih₁ hlo (Nat.le_refl _)) (ih₂ (Nat.le_refl _) hhi) starts
  | sel ends yes no placed below => exact .sel (ends.mono hlo) yes no placed (Nat.lt_of_lt_of_le below hhi)
  | tsel _ no placed below ih₁ =>
    exact .tsel (ih₁ hlo (Nat.le_refl _)) no placed (Nat.lt_of_lt_of_le below hhi)
  | enter known ends inside later placed below =>
    exact .enter known (ends.mono hlo) inside later placed (Nat.lt_of_lt_of_le below hhi)
  | block ends inside placed below =>
    exact .block (ends.mono hlo) inside placed (Nat.lt_of_lt_of_le below hhi)
  | tagbody ends inside isTable placed below =>
    exact .tagbody (ends.mono hlo) inside isTable placed (Nat.lt_of_lt_of_le below hhi)
  | label isTag _ ih => exact .label isTag (ih hlo hhi)
  | form _ dropped _ starts ih₁ ih₂ =>
    exact .form (ih₁ hlo (Nat.le_refl _)) dropped (ih₂ (Nat.le_refl _) hhi) starts

/-- The code of a piece that starts is an instruction, and not one that ends something. -/
theorem exists_op (he : image.Emits lo hi entries g cont c) (hstarts : g.starts = true) :
    ∃ id code, c = .pair id ∧ image.heap.car id = .op code ∧ code ≠ .rtn ∧ code ≠ .stop ∧
      code ≠ .blockend ∧ code ≠ .join := by
  induction he with
  | skip | label => cases hstarts
  | single placed _ isSingle =>
    refine ⟨_, _, rfl, placed.op, ?_, ?_, ?_, ?_⟩ <;> rintro rfl <;> cases isSingle
  | call placed _ isCall =>
    refine ⟨_, _, rfl, placed.op, ?_⟩
    rcases isCall with rfl | rfl <;> decide
  | seq _ _ _ _ ih => exact ih hstarts
  | sel _ _ _ placed _ | tsel _ _ placed _ | enter _ _ _ _ placed _ | block _ _ placed _
  | tagbody _ _ _ placed _ => exact ⟨_, _, rfl, placed.op, by decide⟩
  | form _ _ _ _ _ ih => exact ih hstarts

/-- Code in front of an instruction is an instruction. -/
theorem isOp (he : image.Emits lo hi entries g cont c) (hcont : image.heap.IsOp cont) : image.heap.IsOp c := by
  induction he with
  | skip => exact hcont
  | single placed | call placed | sel _ _ _ placed | tsel _ _ placed | enter _ _ _ _ placed | block _ _ placed
  | tagbody _ _ _ placed => exact ⟨_, _, rfl, placed.op⟩
  | seq _ _ _ ih₁ ih₂ => exact ih₂ (ih₁ hcont)
  | label _ _ ih => exact ih hcont
  | form _ dropped _ _ _ ih => exact ih ⟨_, _, rfl, dropped.op⟩

/-- Labels are no opcodes, and there is code after them. -/
theorem entries_spec (he : image.Emits lo hi entries g cont c) (hcont : image.heap.IsOp cont) :
    ∀ e ∈ entries, e.1.op? = none ∧ image.heap.IsOp e.2 := by
  induction he with
  | label isTag later ih =>
    rintro e (_ | ⟨_, he⟩)
    · exact ⟨isTag, later.isOp hcont⟩
    · exact ih hcont e he
  | form _ _ _ _ ih => exact ih hcont
  | _ => exact List.forall_mem_nil _

end Image.Emits

/-! ## Tables -/

namespace Heap

variable {h h' : Heap} {entries : List (Value × Value)} {table : Value} {q : PairId}

/-- A table reads in the same way from a heap with the same pairs for it. -/
theorem Associates.congr (ha : h.Associates entries table)
    (hspine : ∀ p, h.Suffix (.pair p) table → h'.car p = h.car p ∧ h'.cdr p = h.cdr p)
    (hentry : ∀ p entry, h.Suffix (.pair p) table → h.car p = .pair entry →
      h'.car entry = h.car entry ∧ h'.cdr entry = h.cdr entry) : h'.Associates entries table := by
  induction ha with
  | nil => exact .nil
  | @cons id entry entries car rest ih =>
    obtain ⟨hcar, hcdr⟩ := hspine id .refl
    obtain ⟨hkey, hvalue⟩ := hentry id entry .refl car
    have hrest : h'.Associates entries (h'.cdr id) := by
      rw [hcdr]
      exact ih (fun p hp => hspine p (.cdr hp)) fun p entry hp => hentry p entry (.cdr hp)
    have := Associates.cons (hcar.trans car) hrest
    rwa [hkey, hvalue] at this

/-- The pairs of a table. -/
theorem Associates.mem (ha : h.Associates entries table) {p : PairId} (hp : h.Suffix (.pair p) table) :
    ∃ entry, h.car p = .pair entry ∧ (h.car entry, h.cdr entry) ∈ entries := by
  induction ha with
  | nil => cases hp
  | @cons id entry entries car rest ih =>
    cases hp with
    | refl => exact ⟨entry, car, List.mem_cons_self⟩
    | cdr hp =>
      obtain ⟨entry', hcar, hmem⟩ := ih hp
      exact ⟨entry', hcar, List.mem_cons_of_mem _ hmem⟩

theorem Associates.lt (ha : h.Associates entries table) {p : PairId} (hp : h.Suffix (.pair p) table) :
    p.index < h.pairCount := by
  obtain ⟨entry, hcar, -⟩ := ha.mem hp
  exact lt_of_car_ne (by simp [hcar])

/-- The entries are pairs in front of code, if there is code after every label. -/
theorem Associates.entry (ha : h.Associates entries table) (hentries : ∀ e ∈ entries, h.IsOp e.2) {p entry : PairId}
    (hp : h.Suffix (.pair p) table) (hcar : h.car p = .pair entry) :
    entry.index < h.pairCount ∧ h.IsOp (h.cdr entry) := by
  obtain ⟨entry', hcar', hmem⟩ := ha.mem hp
  obtain rfl : entry = entry' := by simpa using hcar.symm.trans hcar'
  have hop : h.IsOp (h.cdr entry) := hentries _ hmem
  obtain ⟨id, code, hcdr, -⟩ := id hop
  exact ⟨lt_of_cdr_ne (by simp [hcdr]), hop⟩

theorem Associates.keeps (ha : h.Associates entries table) (g : h.KeepsCode h') {c tag k : Value}
    (hi : h.instruction? c = some (.tagbody, [tag, table], k))
    (hentries : ∀ e ∈ entries, h.IsOp e.2) : h'.Associates entries table := by
  refine ha.congr (fun p hp => ?_) fun p entry hp hcar => ?_
  · have hlt := ha.lt hp
    exact ⟨g.car p hlt (.table hi hp), g.cdr p hlt (.table hi hp)⟩
  · obtain ⟨hlt, id, code, hcdr, hop⟩ := ha.entry hentries hp hcar
    exact ⟨g.car entry hlt (.entry hcdr hop), g.cdr entry hlt (.entry hcdr hop)⟩

/-! ## Calls that become tail calls -/

/-- The heap after a call has become a tail call. -/
def tapped (h : Heap) (q : PairId) : Heap := h.setCar q (.op .tap)

@[simp]
theorem pairCount_tapped (h : Heap) (q : PairId) : (h.tapped q).pairCount = h.pairCount :=
  pairCount_setCar

theorem car_tapped_of_ne (h : Heap) {q p : PairId} (hne : p ≠ q) : (h.tapped q).car p = h.car p :=
  car_setCar_of_ne hne

/-- The pair is where a call starts. -/
def IsCall (h : Heap) (q : PairId) : Prop := h.car q = .op .ap ∨ h.car q = .op .tap

theorem IsCall.lt (hq : h.IsCall q) : q.index < h.pairCount :=
  lt_of_car_ne (by rcases hq with hq | hq <;> simp [hq])

theorem car_tapped (hq : h.IsCall q) : (h.tapped q).car q = .op .tap := car_setCar h q _ hq.lt

theorem Associates.tapped (ha : h.Associates entries table) (hq : h.IsCall q)
    (hentries : ∀ e ∈ entries, e.1.op? = none) : (h.tapped q).Associates entries table := by
  refine ha.congr (fun p hp => ?_) fun p entry hp hcar => ?_
  · -- the spine of the table holds pairs, not opcodes
    obtain ⟨entry, hcar, -⟩ := ha.mem hp
    refine ⟨car_tapped_of_ne h fun heq => ?_, rfl⟩
    rcases hq with hq | hq <;> simp [← heq, hcar] at hq
  · obtain ⟨entry', hcar', hmem⟩ := ha.mem hp
    obtain rfl : entry = entry' := by simpa using hcar.symm.trans hcar'
    refine ⟨car_tapped_of_ne h fun heq => ?_, rfl⟩
    have hkey := hentries _ hmem
    rcases hq with hq | hq <;> simp [heq, hq, Value.op?] at hkey

/-- An instruction that does not contain the call stays. -/
theorem Placed.tapped {lo : Nat} {id : PairId} {code : Opcode} {vs : List Value} {k : Value}
    (hp : h.Placed lo id code vs k) (hq : q.index < lo ∨ id.index < q.index) :
    (h.tapped q).Placed lo id code vs k := by
  refine hp.congr fun p ha => ⟨car_tapped_of_ne h fun heq => ?_, rfl⟩
  have := hp.among ha
  rw [heq] at this
  omega

/-- A call stays a call of as many arguments. -/
theorem Placed.tapped_self {lo : Nat} {code : Opcode} {argc k : Value}
    (hp : h.Placed lo q code [argc] k) (hcode : code = .ap ∨ code = .tap) :
    (h.tapped q).Placed lo q .tap [argc] k := by
  obtain ⟨_, heq, hop, hat⟩ := car_of_instruction? hp.instr
  cases heq
  have hcall : h.IsCall q := by rcases hcode with rfl | rfl <;> simp [IsCall, hop]
  -- both calls take one operand, so its pair stays where it is
  have hcount : code.operandCount = Opcode.tap.operandCount := by rcases hcode with rfl | rfl <;> rfl
  have hrest (p : PairId) (ha : h.Among p Opcode.tap.operandCount (h.cdr q)) :
      (h.tapped q).car p = h.car p ∧ (h.tapped q).cdr p = h.cdr p := by
    have := hp.operands p (hcount ▸ ha)
    exact ⟨car_tapped_of_ne h fun heq => by rw [heq] at this; omega, rfl⟩
  refine ⟨instruction?_of_car (car_tapped hcall) (operandsAt_congr (hcount ▸ hat) hrest), hp.above,
    fun p ha => hp.operands p (hcount ▸ ?_)⟩
  exact ha.congr fun r _ _ => rfl

end Heap

namespace Image.Emits

variable {image image' : Image} {lo hi : Nat} {entries : List (Value × Value)} {g : Piece}
  {cont c : Value} {q : PairId}

/-- Code that stays is the same piece. -/
theorem keeps (he : image.Emits lo hi entries g cont c) (hcode : image.heap.KeepsCode image'.heap)
    (hfunctions : image.KeepsFunctions image') : image'.Emits lo hi entries g cont c := by
  induction he with
  | skip le => exact .skip le
  | single placed below isSingle => exact .single (placed.keeps hcode) below isSingle
  | call placed below isCall => exact .call (placed.keeps hcode) below isCall
  | seq _ _ starts ih₁ ih₂ => exact .seq ih₁ ih₂ starts
  | sel ends _ _ placed below ih₁ ih₂ => exact .sel (ends.keeps hcode) ih₁ ih₂ (placed.keeps hcode) below
  | tsel _ _ placed below ih₁ ih₂ => exact .tsel ih₁ ih₂ (placed.keeps hcode) below
  | enter known ends _ _ placed below ih₁ ih₂ =>
    -- a function that is known keeps its code
    refine .enter (Nat.lt_of_lt_of_le known hfunctions.size) (ends.keeps hcode) ?_ ih₂ (placed.keeps hcode) below
    rw [hfunctions.code _ known]
    exact ih₁
  | block ends _ placed below ih => exact .block (ends.keeps hcode) ih (placed.keeps hcode) below
  | tagbody ends inside isTable placed below ih =>
    -- the entries of the table are code, because there is an instruction behind each tag
    have hentries := inside.entries_spec ⟨_, _, rfl, ends.op⟩
    exact .tagbody (ends.keeps hcode) ih (isTable.keeps hcode placed.instr fun e he => (hentries e he).2)
      (placed.keeps hcode) below
  | label isTag _ ih => exact .label isTag ih
  | form _ dropped _ starts ih₁ ih₂ => exact .form ih₁ (dropped.keeps hcode) ih₂ starts

/-- The calls of a piece are within its range. -/
theorem mem_calls (he : image.Emits lo hi entries g cont c) (hq : q ∈ g.calls) :
    lo ≤ q.index ∧ q.index < hi := by
  -- The parts of a piece follow each other on the heap, from the end of the code to its beginning.
  induction he with
  | skip | single => cases hq
  | call placed below =>
    obtain rfl := List.mem_singleton.1 hq
    exact ⟨placed.above, below⟩
  | seq later earlier _ ih₁ ih₂ =>
    have := later.le
    have := earlier.le
    rcases List.mem_append.1 hq with hq | hq
    · have := ih₂ hq
      omega
    · have := ih₁ hq
      omega
  | sel ends yes no placed below ih₁ ih₂ =>
    have := ends.above
    have := yes.le
    have := no.le
    have := placed.above
    rcases List.mem_append.1 hq with hq | hq
    · have := ih₁ hq
      omega
    · have := ih₂ hq
      omega
  | tsel yes no placed below ih₁ ih₂ =>
    have := yes.le
    have := no.le
    have := placed.above
    rcases List.mem_append.1 hq with hq | hq
    · have := ih₁ hq
      omega
    · have := ih₂ hq
      omega
  | enter _ ends inside later placed below _ ih =>
    have := ends.above
    have := inside.le
    have := later.le
    have := placed.above
    have := ih hq
    omega
  | block ends inside placed below ih | tagbody ends inside _ placed below ih =>
    have := ends.above
    have := inside.le
    have := placed.above
    have := ih hq
    omega
  | label _ _ ih => exact ih hq
  | form later dropped item _ ih₁ ih₂ =>
    have := later.le
    have := dropped.above
    have := item.le
    rcases List.mem_append.1 hq with hq | hq
    · have := ih₂ hq
      omega
    · have := ih₁ hq
      omega

/-- A call that becomes a tail call leaves a piece as it is, if it is one of the calls of the
    segment or lies elsewhere. -/
theorem tapped (he : image.Emits lo hi entries g cont c) (hcall : image.heap.IsCall q)
    (hq : q ∈ g.calls ∨ q.index < lo ∨ hi ≤ q.index) :
    ({ image with heap := image.heap.tapped q } : Image).Emits lo hi entries g cont c := by
  induction he with
  | skip le => exact .skip le
  | single placed below isSingle =>
    exact .single (placed.tapped (by simp [Piece.calls] at hq; omega)) below isSingle
  -- the ranges of the parts are apart, so a call of one part is outside of all the others
  | @call _ _ id _ _ _ placed below isCall =>
    by_cases heq : q = id
    · subst heq
      exact .call (placed.tapped_self isCall) below (.inr rfl)
    · exact .call (placed.tapped (by simp [Piece.calls, heq] at hq; omega)) below isCall
  | seq later earlier starts ih₁ ih₂ =>
    have := later.le
    have := earlier.le
    rw [Piece.calls, List.mem_append, or_assoc] at hq
    rcases hq with hq | hq | hq
    · have := earlier.mem_calls hq
      exact .seq (ih₁ (by omega)) (ih₂ (.inl hq)) starts
    · have := later.mem_calls hq
      exact .seq (ih₁ (.inl hq)) (ih₂ (by omega)) starts
    · exact .seq (ih₁ (by omega)) (ih₂ (by omega)) starts
  | sel ends yes no placed below ih₁ ih₂ =>
    have := ends.above
    have := yes.le
    have := no.le
    have := placed.above
    rw [Piece.calls, List.mem_append, or_assoc] at hq
    rcases hq with hq | hq | hq
    · have := yes.mem_calls hq
      exact .sel (ends.tapped (by omega)) (ih₁ (.inl hq)) (ih₂ (by omega)) (placed.tapped (by omega)) below
    · have := no.mem_calls hq
      exact .sel (ends.tapped (by omega)) (ih₁ (by omega)) (ih₂ (.inl hq)) (placed.tapped (by omega)) below
    · exact .sel (ends.tapped (by omega)) (ih₁ (by omega)) (ih₂ (by omega)) (placed.tapped (by omega)) below
  | tsel yes no placed below ih₁ ih₂ =>
    have := yes.le
    have := no.le
    have := placed.above
    rw [Piece.calls, List.mem_append, or_assoc] at hq
    rcases hq with hq | hq | hq
    · have := yes.mem_calls hq
      exact .tsel (ih₁ (.inl hq)) (ih₂ (by omega)) (placed.tapped (by omega)) below
    · have := no.mem_calls hq
      exact .tsel (ih₁ (by omega)) (ih₂ (.inl hq)) (placed.tapped (by omega)) below
    · exact .tsel (ih₁ (by omega)) (ih₂ (by omega)) (placed.tapped (by omega)) below
  | enter known ends inside later placed below ih₁ ih₂ =>
    have := ends.above
    have := inside.le
    have := later.le
    have := placed.above
    rcases hq with hq | hq
    · have := later.mem_calls hq
      exact .enter known (ends.tapped (by omega)) (ih₁ (by omega)) (ih₂ (.inl hq)) (placed.tapped (by omega)) below
    · exact .enter known (ends.tapped (by omega)) (ih₁ (by omega)) (ih₂ (by omega)) (placed.tapped (by omega)) below
  | block ends inside placed below ih =>
    have := ends.above
    have := inside.le
    have := placed.above
    rcases hq with hq | hq
    · have := inside.mem_calls hq
      exact .block (ends.tapped (by omega)) (ih (.inl hq)) (placed.tapped (by omega)) below
    · exact .block (ends.tapped (by omega)) (ih (by omega)) (placed.tapped (by omega)) below
  | tagbody ends inside isTable placed below ih =>
    have := ends.above
    have := inside.le
    have := placed.above
    -- no entry of the table is the call: the key of an entry is a tag, and no opcode
    have htable := isTable.tapped hcall fun e he => (inside.entries_spec ⟨_, _, rfl, ends.op⟩ e he).1
    rcases hq with hq | hq
    · have := inside.mem_calls hq
      exact .tagbody (ends.tapped (by omega)) (ih (.inl hq)) htable (placed.tapped (by omega)) below
    · exact .tagbody (ends.tapped (by omega)) (ih (by omega)) htable (placed.tapped (by omega)) below
  | label isTag _ ih => exact .label isTag (ih hq)
  | form later dropped item starts ih₁ ih₂ =>
    have := later.le
    have := dropped.above
    have := item.le
    rw [Piece.calls, List.mem_append, or_assoc] at hq
    rcases hq with hq | hq | hq
    · have := item.mem_calls hq
      exact .form (ih₁ (by omega)) (dropped.tapped (by omega)) (ih₂ (.inl hq)) starts
    · have := later.mem_calls hq
      exact .form (ih₁ (.inl hq)) (dropped.tapped (by omega)) (ih₂ (by omega)) starts
    · exact .form (ih₁ (by omega)) (dropped.tapped (by omega)) (ih₂ (by omega)) starts

end Image.Emits

end StackLisp
