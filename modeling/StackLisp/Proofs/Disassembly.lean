import StackLisp.Proofs.Audit
import StackLisp.Proofs.ExitWalk

/-!
# Disassembly

What the listing of a stream is, says `Image.Lists`: one entry for each instruction, in the
order of the stream, and after it, a level further to the right, the entries of the streams
that the instruction carries. These are the arms of a branch and the bodies of functions,
so the descent goes through the table of functions, too.

It ends, since a function knows only functions that were entered into the table before it
(`Heap.Mentions`), whatever constants a macro has put into its code. Such code has one
listing, and that is what `Image.disassemble` gives (`Image.Disassembles`). So it is at
every moment of every session (`Session.disassemble_run`).
-/

namespace StackLisp

open Interpreter Layout Machine

/-! ## Listings -/

/-- Whether the operands of an instruction are the arms of a branch. -/
def Opcode.isBranch : Opcode → Bool
  | sel | tsel => true
  | _ => false

namespace Image

/-- The streams that an instruction carries: the arms of a branch, or the bodies of the
    functions among its operands. -/
def carried (image : Image) (code : Opcode) (vs : List Value) : List Value :=
  if code.isBranch then
    vs
  else
    vs.filterMap fun
      | .function f => some (image.function f).code
      | _ => none

/-- The entry of an instruction: its mnemonic, and its operands unless they are arms. -/
def entry (image : Image) (level : Nat) (code : Opcode) (vs : List Value) : String :=
  let printed := if code.isBranch then [] else vs
  indentation level ++ code.mnemonic ++ String.join (printed.map fun v => " " ++ image.print v) ++ "\n"

/-- The entries are those of the streams, one after the other, each followed by those of the
    streams that its instruction carries. -/
inductive Lists (image : Image) : Nat → List Value → List String → Prop
  | done {level : Nat} : Lists image level [] []
  | ended {level : Nat} {cs : List Value} {entries : List String} (others : Lists image level cs entries) :
      Lists image level (.nil :: cs) entries
  | instruction {level : Nat} {c k : Value} {code : Opcode} {vs cs : List Value} {nested entries : List String}
      (instr : image.heap.instruction? c = some (code, vs, k))
      (inside : Lists image (level + 1) (image.carried code vs) nested)
      (others : Lists image level (k :: cs) entries) :
      Lists image level (c :: cs) (image.entry level code vs :: (nested ++ entries))

/-- A stream has one listing, and disassembling it ends with the text of that. -/
def Disassembles (image : Image) (c : Value) : Prop :=
  ∃ entries, image.Lists 0 [c] entries ∧ (∀ entries', image.Lists 0 [c] entries' → entries' = entries) ∧
    image.disassemble c = .ok (String.join entries)

end Image

/-- A function is an operand in a stream, or in an arm of a branch in it. -/
inductive Heap.Mentions (h : Heap) (f : FunctionId) : Value → Prop
  | here {c k : Value} {code : Opcode} {vs : List Value} (instr : h.instruction? c = some (code, vs, k))
      (mem : .function f ∈ vs) : Mentions h f c
  | arm {c k x : Value} {code : Opcode} {vs : List Value} (instr : h.instruction? c = some (code, vs, k))
      (branch : code.isBranch = true) (mem : x ∈ vs) (arm : Mentions h f x) : Mentions h f c
  | later {c k : Value} {code : Opcode} {vs : List Value} (instr : h.instruction? c = some (code, vs, k))
      (later : Mentions h f k) : Mentions h f c

/-- All code in the table of functions can be disassembled, and knows earlier functions only. -/
structure Image.Disassembled (image : Image) : Prop where
  earlier : ∀ i f : FunctionId, i.index < image.functions.size →
    image.heap.Mentions f (image.function i).code → f.index < i.index
  bodies : ∀ i : FunctionId, i.index < image.functions.size → image.Disassembles (image.function i).code

/-! ## Streams -/

namespace Image

/-- The stream is made of instructions up to its end, and so are the arms of its branches. The
    functions among its operands are before position `n`. -/
inductive Stream (image : Image) (n : Nat) : Value → Prop
  | ended : Stream image n .nil
  | instruction {c k : Value} {code : Opcode} {vs : List Value}
      (instr : image.heap.instruction? c = some (code, vs, k))
      (isCode : ∀ v ∈ vs, image.isCode v = code.isBranch)
      (functions : ∀ f : FunctionId, .function f ∈ vs → f.index < n)
      (arms : code.isBranch = true → ∀ x ∈ vs, Stream image n x) (later : Stream image n k) : Stream image n c

/-- The stream is made of instructions up to its end, and so are all the streams that they
    carry. -/
inductive Listed (image : Image) : Value → Prop
  | ended : Listed image .nil
  | instruction {c k : Value} {code : Opcode} {vs : List Value}
      (instr : image.heap.instruction? c = some (code, vs, k))
      (isCode : ∀ v ∈ vs, image.isCode v = code.isBranch)
      (inside : ∀ x ∈ image.carried code vs, Listed image x) (later : Listed image k) : Listed image c

/-- Streams that one comes to from an instruction: what follows it, and what it carries. -/
def DescendsTo (image : Image) (c c' : Value) : Prop :=
  ∃ code vs k, image.heap.instruction? c = some (code, vs, k) ∧ (c' = k ∨ c' ∈ image.carried code vs)

section

variable {image : Image} {c k v : Value} {code : Opcode} {vs : List Value} {n level : Nat} {f : FunctionId}

/-- An instruction that is no branch carries the code of the functions it mentions. -/
theorem mem_carried (hcode : code.isBranch = false) :
    v ∈ image.carried code vs ↔ ∃ f : FunctionId, .function f ∈ vs ∧ (image.function f).code = v := by
  simp only [carried, hcode, Bool.false_eq_true, if_false, List.mem_filterMap]
  constructor
  · rintro ⟨w, hw, heq⟩
    cases w with
    | function f => exact ⟨f, hw, Option.some.inj heq⟩
    | _ => cases heq
  · rintro ⟨f, hf, rfl⟩
    exact ⟨_, hf, rfl⟩

/-- A stream only mentions functions with smaller numbers. -/
theorem Stream.mentions (hc : image.Stream n c) (hf : image.heap.Mentions f c) : f.index < n := by
  -- Induction on where the function is mentioned: in the instruction here, in one of its arms, or
  -- later in the stream.
  induction hf with
  | here instr mem =>
    cases hc with
    | ended => cases instr
    | instruction instr' _ functions _ _ =>
      cases instr.symm.trans instr'
      exact functions f mem
  | arm instr branch mem _ ih =>
    cases hc with
    | ended => cases instr
    | instruction instr' _ _ arms _ =>
      cases instr.symm.trans instr'
      exact ih (arms branch _ mem)
  | later instr _ ih =>
    cases hc with
    | ended => cases instr
    | instruction instr' _ _ _ later =>
      cases instr.symm.trans instr'
      exact ih later

/-- Where every function knows earlier ones only, all streams end that one can come to. -/
theorem Stream.listed (hc : image.Stream n c)
    (hbodies : ∀ f : FunctionId, f.index < n → image.Stream f.index (image.function f).code) : image.Listed c := by
  induction n using Nat.strongRecOn generalizing c with
  | ind n ihn =>
    have hbody (f : FunctionId) (hf : f.index < n) : image.Listed (image.function f).code :=
      ihn f.index hf (hbodies f hf) fun g hg => hbodies g (hg.trans hf)
    induction hc with
    | ended => exact .ended
    | @instruction c k code vs instr isCode functions arms later iharms ihlater =>
      refine .instruction instr isCode (fun x hx => ?_) ihlater
      cases hcode : code.isBranch with
      | true =>
        rw [carried, if_pos hcode] at hx
        exact iharms hcode x hx
      | false =>
        obtain ⟨f, hf, rfl⟩ := (mem_carried hcode).1 hx
        exact hbody f (functions f hf)

/-! ## The text -/

/-- What is listed of a stream is determined by it. -/
theorem Lists.unique {cs : List Value} {entries entries' : List String} (h : image.Lists level cs entries)
    (h' : image.Lists level cs entries') : entries = entries' := by
  induction h generalizing entries' with
  | done =>
    cases h'
    rfl
  | ended _ ih =>
    cases h' with
    | ended others => exact ih others
    | instruction instr => cases instr
  | instruction instr _ _ ihinside ihothers =>
    cases h' with
    | ended => cases instr
    | instruction instr' inside' others' =>
      cases instr.symm.trans instr'
      rw [ihinside inside', ihothers others']

/-- An operand in the line of its instruction. -/
def operandText (image : Image) (v : Value) : String := if image.isCode v then "" else " " ++ image.print v

/-- The streams that an operand stands for. -/
def operandStreams (image : Image) (v : Value) : List Value :=
  if image.isCode v then
    [v]
  else
    match v with
    | .function f => [(image.function f).code]
    | _ => []

/-- One operand is written, and the others after it. -/
theorem listOperands_succ {count : Nat} {l : Listing} {id : PairId} (hl : l.rest = .pair id) :
    image.listOperands (count + 1) l = image.listOperands count
      ⟨l.line ++ image.operandText (image.heap.car id), l.nested ++ image.operandStreams (image.heap.car id),
        image.heap.cdr id⟩ := by
  simp only [listOperands, hl, operandText, operandStreams]
  cases image.isCode (image.heap.car id) with
  | true => simp
  | false => cases image.heap.car id <;> simp [String.append_assoc]

/-- The operands are written in their order, and the streams among them are left for later. -/
theorem listOperands_eq {count : Nat} {l : Listing} (hl : image.heap.operandsAt count l.rest = some (vs, k)) :
    image.listOperands count l =
      ⟨l.line ++ String.join (vs.map image.operandText), l.nested ++ vs.flatMap image.operandStreams, k⟩ := by
  induction count generalizing l vs with
  | zero =>
    cases hl
    simp [listOperands]
  | succ count ih =>
    cases hrest : l.rest with
    | pair id =>
      simp only [hrest, Heap.operandsAt, Option.map_eq_some_iff, Prod.exists, Prod.mk.injEq] at hl
      obtain ⟨vs, k, hvs, rfl, rfl⟩ := hl
      rw [listOperands_succ hrest, ih hvs]
      simp [String.append_assoc]
    | _ => simp [Heap.operandsAt, hrest] at hl

/-- The text of the operands that are no arms. -/
theorem join_operandText (hcode : ∀ v ∈ vs, image.isCode v = code.isBranch) :
    String.join (vs.map image.operandText) =
      String.join ((if code.isBranch then [] else vs).map fun v => " " ++ image.print v) := by
  induction vs with
  | nil => simp
  | cons v vs ih =>
    obtain ⟨hv, hvs⟩ := List.forall_mem_cons.1 hcode
    rw [List.map_cons, String.join_cons, ih hvs, operandText, hv]
    cases code.isBranch <;> simp

/-- Of the operands of a branch all are streams. Of those of other instructions, only the functions
    lead to some. -/
theorem flatMap_operandStreams (hcode : ∀ v ∈ vs, image.isCode v = code.isBranch) :
    vs.flatMap image.operandStreams = image.carried code vs := by
  induction vs with
  | nil => simp [carried]
  | cons v vs ih =>
    obtain ⟨hv, hvs⟩ := List.forall_mem_cons.1 hcode
    rw [List.flatMap_cons, ih hvs]
    unfold operandStreams carried
    rw [hv]
    cases code.isBranch with
    | true => simp
    | false => cases v <;> simp

/-- The line of an instruction whose operands are of its kinds, and the streams that it carries. -/
theorem listInstruction_eq {id : PairId} (hinstr : image.heap.instruction? (.pair id) = some (code, vs, k))
    (hcode : ∀ v ∈ vs, image.isCode v = code.isBranch) :
    ∃ line, image.listInstruction id = ⟨line, image.carried code vs, k⟩ ∧
      ∀ level, indentation level ++ line ++ "\n" = image.entry level code vs := by
  simp only [Heap.instruction?] at hinstr
  split at hinstr
  · next code' hop =>
    simp only [Option.map_eq_some_iff, Prod.exists, Prod.mk.injEq] at hinstr
    obtain ⟨vs', k', hoperands, rfl, rfl, rfl⟩ := hinstr
    have heq := listOperands_eq (l := ⟨code'.mnemonic, [], image.heap.cdr id⟩) hoperands
    rw [join_operandText hcode, List.nil_append, flatMap_operandStreams hcode] at heq
    refine ⟨code'.mnemonic ++ String.join ((if code'.isBranch then [] else vs').map fun v => " " ++ image.print v),
      ?_, fun level => ?_⟩
    · simp only [listInstruction, hop]
      exact heq
    · simp only [entry, String.append_assoc]
  · cases hinstr

/-! ## The descent -/

/-- The streams that are nested in a listed one are listed with smaller numbers, or are parts of it.
    So none comes back. -/
theorem Listed.not_loops (hc : image.Listed c) : ¬Loops image.DescendsTo c := by
  induction hc with
  | ended =>
    intro hloops
    obtain ⟨_, ⟨_, _, _, instr, _⟩, _⟩ := loops_iff.1 hloops
    cases instr
  | instruction instr _ _ _ ihinside ihlater =>
    intro hloops
    obtain ⟨c', ⟨code', vs', k', instr', hnext⟩, hloops⟩ := loops_iff.1 hloops
    cases instr.symm.trans instr'
    rcases hnext with rfl | hmem
    · exact ihlater hloops
    · exact ihinside c' hmem hloops

/-- The descent goes through no more instructions than there are pairs. -/
theorem Listed.bounded (hc : image.Listed c) : Bounded image.DescendsTo image.heap.pairCount c :=
  bounded_of_not_loops (fun _ _ ⟨_, _, _, instr, _⟩ => Heap.mem_pairs_of_instruction? instr)
    image.heap.card_image_pairs_le hc.not_loops

/-- Disassembling the streams adds their entries to a text. -/
def Writes (image : Image) (fuel level : Nat) (cs : List Value) (entries : List String) : Prop :=
  (∀ others rest, image.Lists level others rest → image.Lists level (cs ++ others) (entries ++ rest)) ∧
    ∀ out, cs.foldlM (fun out c => image.disassembleFrom fuel level c out) out = .ok (out ++ String.join entries)

theorem Writes.nil {fuel : Nat} : image.Writes fuel level [] [] :=
  ⟨fun _ _ h => h, fun out => by simp [pure, Except.pure]⟩

/-- Streams and then others. -/
theorem Writes.append {fuel : Nat} {cs cs' : List Value} {entries entries' : List String}
    (h : image.Writes fuel level cs entries) (h' : image.Writes fuel level cs' entries') :
    image.Writes fuel level (cs ++ cs') (entries ++ entries') := by
  refine ⟨fun others rest hrest => ?_, fun out => ?_⟩
  · rw [List.append_assoc, List.append_assoc]
    exact h.1 _ _ (h'.1 _ _ hrest)
  · rw [List.foldlM_append, h.2 out]
    simp only [bind, Except.bind]
    rw [h'.2, String.join_append, String.append_assoc]

/-- If each of the streams can be written, all of them can. -/
theorem Writes.all {fuel : Nat} {cs : List Value} (h : ∀ c ∈ cs, ∃ entries, image.Writes fuel level [c] entries) :
    ∃ entries, image.Writes fuel level cs entries := by
  induction cs with
  | nil => exact ⟨[], .nil⟩
  | cons c cs ih =>
    obtain ⟨hc, hcs⟩ := List.forall_mem_cons.1 h
    obtain ⟨entries, hc⟩ := hc
    obtain ⟨entries', hcs⟩ := ih hcs
    exact ⟨entries ++ entries', hc.append hcs⟩

/-- Enough fuel for the descent is enough to disassemble a stream. -/
theorem Listed.writes (hc : image.Listed c) (level : Nat) {fuel : Nat} (hb : Bounded image.DescendsTo fuel c) :
    ∃ entries, image.Writes fuel level [c] entries := by
  -- The induction is on how the code is listed: the code carried by an instruction one level
  -- further in, and then what follows.
  induction hc generalizing fuel level with
  | ended =>
    refine ⟨[], fun others rest hrest => .ended hrest, fun out => ?_⟩
    cases fuel <;> simp [disassembleFrom]
  | @instruction c k code vs instr isCode _ _ ihinside ihlater =>
    obtain ⟨fuel, rfl, hlater⟩ := hb.next ⟨code, vs, k, instr, .inl rfl⟩
    obtain ⟨nested, hnested⟩ : ∃ nested, image.Writes fuel (level + 1) (image.carried code vs) nested := by
      refine Writes.all fun x hx => ihinside x hx (level + 1) ?_
      obtain ⟨fuel', hfuel, hx⟩ := hb.next ⟨code, vs, k, instr, .inr hx⟩
      obtain rfl := Nat.succ.inj hfuel
      exact hx
    obtain ⟨entries, hentries⟩ := ihlater level hlater
    refine ⟨image.entry level code vs :: (nested ++ entries), fun others rest hrest => ?_, fun out => ?_⟩
    · have hinside := hnested.1 [] [] .done
      have hothers := hentries.1 others rest hrest
      rw [List.append_nil, List.append_nil] at hinside
      simp only [List.cons_append, List.nil_append, List.append_assoc] at hothers ⊢
      exact .instruction instr hinside hothers
    · obtain ⟨id, rfl⟩ : ∃ id, c = .pair id := by
        cases c with
        | pair id => exact ⟨id, rfl⟩
        | _ => cases instr
      obtain ⟨line, hline, hentry⟩ := listInstruction_eq instr isCode
      have hout : out ++ indentation level ++ line ++ "\n" = out ++ image.entry level code vs := by
        rw [← hentry]
        simp only [String.append_assoc]
      have hk := hentries.2
      simp only [List.foldlM_cons, List.foldlM_nil, bind_pure] at hk ⊢
      simp only [disassembleFrom, hline, hout, hnested.2, bind, Except.bind]
      simp only [hk, String.join_cons, String.join_append, String.append_assoc]

/-- The listing goes as deep as there are streams to descend to, which ends. -/
theorem Listed.disassembles (hc : image.Listed c) : image.Disassembles c := by
  obtain ⟨entries, hlists, hwrites⟩ := hc.writes 0 hc.bounded
  have hone : image.Lists 0 [c] entries := by simpa using hlists [] [] .done
  refine ⟨entries, hone, fun entries' h' => h'.unique hone, ?_⟩
  simpa [disassemble] using hwrites ""

/-- Code that loads a function and drops it in an arm of a branch; the function returns `5`. -/
def branching : Image where
  heap :=
    { cars := #[.op .rtn, .int 5, .op .ldc, .op .join, .op .pop, .function ⟨0⟩, .op .ldf, .op .stop, .pair ⟨3⟩,
        .pair ⟨6⟩, .op .sel]
      cdrs := #[.nil, .pair ⟨0⟩, .pair ⟨1⟩, .nil, .pair ⟨3⟩, .pair ⟨4⟩, .pair ⟨5⟩, .nil, .pair ⟨7⟩, .pair ⟨8⟩,
        .pair ⟨9⟩] }
  functions := #[{ arity := .exactly 0, code := .pair ⟨2⟩ }]

example : branching.disassemble (.pair ⟨10⟩) =
    .ok "SEL\n  LDF #<function lambda>\n    LDC 5\n    RTN\n  POP\n  JOIN\n  JOIN\nSTOP\n" := by
  decide +kernel

/-! ## Compiled code -/

/-- The operand is no stream, and no function from position `n` on. -/
def Plain (image : Image) (n : Nat) (v : Value) : Prop :=
  image.isCode v = false ∧ ∀ f : FunctionId, v = .function f → f.index < n

/-- A count is no stream. -/
theorem plain_of_count? {i : Nat} (hv : v.count? = some i) : image.Plain n v := by
  cases v with
  | int m => exact ⟨rfl, nofun⟩
  | _ => cases hv

/-- Neither is a tag. -/
theorem plain_of_isTag (hv : v.isTag = true) : image.Plain n v := by
  cases v with
  | nil | t | symbol _ | int _ => exact ⟨rfl, nofun⟩
  | _ => cases hv

/-- Nor a symbol. -/
theorem plain_of_isSymbol (hv : v.isSymbol = true) : image.Plain n v :=
  plain_of_isTag (by simp [Value.isTag, hv])

/-- A function with a smaller number leads to a stream that is listed already. -/
theorem plain_function (hf : f.index < n) : image.Plain n (.function f) := by
  refine ⟨rfl, ?_⟩
  rintro _ ⟨⟩
  exact hf

/-- A table of tags is a list, but no instruction is at its head. -/
theorem plain_of_isTable {L : Layout} {entries : List (Value × Value)} (hv : L.IsTable image.heap entries v) :
    image.Plain n v := by
  cases hv with
  | nil => exact ⟨rfl, nofun⟩
  | cons _ car _ _ _ => exact ⟨by simp [isCode, car, Value.op?], nofun⟩

/-- An instruction that carries functions only. -/
theorem Stream.straight {L : Layout} (hlater : image.Stream n k) (instr : L.Instr image.heap code vs c k)
    (hlen : vs.length = code.operandCount) (hbranch : code.isBranch = false) (hplain : ∀ v ∈ vs, image.Plain n v) :
    image.Stream n c := by
  refine .instruction (instr.instruction? hlen) (fun v hv => ?_) (fun f hf => (hplain _ hf).2 f rfl) ?_ hlater
  · rw [hbranch, (hplain v hv).1]
  · rw [hbranch]
    exact nofun

/-- A branch. -/
theorem Stream.branch {L : Layout} {x y : Value} (hlater : image.Stream n k)
    (instr : L.Instr image.heap code [x, y] c k) (hlen : code.operandCount = 2) (hbranch : code.isBranch = true)
    (hx : image.isCode x = true) (hy : image.isCode y = true) (hxs : image.Stream n x) (hys : image.Stream n y) :
    image.Stream n c := by
  refine .instruction (instr.instruction? hlen.symm) ?_ (fun f hf => ?_) (fun _ => ?_) hlater
  · simp [hbranch, hx, hy]
  · rcases List.mem_pair.1 hf with rfl | rfl
    · cases hx
    · cases hy
  · simp [hxs, hys]

end

end Image

namespace Layout

section

variable {L : Layout} {image : Image} {b : Base} {env : List FrameShape} {st : List Slot} {ctx : List Item}
  {c : Value} {n : Nat}

/-- Code in order is written as a stream. -/
theorem Code.isCode (hc : L.Code image.heap b env st ctx c) : image.isCode c = true := by
  obtain ⟨code, vs, k, ⟨-, op, -⟩, -⟩ := hc.instr
  simp [Image.isCode, op, Value.op?]

open Image in
/-- Code is a stream whose functions are known. -/
theorem Code.stream (hdata : ∀ id, L.data id → (image.heap.car id).op? = none)
    (hshape : ∀ f env, L.shape f = some env → f.index < n)
    (hctx : ∀ item ∈ ctx, ∀ name, item.construct = .block name → name.isSymbol = true) (hb : b.Whole)
    (hc : L.Code image.heap b env st ctx c) : image.Stream n c := by
  -- Data is no code, so what is printed as an operand is not listed as code.
  have hvisible {v : Value} (hv : L.Visible v) : image.Plain n v := by
    cases v with
    | pair id => exact ⟨by simp [Image.isCode, hdata id hv], nofun⟩
    | function f => exact plain_function (hshape f _ hv.choose_spec)
    | frame _ | op _ => exact absurd hv id
    | _ => exact ⟨rfl, nofun⟩
  have hsymbol (id : SymbolId) : image.Plain n (.symbol id) := ⟨rfl, nofun⟩
  have hone {v : Value} (hv : image.Plain n v) : ∀ w ∈ [v], image.Plain n w := List.forall_mem_singleton.2 hv
  have htwo {v w : Value} (hv : image.Plain n v) (hw : image.Plain n w) : ∀ x ∈ [v, w], image.Plain n x :=
    List.forall_mem_cons.2 ⟨hv, hone hw⟩
  -- All streams of code in order are made of instructions with plain operands, some of which carry
  -- code for their arms.
  induction hc with
  | ldc instr visible _ ih => exact (ih hctx hb).straight instr rfl rfl (hone (hvisible visible))
  | ld instr frame slot _ _ _ ih | ldr instr frame slot _ _ _ ih | setl instr frame slot _ _ _ ih
  | setlr instr frame slot _ _ _ ih =>
    exact (ih hctx hb).straight instr rfl rfl (htwo (plain_of_count? frame) (plain_of_count? slot))
  | ldg instr _ ih | gfn instr _ ih | setg instr _ ih => exact (ih hctx hb).straight instr rfl rfl (hone (hsymbol _))
  | ldf instr shape _ ih => exact (ih hctx hb).straight instr rfl rfl (hone (plain_function (hshape _ _ shape)))
  | ap instr count _ ih | tap instr count _ _ ih | rap instr count _ ih =>
    exact (ih hctx hb).straight instr rfl rfl (hone (plain_of_count? count))
  | dum instr count load shape _ ih =>
    exact ((ih hctx hb).straight load rfl rfl (hone (plain_function (hshape _ _ shape)))).straight instr rfl rfl
      (hone (plain_of_count? count))
  | rtn instr | join instr | stop instr => exact Stream.ended.straight instr rfl rfl (List.forall_mem_nil _)
  | sel instr yes no _ ihyes ihno ih =>
    have hyes := ihyes (List.forall_mem_cons.2 ⟨nofun, hctx⟩) hb
    have hno := ihno (List.forall_mem_cons.2 ⟨nofun, hctx⟩) hb
    exact (ih hctx hb).branch instr rfl rfl yes.isCode no.isCode hyes hno
  | tsel instr yes no _ _ ihyes ihno _ =>
    exact Stream.ended.branch instr rfl rfl yes.isCode no.isCode (ihyes hctx hb) (ihno hctx hb)
  | pop instr _ ih => exact (ih hctx hb).straight instr rfl rfl (List.forall_mem_nil _)
  | callp instr count _ ih =>
    exact (ih hctx hb).straight instr rfl rfl (htwo ⟨rfl, nofun⟩ (plain_of_count? count))
  | bind instr _ _ _ ih _ =>
    exact (ih (List.forall_mem_cons.2 ⟨nofun, hctx⟩) hb).straight instr rfl rfl (hone (hsymbol _))
  | unbind instr _ ih =>
    exact (ih (List.forall_mem_cons.1 hctx).2 hb).straight instr rfl rfl (hone (hsymbol _))
  | block instr symbol _ _ ih _ =>
    have hbody := ih (List.forall_mem_cons.2 ⟨fun _ heq => Construct.block.inj heq ▸ symbol, hctx⟩) hb
    exact hbody.straight instr rfl rfl (hone (plain_of_isSymbol symbol))
  | blockend instr _ ih =>
    obtain ⟨hname, hctx⟩ := List.forall_mem_cons.1 hctx
    exact (ih hctx hb).straight instr rfl rfl (hone (plain_of_isSymbol (hname _ rfl)))
  | retfrom instr symbol _ ih => exact (ih hctx hb).straight instr rfl rfl (hone (plain_of_isSymbol symbol))
  | tagbody instr _ isTable _ _ _ _ _ ih _ =>
    exact (ih (List.forall_mem_cons.2 ⟨nofun, hctx⟩) hb).straight instr rfl rfl
      (htwo (hsymbol _) (plain_of_isTable isTable))
  | tagend instr _ ih => exact (ih (List.forall_mem_cons.1 hctx).2 hb).straight instr rfl rfl (List.forall_mem_nil _)
  | go instr _ _ isTag _ ih =>
    exact (ih hctx hb).straight instr rfl rfl (htwo (hsymbol _) (plain_of_isTag isTag))
  | reached => exact absurd hb id

end

/-- Where no block can be left, code is not inside of any. -/
theorem Trail.context_of_exits {r : Nat} {K : Trail} (hexits : K.exits r = []) :
    ∀ item ∈ K.context, ∀ name, item.construct = .block name → name.isSymbol = true := by
  induction K with
  | nil => exact List.forall_mem_nil _
  | cons l K ih =>
    cases hk : l.kind with
    | block name => simp [Trail.exits, hk] at hexits
    | tagbody id table => simp [Trail.exits, hk] at hexits
    | call => simp [Trail.context, hk, LevelKind.construct?]
    | join | bind _ _ =>
      simp only [Trail.exits, hk] at hexits
      simp only [Trail.context, hk, LevelKind.construct?]
      refine List.forall_mem_cons.2 ⟨fun name hname => ?_, ih hexits⟩
      cases hname

end Layout

section

variable {n : Nat} {L : Layout} {image : Image} {s : Interpreter} {f : FunctionId}

/-- The code of a function is a stream that knows only the functions before it. -/
theorem History.stream (hi : History L image) (hL : L.Fits image.heap) (hf : f.index < image.functions.size) :
    image.Stream f.index (image.function f).code := by
  obtain ⟨env, hcode⟩ := hi.bodies f hf
  refine Code.stream (L := L.below f.index) ?_ (fun g env hg => (shape_below hg).1) ?_ ?_ hcode
  · exact fun id hd => (hL.data id hd).2.1.op?_eq_none
  · exact List.forall_mem_nil _
  · trivial

/-- Streams of functions that are there can be disassembled. -/
theorem History.disassembles (hi : History L image) (hL : L.Fits image.heap) {c : Value}
    (hc : image.Stream n c) (hn : n ≤ image.functions.size) : image.Disassembles c :=
  (hc.listed fun _ hf => hi.stream hL (hf.trans_le hn)).disassembles

/-- The functions of an image in order refer to earlier ones. -/
theorem History.disassembled (hi : History L image) (hL : L.Fits image.heap) : image.Disassembled where
  earlier _ _ hlt hmentions := (hi.stream hL hlt).mentions hmentions
  bodies _ hlt := hi.disassembles hL (hi.stream hL hlt) hlt.le

/-- Code in order is a stream of functions that are there. -/
theorem Sound.stream (hs : Sound L s) {b : Base} {env : List FrameShape} {st : List Slot} {ctx : List Item}
    {c : Value} (hc : L.Code s.image.heap b env st ctx c) (hb : b.Whole)
    (hctx : ∀ item ∈ ctx, ∀ name, item.construct = .block name → name.isSymbol = true) :
    s.image.Stream s.image.functions.size c :=
  hc.stream (fun id hd => (hs.fits.data id hd).2.1.op?_eq_none) (fun f env hf => (hs.functions f env hf).1) hctx hb

/-- The code of all functions can be disassembled, and so can the code ahead where no block or
    tagbody is active, as at the start of a run. -/
def disassemblable : Audit := fun flow s =>
  s.image.Disassembled ∧
    (flow = .next → s.machine.exits.items = [] → s.image.Disassembles s.machine.control)

/-- The code of a run in order is listed in its image. -/
theorem disassemblable_of_flows {rest : List SavedValue} {K : Trail} {flow : Flow} (hi : History L s.image)
    (hf : Flows n L rest K flow s) : disassemblable flow s := by
  have hsound := hf.goes.sound
  refine ⟨hi.disassembled hsound.fits, ?_⟩
  rintro rfl hexits
  have hstream : s.image.Stream s.image.functions.size s.machine.control := by
    rcases hf with ⟨inside, hcode⟩ | ⟨loading, hload, hshape, hcode⟩
    · exact hsound.stream hcode K.whole_base (Trail.context_of_exits (inside.exits ▸ hexits))
    · have hnext := hsound.stream hcode K.whole_base (Trail.context_of_exits (loading.inside.exits ▸ hexits))
      refine hnext.straight hload rfl rfl (List.forall_mem_singleton.2 (Image.plain_function ?_))
      exact (hsound.functions _ _ hshape).1
  exact hi.disassembles hsound.fits hstream le_rfl

end

namespace Session

/-- The code of all functions can be disassembled, and so can all code that was compiled. -/
structure Disassembled (session : Session) : Prop where
  functions : session.interpreter.image.Disassembled
  codes : ∀ c ∈ session.codes, session.interpreter.image.Disassembles c

/-- So is the code that a session has compiled. -/
theorem Orderly.disassembled {L : Layout} {session : Session} (ho : session.Orderly L) : session.Disassembled where
  functions := ho.history.disassembled ho.sound.fits
  codes c hc := by
    have hstream := ho.sound.stream (ho.codes c hc) trivial (List.forall_mem_nil _)
    exact ho.history.disassembles ho.sound.fits hstream le_rfl

/-- At every moment of a session, the code of a function mentions only functions that were
    entered before it; disassembling it ends, and so does disassembling any code that has been
    compiled, or is about to be run. There is one entry for each instruction then, in order, and
    below it those of the streams that it carries. -/
theorem disassemble_run (config : Config) (level : LogLevel) (commands : List Command) :
    (run .plain config level commands).Disassembled ∧
    (run (.audited disassemblable) config level commands).Relogged (run .plain config level commands) ∧
    Mark.fault ∉ (run (.audited disassemblable) config level commands).interpreter.image.log.marks := by
  obtain ⟨L₀, ho₀⟩ := orderly_start config level
  obtain ⟨L, ho⟩ := ho₀.performAll Engine.plain_inOrder commands
  obtain ⟨L', ho'⟩ := audited_orderly (fun hi hf => disassemblable_of_flows hi hf) config level commands
  exact ⟨ho.disassembled, audited_relogged _ config level commands, ho'.history.faultless⟩

end Session

end StackLisp
