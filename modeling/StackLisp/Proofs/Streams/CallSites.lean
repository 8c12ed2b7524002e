import StackLisp.Proofs.Streams.Reach
import StackLisp.Proofs.Streams.Session

/-!
# Calls and tail calls

A call may become a tail call if nothing is left to do after it but to return, past the ends of blocks,
and if no closure can still need the record of one of these blocks. This is known only when all of
these blocks have been compiled, with all returns from them, so the compiler makes an ordinary call
first and decides later.

The tree of a piece tells for each call which blocks are around it (`Piece.sites`), and which of them
a function inside returns from (`Piece.captures`). `Heap.Decides` says that the call is a tail call
exactly if it may be one. `Observer.calls` looks at the calls of all functions and of all forms that
have been compiled at top level, and at what the compiler knows on the way about calls that it has not
decided yet, also when a form inside fails to compile. No fault is ever found
(`Session.calls_decided_run`).
-/

namespace StackLisp

open Interpreter Compiler

/-! ## Call sites -/

namespace Piece

/-- The calls of a piece, but for those in the bodies of functions, each with the blocks of the piece
    around it, by their names and bodies, the innermost first. -/
def sites : Piece → List (PairId × List (Value × Piece))
  | skip | single .. => []
  | call pair _ => [(pair, [])]
  | seq first second => first.sites ++ second.sites
  | branch _ thenArm elseArm => thenArm.sites ++ elseArm.sites
  | enter _ _ rest => rest.sites
  | block name body => body.sites.map fun t => (t.1, t.2 ++ [(name, body)])
  | tagbody _ items => items.sites
  | label _ rest => rest.sites
  | form item rest => item.sites ++ rest.sites

/-- The call sites of a piece are its calls. -/
theorem map_sites (g : Piece) : g.sites.map (·.1) = g.calls := by
  induction g <;> simp_all [sites, calls, Function.comp_def]

end Piece

section

variable {h : Heap} {q : PairId} {blocks : List (Value × Piece)} {names : List Value} {ending : Ending}

/-- The continuation of the call leads past the ends of blocks of these names, and then it ends. -/
inductive Heap.CallEnds (h : Heap) (q : PairId) (code : Opcode) (names : List Value) (ending : Ending) : Prop
  | intro {argc k : Value} (instr : h.instruction? (.pair q) = some (code, [argc], k)) (ends : h.Ends k names ending)

/-- The call is what it has to be. Its continuation leads past the ends of the innermost of the
    blocks around it, if of any. The call is a tail call if it returns then, and if none of these
    blocks is captured; otherwise it is an ordinary call. -/
inductive Heap.Decides (h : Heap) (q : PairId) (blocks : List (Value × Piece)) : Prop
  | intro {code : Opcode} {names : List Value} {ending : Ending} (ends : h.CallEnds q code names ending)
      (innermost : names <+: blocks.map (·.1)) (isCall : code = .ap ∨ code = .tap)
      (isTail : code = .tap ↔ ending = .rtn ∧ ∀ b ∈ blocks.take names.length, b.2.captures b.1 = false) :
      Decides h q blocks

end

/-- The code is a piece in front of the instruction that ends it, with no calls but those of the
    piece, and each of these is what it has to be. -/
def Image.DecidesCalls (image : Image) (ending : Opcode) (c : Value) : Prop :=
  ∃ lo hi g last, image.heap.instruction? (.pair last) = some (ending, [], .nil) ∧
    image.Emits lo hi [] g (.pair last) c ∧ (∀ t ∈ g.sites, image.heap.Decides t.1 t.2) ∧
    ∀ q, image.heap.Reaches c (.pair q) → image.heap.IsCall q → ∃ blocks, (q, blocks) ∈ g.sites

section

variable {image : Image} {lo hi : Nat} {entries : List (Value × Value)} {g : Piece} {cont c : Value} {q : PairId}
  {blocks : List (Value × Piece)}

/-- What is at a call is its operation code. -/
theorem Heap.CallEnds.car {h : Heap} {code : Opcode} {names : List Value} {ending : Ending}
    (hc : h.CallEnds q code names ending) : h.car q = .op code := by
  obtain ⟨instr, -⟩ := hc
  obtain ⟨_, heq, hop, -⟩ := car_of_instruction? instr
  cases heq
  exact hop

/-- An ordinary call that goes on elsewhere, past the ends of blocks around it or of none. -/
def Heap.IsInner (h : Heap) (q : PairId) (blocks : List (Value × Piece)) : Prop :=
  ∃ names, names <+: blocks.map (·.1) ∧ h.CallEnds q .ap names .elsewhere

/-- A call in tail position of a piece in front of a continuation. -/
def Heap.IsOuter (h : Heap) (q : PairId) (blocks : List (Value × Piece)) (cont : Value) (g : Piece) : Prop :=
  (q, blocks.any fun b => b.2.captures b.1) ∈ g.tails ∧ ∀ names ending, h.Ends cont names ending →
    ∃ code, (code = .ap ∨ code = .tap) ∧ h.CallEnds q code (blocks.map (·.1) ++ names) ending

/-- In front of code that goes on elsewhere, a call in tail position is an inner one, provided that
    the calls in tail position are ordinary. -/
theorem Heap.IsOuter.inner {h : Heap} (ho : h.IsOuter q blocks cont g) (hends : h.Ends cont [] .elsewhere)
    (hordinary : g.Ordinary h) : h.IsInner q blocks := by
  obtain ⟨htail, hcall⟩ := ho
  obtain ⟨code, -, hc⟩ := hcall _ _ hends
  rw [List.append_nil] at hc
  obtain rfl : code = .ap := by simpa [hordinary _ htail] using hc.car.symm
  exact ⟨_, List.prefix_refl _, hc⟩

/-- A call is in tail position of the piece, or it is an ordinary call that goes on elsewhere. -/
theorem Image.Emits.site (he : image.Emits lo hi entries g cont c) (hd : g.Decided image.heap)
    (hq : (q, blocks) ∈ g.sites) : image.heap.IsOuter q blocks cont g ∨ image.heap.IsInner q blocks := by
  induction he generalizing blocks with
  | skip | single => cases hq
  | call placed _ isCall =>
    obtain ⟨rfl, rfl⟩ := Prod.mk.inj (List.mem_singleton.1 hq)
    exact .inl ⟨List.mem_singleton_self _, fun names ending ends => ⟨_, isCall, placed.instr, ends⟩⟩
  | seq later earlier starts ih₁ ih₂ =>
    -- the first part goes on with the second one, and that is neither an end of a block nor a return
    rcases List.mem_append.1 hq with hq | hq
    · exact .inr ((ih₂ hd.1 hq).elim (·.inner (later.ends starts.2) hd.2.2) id)
    · exact ih₁ hd.2.1 hq
  | sel ends yes no placed _ ih₁ ih₂ =>
    have hjoin := Heap.Ends.other ends.op nofun nofun nofun
    rcases List.mem_append.1 hq with hq | hq
    · exact .inr ((ih₁ hd.1 hq).elim (·.inner hjoin (hd.2.2 rfl).1) id)
    · exact .inr ((ih₂ hd.2.1 hq).elim (·.inner hjoin (hd.2.2 rfl).2) id)
  | tsel yes no placed _ ih₁ ih₂ =>
    rcases List.mem_append.1 hq with hq | hq
    · exact (ih₁ hd.1 hq).imp_left fun ho => ⟨List.mem_append_right _ ho.1, ho.2⟩
    · exact (ih₂ hd.2.1 hq).imp_left fun ho => ⟨List.mem_append_left _ ho.1, ho.2⟩
  | enter known ends inside later placed _ _ ih => exact ih hd.2.1 hq
  | @block lo m hi name body last id cont k ends inside placed _ ih =>
    obtain ⟨t, ht, heq⟩ := List.mem_map.1 hq
    obtain ⟨rfl, rfl⟩ := Prod.mk.inj heq
    rcases ih hd ht with ⟨htail, hcall⟩ | ⟨names, hprefix, hc⟩
    · -- the block is the innermost one that the call leaves beside those inside
      refine .inl ⟨?_, fun names ending hends => ?_⟩
      · rw [List.any_append, List.any_cons, List.any_nil, Bool.or_false]
        exact List.mem_map_of_mem htail
      · simpa using hcall _ _ (.blockend ends.instr hends)
    · exact .inr ⟨names, by simpa using hprefix.trans (List.prefix_append ..), hc⟩
  | tagbody ends inside _ placed _ ih =>
    -- the items of a tagbody have no calls in tail position
    refine .inr ((ih hd.1 hq).elim (fun ho => ?_) id)
    exact absurd ho.1 (hd.2 ▸ List.not_mem_nil)
  | label _ _ ih =>
    refine .inr ((ih hd.1 hq).elim (fun ho => ?_) id)
    exact absurd ho.1 (hd.2 ▸ List.not_mem_nil)
  | form later dropped earlier _ ih₁ ih₂ =>
    rcases List.mem_append.1 hq with hq | hq
    · exact .inr ((ih₂ hd.1 hq).elim (·.inner (.other dropped.op nofun nofun nofun) hd.2.2.1) id)
    · refine .inr ((ih₁ hd.2.1 hq).elim (fun ho => ?_) id)
      exact absurd ho.1 (hd.2.2.2 ▸ List.not_mem_nil)

/-- An ordinary call that goes on elsewhere is what it has to be. -/
theorem Heap.IsInner.decides {h : Heap} (hi : h.IsInner q blocks) : h.Decides q blocks := by
  obtain ⟨names, hprefix, hc⟩ := hi
  exact ⟨hc, hprefix, .inl rfl, by simp⟩

/-- There are no calls in a stream but those of the piece. -/
theorem Image.Emits.decidesCalls {last : PairId} {code : Opcode} {lo' : Nat}
    (he : image.Emits lo hi [] g (.pair last) c) (ends : image.heap.Placed lo' last code [] .nil)
    (hcode : code = .rtn ∨ code = .stop) (hlo : lo' ≤ lo) (hlast : last.index < hi)
    (hsites : ∀ t ∈ g.sites, image.heap.Decides t.1 t.2) : image.DecidesCalls code c := by
  refine ⟨_, _, g, _, ends.instr, he, hsites, fun q hr hq => ?_⟩
  -- the stream is within the range of the piece, and its calls are those of the piece
  have hmem : q ∈ g.sites.map (·.1) := by
    rw [Piece.map_sites]
    rcases he.within ends hcode hlo hlast hr with hnil | ⟨heq, placed, -, hcall, -⟩
    · cases hnil
    · cases heq
      refine hcall ?_
      rcases hq with hq | hq
      · exact .inl (by simpa [hq] using placed.op.symm)
      · exact .inr (by simpa [hq] using placed.op.symm)
  obtain ⟨t, ht, rfl⟩ := List.mem_map.1 hmem
  exact ⟨t.2, ht⟩

/-- The calls of a function are what they have to be. -/
theorem Image.Whole.decidesCalls (hw : image.Whole lo hi g c) : image.DecidesCalls .rtn c := by
  obtain ⟨ends, inside, decided, final⟩ := hw
  refine inside.decidesCalls ends (.inl rfl) (Nat.le_succ_of_le ends.above) inside.le fun t ht => ?_
  rcases inside.site decided ht with ⟨htail, hcall⟩ | hinner
  · obtain ⟨code, isCall, hc⟩ := hcall _ _ (.rtn ends.op)
    rw [List.append_nil] at hc
    refine ⟨hc, List.prefix_refl _, isCall, ?_⟩
    have hcode := hc.car.symm.trans (final _ htail)
    rw [List.length_map, List.take_length]
    simp only [Value.op.injEq] at hcode
    subst hcode
    simp
  · exact hinner.decides

/-- The calls of a top-level form are ordinary calls. -/
theorem Image.Makes.decidesCalls {last : PairId} (hm : image.Makes lo hi [] .stop (.pair last) g c)
    (instr : image.heap.instruction? (.pair last) = some (.stop, [], .nil)) (hlast : last.index < hi) :
    image.DecidesCalls .stop c := by
  have ends : image.heap.Placed 0 last .stop [] .nil := ⟨instr, Nat.zero_le _, nofun⟩
  refine hm.emits.decidesCalls ends (.inr rfl) (Nat.zero_le _) hlast fun t ht => ?_
  rcases hm.emits.site hm.decided ht with ⟨htail, hcall⟩ | hinner
  · obtain ⟨code, isCall, hc⟩ := hcall _ _ (.stop ends.op)
    rw [List.append_nil] at hc
    have hordinary : g.Ordinary image.heap := by
      have := hm.settled
      simpa [Piece.Settled] using this
    obtain rfl : code = .ap := by simpa [hordinary _ htail] using hc.car.symm
    exact ⟨hc, List.prefix_refl _, isCall, by simp⟩
  · exact hinner.decides

end

/-! ## Sessions -/

/-- Every function of the table has the calls that it has to have. -/
def Interpreter.DecidesCalls (s : Interpreter) : Prop :=
  ∀ f : FunctionId, f.index < s.image.functions.size → s.image.DecidesCalls .rtn (s.image.function f).code

/-- The ends of blocks that the continuation starts with are those of the innermost blocks around. -/
def Interpreter.Crosses (s : Interpreter) (cont : Value) : Prop :=
  ∃ names ending, s.image.heap.Ends cont names ending ∧ names <+: s.scopes.blocks.map (·.name)

/-- What a form that has been compiled, or has failed to, leaves behind: the blocks around are the
    same, and calls are what they have to be, also those of the form if it is one at top level. -/
structure LeavesDecided (s : Interpreter) (cont : Value) (code? : Option Value) (s' : Interpreter) : Prop where
  blocks : s'.scopes.blocks.map (·.name) = s.scopes.blocks.map (·.name)
  counted : s'.scopes.Counted
  functions : s'.DecidesCalls
  toplevel : ∀ c ∈ code?, s'.image.heap.instruction? cont = some (.stop, [], .nil) → s'.image.DecidesCalls .stop c

/-- Looks at the calls in code, and at what the compiler knows about those that it has not decided
    yet: which blocks their continuations leave, and how many blocks they wait for, which is never
    less than those that still hold them. -/
noncomputable def Observer.calls : Observer where
  before
    | .compile cont, s => markIf (¬(s.Crosses cont ∧ s.scopes.Counted)) .fault
    | .go _, _ => []
  after
    | .compile cont, s, code?, s' => markIf (¬LeavesDecided s cont code? s') .fault
    | .go _, _, _, s' => markIf (¬s'.DecidesCalls) .fault

/-- No fault has been found in between. -/
def StaysFaultless (s s' : Interpreter) : Prop := Mark.fault ∉ s.image.log.marks → Mark.fault ∉ s'.image.log.marks

section

variable {s s' : Interpreter} {P : Prop} {cont c : Value} {names : List Value} {ending : Ending}

/-- Staying without faults is passed on from step to step. -/
theorem lasting_faultless : Lasting StaysFaultless where
  trans h h' := h' ∘ h
  added _ _ hmarks h := hmarks ▸ h
  tapped h _ _ _ := h

/-- Marks that are no faults may be added. -/
theorem staysFaultless_markedAll {ms : List Mark} (h : Mark.fault ∉ ms) :
    StaysFaultless s (s.markedAll ms) := fun hs => by
  rw [marks_markedAll]
  exact fun hmem => (List.mem_append.1 hmem).elim hs h

/-- What holds is not at fault. -/
theorem staysFaultless_markIf (hP : P) : StaysFaultless s (s.markedAll (markIf (¬P) .fault)) :=
  staysFaultless_markedAll (by simp [markIf_of_not, hP])

/-- Functions that have been compiled whole have the calls they have to have. -/
theorem Interpreter.Bodied.decidesCalls (hs : s.Bodied) : s.DecidesCalls := fun f hf =>
  have ⟨_, _, _, hb, _⟩ := hs f hf
  Image.Whole.decidesCalls hb

/-- Code that ends somewhere starts with an instruction. -/
theorem Heap.Ends.isOp {h : Heap} (he : h.Ends c names ending) : h.IsOp c := by
  cases he with
  | rtn op | stop op | other op => exact ⟨_, _, rfl, op⟩
  | blockend instr =>
    obtain ⟨id, heq, hop, -⟩ := car_of_instruction? instr
    exact ⟨id, _, heq, hop⟩

/-- In front of the end of a program there are no ends of blocks. -/
theorem Heap.Ends.of_stop {h : Heap} {k : Value} (he : h.Ends c names ending)
    (instr : h.instruction? c = some (.stop, [], k)) : names = [] ∧ ending = .stop := by
  obtain ⟨id, heq, hop, -⟩ := car_of_instruction? instr
  cases he with
  | stop => exact ⟨rfl, rfl⟩
  | blockend instr' => simp [instr'] at instr
  | rtn op | other op => simp_all

/-- A form that has been compiled in the open leaves its calls decided. -/
theorem Coded.leavesDecided (h : Coded StaysFaultless 0 names ending cont s c s') (ho : s.Open cont names ending) :
    LeavesDecided s cont (some c) s' := by
  obtain ⟨g, hm, hr⟩ := h
  refine ⟨hr.names, hr.counted ho.counted, (hr.bodied ho.bodied).decidesCalls, fun c' hc' instr => ?_⟩
  cases hc'
  obtain ⟨last, rfl⟩ := ho.ends.exists_pair
  have hlast : last.index < s.pairCount := by
    obtain ⟨id, code, heq, hop⟩ := ho.ends.isOp
    cases heq
    exact Heap.lt_of_car_ne (by simp [hop])
  obtain ⟨rfl, rfl⟩ := (ho.ends.keeps hr.keeps).of_stop instr
  exact hm.decidesCalls instr (Nat.lt_of_lt_of_le hlast hr.keeps.pairCount)

/-- The observer of calls finds no fault, whatever is compiled. -/
theorem observes_calls : Observes StaysFaultless .calls where
  toLasting := lasting_faultless
  compile hopen := staysFaultless_markIf ⟨⟨_, _, hopen.ends, hopen.names⟩, hopen.counted⟩
  compiled hopen hcoded := staysFaultless_markIf (hcoded.leavesDecided hopen)
  fell hopen hfallen := by
    obtain ⟨rs, ts, hr⟩ := hfallen
    exact staysFaultless_markIf ⟨hr.names, hr.counted hopen.counted, (hr.bodied hopen.bodied).decidesCalls, nofun⟩
  go _ := staysFaultless_markedAll List.not_mem_nil
  altered _ _ h hs := h.marks ▸ hs
  gone _ _ hs := staysFaultless_markIf hs.decidesCalls

end

/-- At every moment of every session, all calls are what they have to be: those of the functions, and
    those of a top-level form that has been compiled. All along, and also when forms fail to compile, a
    continuation leads past the ends of the innermost blocks around, and the pending tail calls are
    counted. -/
theorem Session.calls_decided_run (config : Config) (level : LogLevel) (commands : List Command) :
    (run (.observed .calls) config level commands).Relogged (run .plain config level commands) ∧
      Mark.fault ∉ (run (.observed .calls) config level commands).interpreter.image.log.marks :=
  ⟨observed_relogged .., observed_lasts observes_calls config level commands
    ((bodied_start config level).2 ▸ List.not_mem_nil)⟩

end StackLisp
