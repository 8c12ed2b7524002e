import StackLisp.Proofs.Balance
import StackLisp.Proofs.Safety.Snapshot

/-!
# Code and data apart

Instructions, tables of tags, environments, closures and the data of programs are all
made of pairs of one heap, and quoted data even stands inside of code. They are kept
apart all the same:

* `Sees` says which values programs can get hold of: operands, slots of frames, values of
  symbols, also those that dynamic bindings have replaced, and whatever these lead to;
* `Private` says which pairs the interpreter keeps to itself: those of all instructions, of the
  tables of tags, of environments and of closures, wherever they are in the heap.

At every moment of every run, programs see no private pair, no opcode, no frame, and no
second spelling of `nil` and `t` (`Separate`). Otherwise a `rplaca` could change running
code. The layout of an interpreter in order tells why: what programs see is data, what is
private is the interpreter's own, and no pair is both.
-/

namespace StackLisp

open Interpreter Layout

/-- The values that programs can get hold of, if they are given `values`. -/
inductive Interpreter.Sees (s : Interpreter) (values : List Value) : Value → Prop
  | given {v : Value} (mem : v ∈ values) : Sees s values v
  | operand {v : Value} (mem : v ∈ s.machine.stack.items) : Sees s values v
  | slot {f : FrameId} {v : Value} (mem : v ∈ (s.image.heap.frameAt f).slots) : Sees s values v
  | value {id : SymbolId} {v : Value} (eq : (s.image.symbols.get id).value = some v) :
      Sees s values v
  | saved {x : SavedValue} {v : Value} (mem : x ∈ s.machine.bindings.items)
      (eq : x.value = some v) : Sees s values v
  | car {id : PairId} (seen : Sees s values (.pair id)) : Sees s values (s.image.heap.car id)
  | cdr {id : PairId} (seen : Sees s values (.pair id)) : Sees s values (s.image.heap.cdr id)

/-- The pair is one of the first `n` of a list. -/
inductive Heap.Among (h : Heap) (p : PairId) : Nat → Value → Prop
  | here {n : Nat} : Among h p (n + 1) (.pair p)
  | there {n : Nat} {id : PairId} (rest : Among h p n (h.cdr id)) : Among h p (n + 1) (.pair id)

/-- The code and the environments that the interpreter has at hand. -/
inductive Interpreter.Holds (s : Interpreter) (values : List Value) : Value → Prop
  | control : Holds s values s.machine.control
  | env : Holds s values s.machine.env
  | function {f : FunctionId} (known : f.index < s.image.functions.size) :
      Holds s values (s.image.function f).code
  | caller {env code : Value} {exits : Nat}
      (mem : DumpEntry.call env code exits ∈ s.machine.dump.items) : Holds s values code
  | callerEnv {env code : Value} {exits : Nat}
      (mem : DumpEntry.call env code exits ∈ s.machine.dump.items) : Holds s values env
  | join {code : Value} (mem : DumpEntry.join code ∈ s.machine.dump.items) : Holds s values code
  | block {name env : Value} {stack : Nat}
      (mem : Exit.block name stack env ∈ s.machine.exits.items) : Holds s values env
  | tagbody {id table env : Value} {dump stack bindings : Nat}
      (mem : Exit.tagbody id table env dump stack bindings ∈ s.machine.exits.items) :
      Holds s values env
  | closure {id : PairId} (seen : s.Sees values (.closure id)) :
      Holds s values (s.image.heap.cdr id)

/-- The tables of tags. -/
inductive Interpreter.TagTable (s : Interpreter) : Value → Prop
  | instruction {id : PairId} {tag table k : Value}
      (instr : s.image.heap.instruction? (.pair id) = some (.tagbody, [tag, table], k)) :
      TagTable s table
  | entered {id table env : Value} {dump stack bindings : Nat}
      (mem : Exit.tagbody id table env dump stack bindings ∈ s.machine.exits.items) :
      TagTable s table

/-- The pairs that the interpreter keeps to itself. -/
inductive Interpreter.Private (s : Interpreter) (values : List Value) : PairId → Prop
  | list {c : Value} {p : PairId} (held : s.Holds values c)
      (tail : s.image.heap.Suffix (.pair p) c) : Private s values p
  | instruction {id p : PairId} {code : Opcode} (op : s.image.heap.car id = .op code)
      (among : s.image.heap.Among p (code.operandCount + 1) (.pair id)) : Private s values p
  | table {table : Value} {p : PairId} (isTable : s.TagTable table)
      (tail : s.image.heap.Suffix (.pair p) table) : Private s values p
  | entry {table : Value} {p entry : PairId} (isTable : s.TagTable table)
      (tail : s.image.heap.Suffix (.pair p) table) (car : s.image.heap.car p = .pair entry) :
      Private s values entry
  | environment {p : PairId} {f : FrameId} (car : s.image.heap.car p = .frame f) :
      Private s values p
  | closure {p : PairId} (seen : s.Sees values (.closure p)) : Private s values p

/-- Programs see proper values, and no private pairs. -/
structure Interpreter.Separate (s : Interpreter) (values : List Value) : Prop where
  proper : ∀ v, s.Sees values v → v.isProper
  apart : ∀ id, s.Sees values (.pair id) → ¬s.Private values id

/-! ## Lists of the interpreter's own -/

namespace Layout

/-- A value that programs can get hold of: one of their own, or a closure whose frame is still
    to be filled. -/
inductive Met (L : Layout) (h : Heap) : Value → Prop
  | visible {v : Value} (visible : L.Visible v) : Met L h v
  | closure {id : PairId} {shapes : List FrameShape} (own : L.own id)
      (isEnv : L.IsEnv h shapes (h.cdr id)) : Met L h (.closure id)

variable {L : Layout} {h : Heap}

/-- What is visible is proper, and so is a closure. -/
theorem Met.isProper {v : Value} (hv : L.Met h v) : v.isProper := by
  cases hv with
  | visible visible => exact visible.isProper
  | closure => rfl

/-- An environment is a list whose pairs are the interpreter's own. -/
theorem IsEnv.chain {shapes : List FrameShape} {env : Value} (henv : L.IsEnv h shapes env) :
    L.Chain h env := by
  induction henv with
  | nil => exact .nil
  | cons own _ _ _ ih => exact .cons own ih

/-- So are all the parts of such a list. -/
theorem Chain.own {c : Value} {p : PairId} (hc : L.Chain h c) (hs : h.Suffix (.pair p) c) :
    L.own p := by
  induction hs with
  | refl =>
    obtain _ | ⟨own, -⟩ := hc
    exact own
  | cdr _ ih =>
    obtain _ | ⟨-, rest⟩ := hc
    exact ih rest

/-- The operands of an instruction are in pairs of its stream. -/
theorem Operands.among {vs : List Value} {c k : Value} {p : PairId} (ho : L.Operands h vs c k)
    (ha : h.Among p vs.length c) : L.own p := by
  induction ho with
  | nil => cases ha
  | cons own _ _ ih =>
    cases ha with
    | here => exact own
    | there rest => exact ih rest

/-- The opcode is, too. -/
theorem Starts.among {id p : PairId} {code : Opcode} (hs : L.Starts h id code)
    (ha : h.Among p (code.operandCount + 1) (.pair id)) : L.own p := by
  obtain ⟨own, vs, k, operands, length, -⟩ := hs
  cases ha with
  | here => exact own
  | there rest => exact operands.among (length ▸ rest)

/-- What is read as a `TAGBODY` has a table. -/
theorem Fits.isTable (hL : L.Fits h) {id : PairId} {tag table k : Value}
    (hi : h.instruction? (.pair id) = some (.tagbody, [tag, table], k)) :
    ∃ entries, L.IsTable h entries table := by
  have hop : h.car id = .op .tagbody := by
    simp only [Heap.instruction?] at hi
    split at hi
    · next code hcode =>
      obtain ⟨_, _, heq⟩ := Option.map_eq_some_iff.1 hi
      obtain rfl : code = .tagbody := congrArg Prod.fst heq
      exact hcode
    · cases hi
  obtain ⟨own, vs, k', operands, length, htable⟩ := hL.instructions id _ hop
  obtain ⟨tag', table', entries, rfl, hentries⟩ := htable rfl
  have heq := (Instr.mk own hop operands).instruction? length
  obtain ⟨⟨rfl, rfl⟩, rfl⟩ : (_ = _ ∧ _ = _) ∧ _ = _ := by simpa using heq.symm.trans hi
  exact ⟨entries, hentries⟩

/-- A table is a list of the interpreter's own, and each entry of it is a pair of its own. -/
theorem IsTable.own {entries : List (Value × Value)} {table : Value} {p : PairId}
    (ht : L.IsTable h entries table) (hs : h.Suffix (.pair p) table) :
    L.own p ∧ ∀ entry, h.car p = .pair entry → L.own entry := by
  induction hs generalizing entries with
  | refl =>
    obtain _ | ⟨own, car, ownEntry, -, -⟩ := ht
    refine ⟨own, fun entry hentry => ?_⟩
    obtain rfl := Value.pair.inj (car.symm.trans hentry)
    exact ownEntry
  | cdr _ ih =>
    obtain _ | ⟨-, -, -, -, rest⟩ := ht
    exact ih rest

end Layout

/-! ## Interpreters in place -/

/-- Everything that an interpreter holds is where its layout puts it. -/
structure Interpreter.InPlace (L : Layout) (values : List Value) (s : Interpreter) : Prop where
  sound : Sound L s
  values : ∀ v ∈ values, L.Visible v
  operands : ∀ v ∈ s.machine.stack.items, L.Met s.image.heap v
  control : L.Chain s.image.heap s.machine.control
  env : L.Chain s.image.heap s.machine.env
  calls : ∀ env code exits, DumpEntry.call env code exits ∈ s.machine.dump.items →
    L.Chain s.image.heap env ∧ L.Chain s.image.heap code
  joins : ∀ code, DumpEntry.join code ∈ s.machine.dump.items → L.Chain s.image.heap code
  blocks : ∀ name stack env, Exit.block name stack env ∈ s.machine.exits.items →
    L.Chain s.image.heap env
  tagbodies : ∀ id table env dump stack bindings,
    Exit.tagbody id table env dump stack bindings ∈ s.machine.exits.items →
      (∃ entries, L.IsTable s.image.heap entries table) ∧ L.Chain s.image.heap env

section

variable {L : Layout} {s : Interpreter} {values : List Value}

/-- By induction on how a program gets hold of the value. What is in a slot or in a symbol is
    visible, and so are the components of what is visible. -/
theorem Interpreter.InPlace.met (hs : InPlace L values s) {v : Value} (hv : s.Sees values v) :
    L.Met s.image.heap v := by
  induction hv with
  | given mem => exact .visible (hs.values _ mem)
  | operand mem => exact hs.operands _ mem
  | slot mem => exact .visible (hs.sound.fits.visible _ _ mem)
  | value eq => exact .visible (hs.sound.values _ _ eq)
  | saved mem eq => exact .visible (hs.sound.bindings _ mem _ eq)
  | @car id _ ih =>
    obtain visible | _ := ih
    exact .visible (hs.sound.fits.data id visible).2.1
  | @cdr id _ ih =>
    obtain visible | _ := ih
    exact .visible (hs.sound.fits.data id visible).2.2

/-- A closure that programs have is one that was made for them, or one on the stack whose frame is
    still to be filled. -/
theorem Interpreter.InPlace.closure (hs : InPlace L values s) {id : PairId}
    (hid : s.Sees values (.closure id)) :
    L.own id ∧ L.Chain s.image.heap (s.image.heap.cdr id) := by
  obtain visible | ⟨own, isEnv⟩ := hs.met hid
  · obtain ⟨own, f, n, env, -, -, isEnv⟩ := hs.sound.fits.closure id visible
    exact ⟨own, isEnv.chain⟩
  · exact ⟨own, isEnv.chain⟩

/-- Whatever list the interpreter has at hand is its own. -/
theorem Interpreter.InPlace.chain (hs : InPlace L values s) {c : Value} (hc : s.Holds values c) :
    L.Chain s.image.heap c := by
  cases hc with
  | control => exact hs.control
  | env => exact hs.env
  | function known => exact (hs.sound.bodies _ known).elim fun _ h => h.2.chain
  | caller mem => exact (hs.calls _ _ _ mem).2
  | callerEnv mem => exact (hs.calls _ _ _ mem).1
  | join mem => exact hs.joins _ mem
  | block mem => exact hs.blocks _ _ _ mem
  | tagbody mem => exact (hs.tagbodies _ _ _ _ _ _ mem).2
  | closure seen => exact (hs.closure seen).2

/-- A table is met in the code, or at an exit that has been entered by it. -/
theorem Interpreter.InPlace.isTable (hs : InPlace L values s) {table : Value}
    (ht : s.TagTable table) : ∃ entries, L.IsTable s.image.heap entries table := by
  cases ht with
  | instruction instr => exact hs.sound.fits.isTable instr
  | entered mem => exact (hs.tagbodies _ _ _ _ _ _ mem).1

/-- Private pairs are not data. -/
theorem Interpreter.InPlace.not_data (hs : InPlace L values s) {p : PairId}
    (hp : s.Private values p) : ¬L.data p := by
  intro hd
  have hown := hs.sound.fits.apart p hd
  cases hp with
  | list held tail => exact hown ((hs.chain held).own tail)
  | instruction op among => exact hown ((hs.sound.fits.instructions _ _ op).among among)
  | table isTable tail => exact (hs.isTable isTable).elim fun _ ht => hown (ht.own tail).1
  | entry isTable tail car => exact (hs.isTable isTable).elim fun _ ht => hown ((ht.own tail).2 _ car)
  | environment car =>
    have hcar := (hs.sound.fits.data p hd).2.1
    rw [car] at hcar
    exact hcar
  | closure seen => exact hown (hs.closure seen).1

/-- What programs see is data, and what is private is not. -/
theorem Interpreter.InPlace.separate (hs : InPlace L values s) : s.Separate values where
  proper _ hv := (hs.met hv).isProper
  apart id hseen hprivate := by
    obtain visible | _ := hs.met hseen
    exact hs.not_data hprivate visible

end

/-! ## Runs and sessions -/

section

variable {n : Nat} {L : Layout} {rest : List SavedValue} {K : Trail} {s : Interpreter}

/-- Operands on the stack are visible, but for the closure of a `letrec`. -/
theorem Operate.met {h : Heap} {st : List Slot} {vs : List Value} {fs : List (FrameId × Nat)}
    (ho : Operate L h st vs fs) : ∀ v ∈ vs, L.Met h v := by
  induction ho with
  | nil => exact nofun
  | value visible _ ih => exact List.forall_mem_cons.2 ⟨.visible visible, ih⟩
  | pending own _ _ environment isEnv _ _ ih =>
    exact List.forall_mem_cons.2 ⟨.closure own (environment ▸ isEnv), ih⟩

/-- The operands of all levels, one after the other. -/
theorem Trail.Valid.met {h : Heap} : ∀ {K : Trail}, K.Valid L h → ∀ v ∈ K.operands, L.Met h v
  | [], _ => nofun
  | _ :: _, ⟨hl, hK⟩ => List.forall_mem_append.2 ⟨hl.operands.met, hK.met⟩

/-- The continuation of a call is code that the level below is in, with the environment of that
    level. -/
theorem Trail.Valid.calls {h : Heap} (r : Nat) {env code : Value} {exits : Nat} :
    ∀ {K : Trail}, K.Valid L h → DumpEntry.call env code exits ∈ K.dump r →
      L.Chain h env ∧ L.Chain h code
  | [], _, hm => by cases hm
  | l :: K, ⟨hl, hK⟩, hm => by
    cases hk : l.kind with
    | call =>
      simp only [Trail.dump, hk, List.mem_cons, DumpEntry.call.injEq] at hm
      rcases hm with ⟨rfl, rfl, -⟩ | hm
      · exact ⟨hl.outer.chain, hl.code.chain⟩
      · exact hK.calls r hm
    | _ => exact hK.calls r (by simpa [Trail.dump, hk] using hm)

/-- The continuation of a branch is code as well. -/
theorem Trail.Valid.joins {h : Heap} (r : Nat) {code : Value} :
    ∀ {K : Trail}, K.Valid L h → DumpEntry.join code ∈ K.dump r → L.Chain h code
  | [], _, hm => by cases hm
  | l :: K, ⟨hl, hK⟩, hm => by
    cases hk : l.kind with
    | join =>
      simp only [Trail.dump, hk, List.mem_cons, DumpEntry.join.injEq] at hm
      rcases hm with rfl | hm
      · exact hl.code.chain
      · exact hK.joins r hm
    | _ => exact hK.joins r (by simpa [Trail.dump, hk] using hm)

/-- A block is left into the environment it was entered in. -/
theorem Trail.Valid.blocks {h : Heap} (r : Nat) {name env : Value} {stack : Nat} :
    ∀ {K : Trail}, K.Valid L h → Exit.block name stack env ∈ K.exits r →
      L.Chain h env
  | [], _, hm => by cases hm
  | l :: K, ⟨hl, hK⟩, hm => by
    cases hk : l.kind with
    | block entered =>
      simp only [Trail.exits, hk, List.mem_cons, Exit.block.injEq] at hm
      rcases hm with ⟨-, -, rfl⟩ | hm
      · exact hl.outer.chain
      · exact hK.blocks r hm
    | _ => exact hK.blocks r (by simpa [Trail.exits, hk] using hm)

/-- So is a tagbody, whose table was found in its code. -/
theorem Trail.Valid.tagbodies {h : Heap} (r : Nat) {id table env : Value} {dump stack bindings : Nat} :
    ∀ {K : Trail}, K.Valid L h → Exit.tagbody id table env dump stack bindings ∈ K.exits r →
      (∃ entries, L.IsTable h entries table) ∧ L.Chain h env
  | [], _, hm => by cases hm
  | l :: K, ⟨hl, hK⟩, hm => by
    cases hk : l.kind with
    | tagbody entered entries =>
      simp only [Trail.exits, hk, List.mem_cons, Exit.tagbody.injEq] at hm
      rcases hm with ⟨-, rfl, rfl, -⟩ | hm
      · obtain ⟨es, -, isTable, -⟩ := hl.targets entered _ hk
        exact ⟨⟨es, isTable⟩, hl.outer.chain⟩
      · exact hK.tagbodies r hm
    | _ => exact hK.tagbodies r (by simpa [Trail.exits, hk] using hm)

/-- Between two instructions, the levels of the run account for everything in the registers. -/
theorem Inside.inPlace {env : List FrameShape} {st : List Slot} (hi : Inside n L rest K env st s)
    (hcontrol : L.Chain s.image.heap s.machine.control) : InPlace L [] s where
  sound := hi.sound
  values := nofun
  operands := by
    obtain ⟨vs, fs, operate, stack, -⟩ := hi.operands
    rw [stack]
    exact List.forall_mem_append.2 ⟨operate.met, hi.valid.met⟩
  control := hcontrol
  env := hi.isEnv.chain
  calls _ _ _ hm := hi.valid.calls _ (hi.dump ▸ hm)
  joins _ hm := hi.valid.joins _ (hi.dump ▸ hm)
  blocks _ _ _ hm := hi.valid.blocks _ (hi.exits ▸ hm)
  tagbodies _ _ _ _ _ _ hm := hi.valid.tagbodies _ (hi.exits ▸ hm)

/-- At every moment of a run in order, code and data are apart. -/
theorem Flows.separate {flow : Flow} (hf : Flows n L rest K flow s) : s.Separate [] := by
  obtain ⟨env, st, hi, hbody⟩ := hf.inside
  refine (hi.inPlace ?_).separate
  rcases hbody with rfl | hbody
  · cases flow with
    | next =>
      rcases hf with ⟨-, code⟩ | ⟨-, instr, -, next⟩
      · exact code.chain
      · exact instr.chain next.chain
    | stop =>
      obtain ⟨-, -, control, -⟩ := hf
      rw [control]
      exact .nil
    | request r => exact hf.elim fun _ ⟨_, _, code⟩ => code.chain
  · cases hbody with
    | code code => exact code.chain
    | load instr next => exact instr.chain next.chain

end

namespace Session

variable {L : Layout} {session : Session}

/-- Between two commands, the registers are empty. -/
theorem Idle.separate (hi : session.Idle L) :
    session.interpreter.Separate session.values := by
  -- Between commands all registers are empty, so only the values the session keeps are left to be
  -- told apart from code.
  have hstack : session.interpreter.machine.stack.items = [] :=
    congrArg (fun r : Registers => r.stack.items) hi.registers
  have hdump : session.interpreter.machine.dump.items = [] :=
    congrArg (fun r : Registers => r.dump.items) hi.registers
  have hexits : session.interpreter.machine.exits.items = [] :=
    congrArg (fun r : Registers => r.exits.items) hi.registers
  have hcontrol : session.interpreter.machine.control = .nil := congrArg Registers.control hi.registers
  have henv : session.interpreter.machine.env = .nil := congrArg Registers.env hi.registers
  exact InPlace.separate
    { sound := hi.orderly.sound
      values := hi.orderly.values
      operands := by simp [hstack]
      control := hcontrol ▸ .nil
      env := henv ▸ .nil
      calls := by simp [hdump]
      joins := by simp [hdump]
      blocks := by simp [hexits]
      tagbodies := by simp [hexits] }

/-- Code and data never mix: in every session, whatever its settings and its commands, they are
    apart at every moment of every run, and after the last command, when also the values of the
    session are apart from all code. -/
theorem separate_run (config : Config) (level : LogLevel) (commands : List Command) :
    (run (.watched fun _ _ s => s.Separate []) config level commands =
        run .plain config level commands ∧
      (run (.watched fun _ _ s => s.Separate []) config level commands).BreaksNoRule) ∧
    (run .plain config level commands).interpreter.Separate
      (run .plain config level commands).values := by
  refine ⟨run_of_flows (fun _ hf => hf.separate) config level commands, ?_⟩
  obtain ⟨L, hi⟩ := idle_start config level
  obtain ⟨L', hi'⟩ := hi.performAll Engine.plain_inOrder commands
  exact hi'.separate

end Session

end StackLisp
