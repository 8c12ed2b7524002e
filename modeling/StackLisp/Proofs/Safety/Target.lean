import Mathlib.Data.List.Perm.Subperm
import StackLisp.Proofs.Safety.Snapshot

/-!
# The targets of exits

A `return-from` names a block and a `go` a tagbody, and several activations of it
may be active at that moment. Both go to the innermost of these, and to no other
(`exitsToInnermost`, `resumesInnermost`). So an exit from inside a closure reaches
the activation that the closure was made in if, and only if, no later one is active
(`return_from_misses_its_block`, `go_misses_its_tagbody`).
-/

namespace StackLisp

open Interpreter Layout Machine Compiler

/-- Of the targets of an exit, the innermost first, this one is reached and no other; the exit is
    late if there are none. -/
structure ReachesInnermost {α : Type} (targets : List α) (reaches : α → Prop) (late : Prop) : Prop where
  reached : ∀ (i : Nat) (target : α), targets[i]? = some target → (reaches target ↔ i = 0)
  late : targets = [] → late

/-- The innermost target is the only one that is reached, if targets further out have fewer exits
    below them, and the exit leaves only one number of these. -/
theorem reachesInnermost_of_head {α : Type} {targets : List α} {reaches : α → Prop} {late : Prop}
    {exits : α → Nat} (hexits : targets.Pairwise fun a b => exits b < exits a)
    (hunique : ∀ {a b : α}, reaches a → reaches b → exits b = exits a)
    (hhead : ∀ target ∈ targets.head?, reaches target) (hlate : targets = [] → late) :
    ReachesInnermost targets reaches late := by
  refine ⟨fun i target hi => ?_, hlate⟩
  cases targets with
  | nil => cases hi
  | cons first others =>
    have hfirst : reaches first := hhead first rfl
    cases i with
    | zero =>
      obtain rfl : first = target := Option.some.inj hi
      exact iff_of_true hfirst rfl
    | succ i =>
      refine iff_of_false (fun htarget => ?_) (Nat.succ_ne_zero i)
      have hlt := (List.pairwise_cons.1 hexits).1 target (List.mem_of_getElem? hi)
      rw [hunique hfirst htarget] at hlt
      exact Nat.lt_irrefl _ hlt

/-! ## Blocks -/

/-- The further out an active block is, the fewer exits are below it. -/
theorem activeBlocks_pairwise (name : Value) (exits : List Exit) (entries : List Interpreter) :
    (activeBlocks name exits entries).Pairwise (fun a b => b.below.length < a.below.length) ∧
      ∀ block ∈ activeBlocks name exits entries, block.below.length < exits.length := by
  fun_induction activeBlocks with
  | case1 stack env below entry entries ih =>
    refine ⟨List.pairwise_cons.2 ⟨ih.2, ih.1⟩, fun block hblock => ?_⟩
    rcases List.mem_cons.1 hblock with rfl | hblock
    · exact Nat.lt_succ_self _
    · exact Nat.lt_succ_of_lt (ih.2 block hblock)
  | case2 entered stack env below entry entries hname ih =>
    exact ⟨ih.1, fun block hblock => Nat.lt_succ_of_lt (ih.2 block hblock)⟩
  | case3 id table env dump stack bindings below entry entries ih =>
    exact ⟨ih.1, fun block hblock => Nat.lt_succ_of_lt (ih.2 block hblock)⟩
  | case4 => exact ⟨.nil, fun block hblock => absurd hblock List.not_mem_nil⟩

/-- An exit comes back to one block only. -/
theorem ActiveBlock.ExitsTo.below_eq {block other : ActiveBlock} {name v : Value} {s : Interpreter}
    (hblock : block.ExitsTo name v s) (hother : other.ExitsTo name v s) : other.below = block.below := by
  obtain ⟨N, hN⟩ := hblock
  obtain ⟨N', hN'⟩ := hother
  obtain ⟨s₁, h₁, hs₁⟩ := hN (max N N') (Nat.le_max_left ..)
  obtain ⟨s₂, h₂, hs₂⟩ := hN' (max N N') (Nat.le_max_right ..)
  obtain ⟨-, rfl⟩ := EStateM.Result.ok.inj (h₁.symm.trans h₂)
  rw [← hs₁.exits, ← hs₂.exits]

/-- Of the active blocks of its name, every `return-from` comes back to the innermost one and
    to no other; it is a late exit if there is none. -/
def exitsToInnermost : Watch
  | entries, .request (.returnFrom name v), s =>
    ReachesInnermost (activeBlocks name s.machine.exits.items entries)
      (fun block => block.ExitsTo name v s)
      (∃ N, ∀ fuel, N ≤ fuel → ∃ text s',
        exitBlock name v fuel 0 s = .error (.error (.fatal (.blockNotActive text))) s')
  | _, _, _ => True

theorem exitsToInnermost_of_flows {n : Nat} {L : Layout} {rest : List SavedValue} {K : Trail}
    {entries : List Interpreter} {flow : Flow} {s : Interpreter}
    (he : EntriesOf L s.image.heap rest K entries) (hf : Flows n L rest K flow s) :
    exitsToInnermost entries flow s := by
  have hrestores := exitsRestore_of_flows he hf
  match flow with
  | .request (.returnFrom name v) =>
    simp only [exitsRestore] at hrestores
    refine reachesInnermost_of_head (activeBlocks_pairwise name s.machine.exits.items entries).1
      (fun hblock hother => congrArg List.length (hblock.below_eq hother)) (fun block hblock => ?_)
      fun hnone => ?_
    · obtain ⟨others, hblocks⟩ := List.head?_eq_some_iff.1 hblock
      rwa [hblocks] at hrestores
    · rwa [hnone] at hrestores
  | .request (.call ..) | .request (.macroexpandOnce _) | .request (.macroexpand _)
  | .request (.eval _) | .next | .stop => trivial

/-- Whenever a session leaves a block by force, it leaves the innermost active block of that
    name, and no other one of that name. -/
theorem Session.exitsToInnermost_run (config : Config) (level : LogLevel) (commands : List Command) :
    run (.watched exitsToInnermost) config level commands = run .plain config level commands ∧
      (run (.watched exitsToInnermost) config level commands).BreaksNoRule :=
  run_of_flows exitsToInnermost_of_flows config level commands

/-- Evaluates the first form of a text, with some of the primitives. -/
def evalWith (names : List String) (text : String) : LispM Value := do
  (Primitive.library.filter fun d => names.contains d.name).forM fun d => do
    let _ ← Image.register d
  let form ← Image.readOne text
  let code ← compileToplevel (compileFrom 99) form
  Interpreter.execute (runFrom 99 .next) code []

/-- A `return-from` whose block is active leaves another one, which has been entered since. -/
theorem return_from_misses_its_block :
    Leads (evalWith ["block", "return-from", "funcall"]
        "(block b ((lambda (f) (block b (funcall f) 1)) (lambda () (return-from b 2))) 3)")
      (blank { heapCapacity := 999 } .off) (fun v _ => v = .int 3) fun _ _ => False := by
  decide +kernel

/-! ## Tagbodies -/

/-- A tagbody that is active: what its exit has kept, the interpreter right after its entry,
    and the exits that end in its own. -/
structure ActiveTagbody where
  table : Value
  env : Value
  stack : Nat
  entry : Interpreter
  exits : List Exit

/-- The active tagbodies of an identity, the innermost first. -/
def activeTagbodies (id : Value) : List Exit → List Interpreter → List ActiveTagbody
  | .tagbody entered table env dump stack bindings :: below, entry :: entries =>
    if entered = id then
      ⟨table, env, stack, entry, .tagbody entered table env dump stack bindings :: below⟩ ::
        activeTagbodies id below entries
    else
      activeTagbodies id below entries
  | .block .. :: below, _ :: entries => activeTagbodies id below entries
  | _, _ => []

/-- The interpreter `s'` is `s`, at a tag of an active tagbody. -/
structure ActiveTagbody.Resumes (tagbody : ActiveTagbody) (tag : Value) (s s' : Interpreter) : Prop where
  exits : s'.machine.exits.items = tagbody.exits
  stack : ∃ above kept, s.machine.stack.items = above ++ kept ∧ kept.length = tagbody.stack ∧
    s'.machine.stack.items = kept
  env : s'.machine.env = tagbody.env
  dump : s'.machine.dump.items = tagbody.entry.machine.dump.items
  bindings : s'.machine.bindings.items = tagbody.entry.machine.bindings.items
  /-- The value cells bound since the entry are put back, the latest first. -/
  cells : ∃ undone, s.machine.bindings.items = undone ++ tagbody.entry.machine.bindings.items ∧
    s'.image.symbols = s.image.symbols.restoreAll undone
  /-- The code is that of the tag. -/
  control : s.image.heap.lookup tag tagbody.table = .ok (some s'.machine.control)
  /-- Nothing else is changed. -/
  same : s' = { s with
    image.symbols := s'.image.symbols
    machine := { s.machine with
      stack := s'.machine.stack
      env := s'.machine.env
      control := s'.machine.control
      dump := s'.machine.dump
      exits := s'.machine.exits
      bindings := s'.machine.bindings } }

/-- Going to the tag resumes the tagbody. -/
def ActiveTagbody.GoesTo (tagbody : ActiveTagbody) (id tag : Value) (s : Interpreter) : Prop :=
  ∃ s', goTo id tag s = .ok () s' ∧ tagbody.Resumes tag s s'

/-- Of the active tagbodies of its identity, every `go` resumes the innermost one and no other; it
    is a late exit if there is none. -/
def resumesInnermost : Watch
  | entries, .next, s =>
    match s.image.heap.instruction? s.machine.control with
    | some (.go, [id, tag], _) =>
      ReachesInnermost (activeTagbodies id s.machine.exits.items entries)
        (fun tagbody => tagbody.GoesTo id tag s)
        (∃ text, goTo id tag s = .error (.error (.fatal (.tagbodyNotActive text))) s)
    | _ => True
  | _, _, _ => True

/-- The further out an active tagbody is, the fewer exits end in its own. -/
theorem activeTagbodies_pairwise (id : Value) (exits : List Exit) (entries : List Interpreter) :
    (activeTagbodies id exits entries).Pairwise (fun a b => b.exits.length < a.exits.length) ∧
      ∀ tagbody ∈ activeTagbodies id exits entries, tagbody.exits.length ≤ exits.length := by
  fun_induction activeTagbodies with
  | case1 table env dump stack bindings below entry entries ih =>
    refine ⟨List.pairwise_cons.2 ⟨fun tagbody h => Nat.lt_succ_of_le (ih.2 tagbody h), ih.1⟩,
      fun tagbody htagbody => ?_⟩
    rcases List.mem_cons.1 htagbody with rfl | htagbody
    · exact Nat.le_refl _
    · exact Nat.le_succ_of_le (ih.2 tagbody htagbody)
  | case2 entered table env dump stack bindings below entry entries hid ih =>
    exact ⟨ih.1, fun tagbody htagbody => Nat.le_succ_of_le (ih.2 tagbody htagbody)⟩
  | case3 name stack env below entry entries ih =>
    exact ⟨ih.1, fun tagbody htagbody => Nat.le_succ_of_le (ih.2 tagbody htagbody)⟩
  | case4 => exact ⟨.nil, fun tagbody htagbody => absurd htagbody List.not_mem_nil⟩

theorem ActiveTagbody.GoesTo.exits_eq {tagbody other : ActiveTagbody} {id tag : Value}
    {s : Interpreter} (htagbody : tagbody.GoesTo id tag s) (hother : other.GoesTo id tag s) :
    other.exits = tagbody.exits := by
  obtain ⟨s₁, h₁, hs₁⟩ := htagbody
  obtain ⟨s₂, h₂, hs₂⟩ := hother
  obtain ⟨-, rfl⟩ := EStateM.Result.ok.inj (h₁.symm.trans h₂)
  rw [← hs₁.exits, ← hs₂.exits]

/-! ### Looking up a tag -/

section

variable {L : Layout} {h : Heap}

/-- A table is as long as its pairs say. -/
theorem Layout.IsTable.length_eq {entries entries' : List (Value × Value)} {table : Value}
    (ht : L.IsTable h entries table) (ht' : L.IsTable h entries' table) :
    entries.length = entries'.length := by
  induction ht generalizing entries' with
  | nil =>
    cases ht'
    rfl
  | cons own car ownEntry plain rest ih =>
    cases ht' with
    | cons own' car' ownEntry' plain' rest' =>
      rw [List.length_cons, List.length_cons, ih rest']

/-- The pairs that a table goes through are different. -/
theorem Layout.IsTable.pairs {entries : List (Value × Value)} {table : Value}
    (ht : L.IsTable h entries table) : ∃ ids : List PairId, ids.length = entries.length ∧ ids.Nodup ∧
      ∀ id ∈ ids, L.own id ∧ ∃ entries', L.IsTable h entries' (.pair id) ∧
        entries'.length ≤ entries.length := by
  induction ht with
  | nil => exact ⟨[], rfl, .nil, nofun⟩
  | @cons id entry entries own car ownEntry plain rest ih =>
    obtain ⟨ids, hlen, hnodup, hids⟩ := ih
    refine ⟨id :: ids, by simp [hlen], List.nodup_cons.2 ⟨fun hmem => ?_, hnodup⟩, fun id' hid' => ?_⟩
    · -- A pair that came again would start a shorter table.
      obtain ⟨-, entries', ht', hle⟩ := hids id hmem
      have heq := (Layout.IsTable.cons own car ownEntry plain rest).length_eq ht'
      rw [List.length_cons] at heq
      omega
    · rcases List.mem_cons.1 hid' with rfl | hid'
      · exact ⟨own, _, .cons own car ownEntry plain rest, Nat.le_refl _⟩
      · obtain ⟨hown, entries', ht', hle⟩ := hids id' hid'
        exact ⟨hown, entries', ht', Nat.le_succ_of_le hle⟩

theorem Layout.IsTable.length_le {entries : List (Value × Value)} {table : Value}
    (ht : L.IsTable h entries table) (hL : L.Fits h) : entries.length ≤ h.pairCount := by
  obtain ⟨ids, hlen, hnodup, hids⟩ := ht.pairs
  have hsubset : ids.map PairId.index ⊆ List.range h.pairCount := by
    intro i hi
    obtain ⟨id, hid, rfl⟩ := List.mem_map.1 hi
    exact List.mem_range.2 (hL.own id (hids id hid).1)
  have hindex : (ids.map PairId.index).Nodup := by
    refine List.pairwise_map.2 (hnodup.imp fun {a b} hne heq => hne ?_)
    cases a
    cases b
    exact congrArg PairId.mk heq
  have hle := (List.subperm_of_subset hindex hsubset).length_le
  simpa [hlen] using hle

/-- A tag of a table is found there, if the walk is as long as the table. -/
theorem Layout.IsTable.lookupFrom_ok {entries : List (Value × Value)} {key table : Value}
    (ht : L.IsTable h entries table) (hk : key ∈ entries.map (·.1)) {fuel : Nat}
    (hfuel : entries.length ≤ fuel) :
    ∃ code, h.lookupFrom key fuel table = .ok (some code) ∧ (key, code) ∈ entries := by
  refine (ht.lookupFrom hk fuel).resolve_left fun hendless => ?_
  clear hk
  induction ht generalizing fuel with
  | nil => cases fuel <;> cases hendless
  | @cons id entry entries own car ownEntry plain rest ih =>
    cases fuel with
    | zero => exact absurd hfuel (Nat.not_succ_le_zero _)
    | succ fuel =>
      simp only [Heap.lookupFrom, car] at hendless
      split at hendless
      · cases hendless
      · exact ih (Nat.le_of_succ_le_succ hfuel) hendless

end

/-! ### Resuming a tagbody -/

section

variable {n : Nat} {L : Layout} {h : Heap} {rest : List SavedValue} {K : Trail}
  {entries : List Interpreter} {s : Interpreter}

/-- The exits that end in the innermost one of a tagbody, and the active tagbodies of that
    identity, as the innermost level of it says. -/
inductive InnermostTagbody (rest : List SavedValue) (id : SymbolId) (K : Trail) :
    List Exit → List ActiveTagbody → Prop
  | none : InnermostTagbody rest id K [] []
  | level {l : Level} {K' : Trail} {table : Value} {entry : Interpreter} {others : List ActiveTagbody}
      (suffix : l :: K' <:+ K) (kind : l.kind = .tagbody id table)
      (dump : entry.machine.dump.items = K'.dump rest.length)
      (bindings : entry.machine.bindings.items = K'.saved ++ rest) :
      InnermostTagbody rest id K (Trail.exits rest.length (l :: K'))
        (⟨table, l.outer, (Trail.operands (l :: K')).length, entry,
          Trail.exits rest.length (l :: K')⟩ :: others)

theorem InnermostTagbody.cons {id : SymbolId} {exits : List Exit} {tagbodies : List ActiveTagbody}
    (hK : InnermostTagbody rest id K exits tagbodies) (l : Level) :
    InnermostTagbody rest id (l :: K) exits tagbodies := by
  cases hK with
  | none => exact .none
  | level suffix kind dump bindings =>
    exact .level (suffix.trans (List.suffix_cons l K)) kind dump bindings

theorem EntriesOf.innermostTagbody (he : EntriesOf L h rest K entries) (id : SymbolId) :
    InnermostTagbody rest id K
      ((K.exits rest.length).drop ((K.exits rest.length).findIdx (isTagbody (.symbol id))))
      (activeTagbodies (.symbol id) (K.exits rest.length) entries) := by
  -- Outward through the levels: the first record of this `tagbody` is the one.
  induction he with
  | nil => exact .none
  | @other l K entries kind _ ih =>
    have hexits : Trail.exits rest.length (l :: K) = K.exits rest.length := by
      cases hk : l.kind <;> simp [hk, LevelKind.isExit, Trail.exits] at kind ⊢
    rw [hexits]
    exact ih.cons l
  | @exit l K entry entries kind dump bindings body _ ih =>
    cases hk : l.kind with
    | call | join | bind _ _ => simp [hk, LevelKind.isExit] at kind
    | block name =>
      simpa [Trail.exits, hk, List.findIdx_cons, isTagbody, activeTagbodies] using ih.cons l
    | tagbody id' table =>
      by_cases hid : id' = id
      · subst hid
        have hlevel : InnermostTagbody rest id' (l :: K) (Trail.exits rest.length (l :: K))
            (⟨table, l.outer, (Trail.operands (l :: K)).length, entry,
              Trail.exits rest.length (l :: K)⟩ ::
              activeTagbodies (.symbol id') (K.exits rest.length) entries) :=
          .level (List.suffix_refl _) hk dump bindings
        simpa [Trail.exits, hk, List.findIdx_cons, isTagbody, activeTagbodies] using hlevel
      · simpa [Trail.exits, hk, List.findIdx_cons, isTagbody, activeTagbodies, hid] using ih.cons l

/-- Going to a tag resumes the innermost active tagbody. -/
theorem InnermostTagbody.goTo {env : List FrameShape} {st : List Slot} {id : SymbolId} {exits : List Exit}
    {tagbodies : List ActiveTagbody} (hK : InnermostTagbody rest id K exits tagbodies)
    (hi : Inside n L rest K env st s)
    (hexits : (s.machine.exits.dropUntil (isTagbody (.symbol id))).items = exits) {tag : Value}
    {ts : List Value} (htags : L.tags id = some ts) (hmem : tag ∈ ts) :
    (∀ tagbody ∈ tagbodies.head?, tagbody.GoesTo (.symbol id) tag s) ∧
      (tagbodies = [] → ∃ text, Machine.goTo (.symbol id) tag s =
        .error (.error (.fatal (.tagbodyNotActive text))) s) := by
  cases hK with
  -- Without a record on the exits, the machine reports a late exit.
  | none =>
    refine ⟨fun tagbody htagbody => absurd htagbody (Option.not_mem_none tagbody), fun _ => ?_⟩
    -- The record is the one of the level, and what it keeps are the depths of the trail below.
    have htop : (s.machine.exits.dropUntil (isTagbody (.symbol id))).top? = Option.none := by
      simp [Stack.top?, hexits]
    refine ⟨s.image.print tag, ?_⟩
    simp only [Machine.goTo, bind, EStateM.bind, view, htop]
    rfl
  | @level l K' table entry others suffix kind dump bindings =>
    refine ⟨?_, fun hnil => absurd hnil (List.cons_ne_nil _ others)⟩
    intro tagbody htagbody
    obtain rfl := Option.some.inj htagbody
    have hw := hi.walks
    have hK' : K' <:+ K := (List.suffix_cons l K').trans suffix
    obtain ⟨hlevel, -⟩ := hi.valid.suffix suffix
    -- The table of the record has the tags that the layout knows, so the tag is found in it.
    obtain ⟨tags, hentries, htable, -⟩ := hlevel.targets id table kind
    obtain rfl : ts = tags.map (·.1) := Option.some.inj (htags.symm.trans hentries)
    obtain ⟨code, hlookup, -⟩ := htable.lookupFrom_ok hmem (Nat.le_succ_of_le (htable.length_le hi.sound.fits))
    have htop : (s.machine.exits.dropUntil (isTagbody (.symbol id))).top? =
        some (.tagbody (.symbol id) table l.outer K'.depth (Trail.operands (l :: K')).length
          (K'.saved.length + rest.length)) := by
      simp [Stack.top?, hexits, Trail.exits, kind]
    obtain ⟨pre, hsaved⟩ := Trail.saved_suffix hK'
    have hitems : s.machine.bindings.items = pre ++ (K'.saved ++ rest) := by
      rw [hw.bindings, ← hsaved, List.append_assoc]
    -- Unwinding the bindings to that depth undoes just those made since.
    have hunwind := unwindBindings_eq (s := { s with
      machine := { s.machine with
        exits := s.machine.exits.dropUntil (isTagbody (.symbol id))
        env := l.outer
        dump := s.machine.dump.truncate K'.depth
        stack := s.machine.stack.truncate (Trail.operands (l :: K')).length
        control := code } }) hitems
    rw [List.length_append] at hunwind
    obtain ⟨above, habove⟩ := (Trail.operands_suffix suffix).trans hw.operands
    refine ⟨_, Eq.trans ?_ hunwind, hexits, ⟨above, _, habove.symm, rfl, ?_⟩, rfl, ?_, ?_,
      ⟨pre, bindings ▸ hitems, rfl⟩, hlookup, rfl⟩
    · simp only [Machine.goTo, bind, EStateM.bind, view, htop, walk, Heap.lookup, hlookup,
        modifyMachine_apply]
    · exact Stack.items_truncate ⟨above, habove⟩
    · have htrunc := Stack.items_truncate (s := s.machine.dump)
        (hw.dump ▸ Trail.dump_suffix rest.length hK')
      rw [Trail.length_dump] at htrunc
      exact htrunc.trans dump.symm
    · rw [← List.length_append, bindings]
      exact Stack.items_truncate ⟨pre, hitems.symm⟩

/-- Code that starts with a `go` names a tagbody and one of its tags. -/
theorem Layout.Code.go_inv {b : Base} {env : List FrameShape} {st : List Slot} {ctx : List Item}
    {c id tag k : Value} (hc : L.Code h b env st ctx c)
    (hgo : h.instruction? c = some (.go, [id, tag], k)) :
    ∃ (id' : SymbolId) (ts : List Value), id = .symbol id' ∧ L.tags id' = some ts ∧ tag ∈ ts := by
  induction hc with
  | reached _ ih => exact ih hgo
  | @go _ _ _ _ _ _ _ id' ts instr tags mem =>
    have hinstr := (instr.instruction? rfl).symm.trans hgo
    simp only [Option.some.injEq, Prod.mk.injEq, List.cons.injEq, true_and, and_true] at hinstr
    obtain ⟨⟨rfl, rfl⟩, -⟩ := hinstr
    exact ⟨id', ts, rfl, tags, mem⟩
  | ldc instr | ld instr | ldr instr | ldg instr | gfn instr | setl instr | setlr instr | setg instr
  | ldf instr | ap instr | tap instr | rap instr | dum instr | rtn instr | sel instr | tsel instr
  | join instr | pop instr | callp instr | bind instr | unbind instr | block instr | blockend instr
  | retfrom instr | tagbody instr | tagend instr | stop instr => simp [instr.instruction? rfl] at hgo

theorem resumesInnermost_of_flows {flow : Flow} (he : EntriesOf L s.image.heap rest K entries)
    (hf : Flows n L rest K flow s) : resumesInnermost entries flow s := by
  cases flow with
  | next =>
    simp only [resumesInnermost]
    split
    · next id tag k hgo =>
      rcases hf with ⟨hi, hcode⟩ | ⟨-, instr, -, -⟩
      · obtain ⟨id, ts, rfl, htags, hmem⟩ := hcode.go_inv hgo
        have hexits : (s.machine.exits.dropUntil (isTagbody (.symbol id))).items =
            (K.exits rest.length).drop ((K.exits rest.length).findIdx (isTagbody (.symbol id))) := by
          simp [Stack.dropUntil, hi.exits]
        obtain ⟨hresumes, hlate⟩ := (he.innermostTagbody id).goTo hi hexits htags hmem
        rw [hi.exits]
        exact reachesInnermost_of_head
          (activeTagbodies_pairwise (.symbol id) (K.exits rest.length) entries).1
          (fun htagbody hother => congrArg List.length (htagbody.exits_eq hother)) hresumes hlate
      · simp [instr.instruction? rfl] at hgo
    · trivial
  | stop | request _ => trivial

end

/-- Whenever a session goes to a tag, it resumes the innermost active tagbody of that identity,
    and no other one. -/
theorem Session.resumesInnermost_run (config : Config) (level : LogLevel) (commands : List Command) :
    run (.watched resumesInnermost) config level commands = run .plain config level commands ∧
      (run (.watched resumesInnermost) config level commands).BreaksNoRule :=
  run_of_flows resumesInnermost_of_flows config level commands

/-- A `go` whose tagbody is active resumes a later activation of it, which lets the earlier one go
    on, and assigns `x` there. -/
theorem go_misses_its_tagbody :
    Leads (evalWith ["tagbody", "go", "funcall"]
        "(letrec ((f (lambda (k) (tagbody (if k (funcall k) (funcall f (lambda () (go a)))) (setq x 1) a)))) (funcall f nil))")
      (blank { heapCapacity := 999 } .off)
      (fun _ s => (s.image.symbols.find? "x").bind (fun x => (s.image.symbols.get x).value) = some (.int 1))
      fun _ _ => False := by
  decide +kernel

end StackLisp
