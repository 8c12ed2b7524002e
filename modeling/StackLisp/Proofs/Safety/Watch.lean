import StackLisp.Proofs.Safety.Noted

/-!
# Watching runs

`Engine.watched P` is the compiler and the machine, where `P` is checked at every
moment of every run. Beside what comes next and the interpreter, a check sees how the
interpreter was when each of the active exits was entered. These entries are notes on
the run (`Engine.watched_eq_noted`).

Checks do nothing else: without anything to check, this is the plain engine
(`Engine.watched_true`). What holds at every moment of a run in order can be checked
without ever breaking a rule (`Engine.watched_inOrder`).
-/

namespace StackLisp

open Interpreter Layout Machine Compiler

/-- A property of a moment of a run: how the interpreter was when each active exit was
    entered, the innermost first, then what comes next, and the interpreter. -/
abbrev Watch := List Interpreter → Flow → Interpreter → Prop

/-- The entries of the active exits, after the run has gone on to `s`. -/
def entriesAfter (entries : List Interpreter) (s : Interpreter) : List Interpreter :=
  if entries.length < s.machine.exits.height then
    s :: entries
  else
    entries.drop (entries.length - s.machine.exits.height)

/-- Stops unless a property holds. -/
noncomputable def check (P : Watch) (entries : List Interpreter) (flow : Flow) : LispM Unit :=
  ensure (P entries flow)

mutual

/-- Compiles a form in front of a continuation. -/
noncomputable def watchedCompile (P : Watch) : Nat → CompileRule
  | 0, _, _, _ => throw .endless
  | fuel + 1, form, env, cont =>
    compileForm (watchedCompile P fuel) (expandMacro (watchedRun P fuel [] .next)) form env cont

/-- Runs the machine until it stops. -/
noncomputable def watchedRun (P : Watch) : Nat → List Interpreter → Flow → LispM Unit
  | 0, _, _ => throw .endless
  | fuel + 1, entries, flow => do
    check P entries flow
    match flow with
    | .stop => pure ()
    | .next => do
      let flow ← step
      watchedRun P fuel (entriesAfter entries (← get)) flow
    | .request r => do
      let flow ← serve (watchedCompile P fuel) (watchedRun P fuel [] .next) fuel r
      watchedRun P fuel (entriesAfter entries (← get)) flow

end

/-- The compiler and the machine, checking a property at every moment. -/
noncomputable def Engine.watched (P : Watch) : Engine :=
  ⟨watchedCompile P, fun fuel => watchedRun P fuel [] .next⟩

/-- A check of what holds passes. -/
theorem check_of_holds {P : Watch} {entries : List Interpreter} {flow : Flow} {s : Interpreter}
    (hP : P entries flow s) : check P entries flow s = .ok () s := if_pos hP

/-- Without anything to check, the compiler and the machine are as they are. -/
theorem watched_true (fuel : Nat) :
    watchedCompile (fun _ _ _ => True) fuel = compileFrom fuel ∧
      ∀ entries flow, watchedRun (fun _ _ _ => True) fuel entries flow = runFrom fuel flow := by
  have hcheck (entries : List Interpreter) (flow : Flow) :
      check (fun _ _ _ => True) entries flow = pure () := by
    funext s
    exact check_of_holds trivial
  -- The induction is on the fuel. As the check always passes, the two definitions are the same,
  -- case by case.
  induction fuel with
  | zero =>
    refine ⟨?_, fun entries flow => ?_⟩
    · funext form env cont
      rw [watchedCompile, compileFrom]
    · rw [watchedRun, runFrom]
  | succ fuel ih =>
    obtain ⟨hcompile, hrun⟩ := ih
    refine ⟨?_, fun entries flow => ?_⟩
    · funext form env cont
      rw [watchedCompile, compileFrom, hcompile, hrun]
    · cases flow with
      | stop => simp only [watchedRun, runFrom, hcheck, pure_bind]
      | next =>
        simp only [watchedRun, runFrom, hcheck, pure_bind, hrun]
        rfl
      | request r =>
        simp only [watchedRun, runFrom, hcheck, pure_bind, hrun, hcompile]
        rfl

/-- Without anything to check, a watched engine is the plain one. -/
theorem Engine.watched_true : watched (fun _ _ _ => True) = plain := by
  unfold watched plain
  congr
  · funext fuel
    exact (StackLisp.watched_true fuel).1
  · funext fuel
    exact (StackLisp.watched_true fuel).2 [] .next

/-! ## What comes next -/

/-- The operands at the head of a stream, and what follows. -/
def Heap.operandsAt (h : Heap) : Nat → Value → Option (List Value × Value)
  | 0, c => some ([], c)
  | n + 1, .pair id => (h.operandsAt n (h.cdr id)).map fun (vs, k) => (h.car id :: vs, k)
  | _, _ => none

/-- The instruction at the head of a stream, its operands, and what follows. -/
def Heap.instruction? (h : Heap) (c : Value) : Option (Opcode × List Value × Value) :=
  match c with
  | .pair id =>
    match h.car id with
    | .op code => (h.operandsAt code.operandCount (h.cdr id)).map fun (vs, k) => (code, vs, k)
    | _ => none
  | _ => none

/-! ## The entries of a trail -/

/-- Code inside of constructs, or such code after the load that goes with a dummy frame. -/
inductive Layout.Body (L : Layout) (h : Heap) (ctx : List Item) (c : Value) : Prop
  | code {b : Base} {env : List FrameShape} {st : List Slot} (code : L.Code h b env st ctx c)
  | load {b : Base} {env : List FrameShape} {st : List Slot} {f : FunctionId} {k : Value}
      (instr : L.Instr h .ldf [.function f] c k) (next : L.Code h b env st ctx k)

/-- Whether a level is an exit. -/
def LevelKind.isExit : LevelKind → Bool
  | block _ | tagbody _ _ => true
  | _ => false

/-- The interpreters at the moments when the exits of a trail were entered. -/
inductive EntriesOf (L : Layout) (h : Heap) (rest : List SavedValue) :
    Trail → List Interpreter → Prop
  | nil : EntriesOf L h rest [] []
  | other {l : Level} {K : Trail} {entries : List Interpreter} (kind : l.kind.isExit = false)
      (outer : EntriesOf L h rest K entries) : EntriesOf L h rest (l :: K) entries
  | exit {l : Level} {K : Trail} {entry : Interpreter} {entries : List Interpreter}
      (kind : l.kind.isExit = true) (dump : entry.machine.dump.items = K.dump rest.length)
      (bindings : entry.machine.bindings.items = K.saved ++ rest)
      (body : L.Body h (Trail.context (l :: K)) entry.machine.control)
      (outer : EntriesOf L h rest K entries) : EntriesOf L h rest (l :: K) (entry :: entries)

section

variable {n : Nat} {L L' : Layout} {h h' : Heap} {rest : List SavedValue} {K K' : Trail}
  {entries : List Interpreter} {s s' : Interpreter} {flow : Flow}

/-- The code of a body stays in order. -/
theorem Layout.Body.grows {ctx : List Item} {c : Value} (hb : L.Body h ctx c)
    (g : Grows n L h L' h') : L'.Body h' ctx c := by
  cases hb with
  | code code => exact .code (code.grows g)
  | load instr next => exact .load (instr.grows g (by decide)) (next.grows g)

/-- A level adds one exit, if it has one. -/
theorem Trail.length_exits_cons (r : Nat) (l : Level) (K : Trail) :
    (Trail.exits r (l :: K)).length = (K.exits r).length + if l.kind.isExit then 1 else 0 := by
  cases hk : l.kind <;> simp [Trail.exits, hk, LevelKind.isExit]

/-- There is an entry for each exit. -/
theorem EntriesOf.length (he : EntriesOf L h rest K entries) (r : Nat) :
    entries.length = (K.exits r).length := by
  induction he with
  | nil => rfl
  | other kind _ ih => simp [Trail.length_exits_cons, kind, ih]
  | exit kind _ _ _ _ ih => simp [Trail.length_exits_cons, kind, ih]

/-- Entries stay in order. -/
theorem EntriesOf.grows (he : EntriesOf L h rest K entries) (g : Grows n L h L' h') :
    EntriesOf L' h' rest K entries := by
  induction he with
  | nil => exact .nil
  | other kind _ ih => exact .other kind ih
  | exit kind dump bindings body _ ih => exact .exit kind dump bindings (body.grows g) ih

/-- The entries of a trail further out. -/
theorem EntriesOf.outward (he : EntriesOf L h rest K entries) (hs : K' <:+ K) (r : Nat) :
    EntriesOf L h rest K' (entries.drop (entries.length - (K'.exits r).length)) := by
  obtain ⟨pre, rfl⟩ := hs
  induction pre generalizing entries with
  | nil =>
    rw [he.length r, List.nil_append, Nat.sub_self]
    exact he
  | cons l pre ih =>
    cases he with
    | other _ outer => exact ih outer
    | @exit _ _ entry entries _ _ _ _ outer =>
      have hle : (Trail.exits r K').length ≤ entries.length := by
        rw [outer.length r]
        exact (Trail.exits_suffix r (List.suffix_append pre K')).length_le
      rw [List.length_cons, Nat.succ_sub hle]
      exact ih outer

/-- At every moment of a run, the machine is at the end of the trail, inside of its
    constructs. -/
theorem Flows.inside (hf : Flows n L rest K flow s) :
    ∃ env st, Inside n L rest K env st s ∧
      (K = [] ∨ L.Body s.image.heap K.context s.machine.control) := by
  cases flow with
  | next =>
    rcases hf with ⟨inside, code⟩ | ⟨loading, instr, -, next⟩
    · exact ⟨_, _, inside, .inr (.code code)⟩
    · exact ⟨_, _, loading.inside, .inr (.load instr next)⟩
  | stop =>
    obtain ⟨env, rfl, -, hi⟩ := hf
    exact ⟨env, _, hi, .inl rfl⟩
  | request r =>
    obtain ⟨env, st, hy, hcode⟩ := hf
    have hi : ∃ st, Inside n L rest K env st s := by
      cases r with
      | call argc mode => exact ⟨_, hy.1⟩
      | _ => exact ⟨_, hy.2⟩
    obtain ⟨st', hi⟩ := hi
    exact ⟨env, st', hi, .inr (.code hcode)⟩

/-- What running on does to the entries. -/
theorem EntriesOf.after (he : EntriesOf L s.image.heap rest K entries) (hK : K.Follows K')
    (g : Goes n rest L s L' s') (hf : Flows n L' rest K' flow s') :
    EntriesOf L' s'.image.heap rest K' (entriesAfter entries s') := by
  obtain ⟨env, st, hi, hbody⟩ := hf.inside
  have he' := he.grows g.grows
  have hheight : s'.machine.exits.height = (K'.exits rest.length).length := by
    rw [s'.machine.exits.height_eq, hi.exits]
  unfold entriesAfter
  rw [hheight]
  -- ⟨l, rfl⟩ | The trail has become shorter, or it has one more level.
  rcases hK with hs | ⟨l, rfl⟩
  · have hle : (K'.exits rest.length).length ≤ entries.length := by
      rw [he.length rest.length]
      exact (Trail.exits_suffix _ hs).length_le
    rw [if_neg (Nat.not_lt.2 hle)]
    exact he'.outward hs rest.length
  · rw [Trail.length_exits_cons, ← he.length rest.length]
    cases hk : l.kind.isExit with
    | false =>
      simp only [Bool.false_eq_true, if_false, Nat.add_zero, Nat.lt_irrefl, Nat.sub_self,
        List.drop_zero]
      exact .other hk he'
    | true =>
      rw [if_pos rfl, if_pos (Nat.lt_succ_self _)]
      have hdump : Trail.dump rest.length (l :: K) = K.dump rest.length := by
        cases hkind : l.kind <;> simp [hkind, LevelKind.isExit, Trail.dump] at hk ⊢
      have hsaved : Trail.saved (l :: K) = K.saved := by
        cases hkind : l.kind <;> simp [hkind, LevelKind.isExit, Trail.saved] at hk ⊢
      exact .exit hk (hdump ▸ hi.dump) (hsaved ▸ hi.bindings) (hbody.resolve_left (by simp)) he'

end

/-! ## Checks that never fail -/

/-- The entries of the active exits, as notes on a run. -/
def entryNotes : Notes (List Interpreter) := ⟨[], fun entries _ _ s' => entriesAfter entries s'⟩

/-- The notes of entries are kept right from step to step. -/
theorem entryNotes_keep : entryNotes.Keep EntriesOf where
  start _ _ _ := .nil
  after he _ _ hK g hf' := he.after hK g hf'

/-- Watching is checking with the entries as notes. -/
theorem watched_eq_noted (P : Watch) (fuel : Nat) :
    watchedCompile P fuel = notedCompile entryNotes P fuel ∧
      ∀ entries flow, watchedRun P fuel entries flow = notedRun entryNotes P fuel entries flow := by
  -- The entries are notes that are brought up to date after every step.
  induction fuel with
  | zero =>
    refine ⟨?_, fun entries flow => ?_⟩
    · funext form env cont
      rw [watchedCompile, notedCompile]
    · rw [watchedRun, notedRun]
  | succ fuel ih =>
    obtain ⟨hcompile, hrun⟩ := ih
    refine ⟨?_, fun entries flow => ?_⟩
    · funext form env cont
      rw [watchedCompile, notedCompile, hcompile, hrun]
      rfl
    · cases flow with
      | stop =>
        rw [watchedRun, notedRun]
        rfl
      | next =>
        simp only [watchedRun, notedRun, hrun]
        rfl
      | request r =>
        simp only [watchedRun, notedRun, hrun, hcompile]
        rfl

/-- Watching a run is checking it with the notes of its entries. -/
theorem Engine.watched_eq_noted (P : Watch) : watched P = noted entryNotes P := by
  unfold watched noted
  congr
  · funext fuel
    exact (StackLisp.watched_eq_noted P fuel).1
  · funext fuel
    exact (StackLisp.watched_eq_noted P fuel).2 [] .next

/-- Runs that are watched for what holds at every moment are in order. -/
theorem Engine.watched_inOrder {P : Watch}
    (hP : ∀ {n : Nat} {L : Layout} {rest : List SavedValue} {K : Trail} {entries : List Interpreter}
      {flow : Flow} {s : Interpreter}, EntriesOf L s.image.heap rest K entries →
      Flows n L rest K flow s → P entries flow s) : (watched P).InOrder :=
  watched_eq_noted P ▸ noted_inOrder entryNotes_keep hP

end StackLisp
