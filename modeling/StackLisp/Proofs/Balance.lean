import StackLisp.Proofs.Binding

/-!
# Interpreters at rest

Between the forms that one evaluates, an interpreter is *at rest*: its registers are
empty, no dynamic binding is in force, and no symbol counts one
(`Interpreter.AtRest`). This is so however the forms end, in a value or in any
failure, and whatever they bind, also in nested evaluations and in the expansion of
macros (`Session.balanced_turns`).

Two facts are behind this. The compiler pairs the beginnings and the ends of
bindings, so a run that stops has ended its own, and a run that fails unwinds them
(`safe_eval`). And each symbol counts the bindings of it that are in force
(`SymbolTable.Counts`), as code only ever binds symbols that there are.
-/

namespace StackLisp

open Interpreter Layout Compiler Machine

/-- Nothing of a run is left. -/
structure Interpreter.AtRest (s : Interpreter) : Prop where
  stack : s.machine.stack.items = []
  env : s.machine.env = .nil
  control : s.machine.control = .nil
  dump : s.machine.dump.items = []
  exits : s.machine.exits.items = []
  bindings : s.machine.bindings.height = 0
  depths : ∀ id, (s.image.symbols.get id).bindingDepth = 0

/-! ## The values of symbols -/

/-- Compiles and runs a top-level form. -/
def Engine.eval (engine : Engine) (form : Value) : LispM Value := do
  let code ← compileToplevel (engine.compile horizon) form
  clearCounts
  Interpreter.execute (engine.run horizon) code []

/-- The plain engine evaluates as the interpreter does. -/
theorem Engine.eval_plain (form : Value) : plain.eval form = Interpreter.eval form := rfl

/-- The compiler and the machine with marks. -/
def Engine.marked (m : Marking) : Engine := ⟨markedCompile m, fun fuel => markedRun m fuel .next⟩

/-- However the evaluation of a form ends, every symbol has the value that it was last assigned
    outside of bindings, or its old one if there is none. The values assigned so are those marked
    by an evaluation that goes as the plain one does. -/
def Interpreter.GivesValuesBack (s : Interpreter) (form : Value) : Prop :=
  ∀ x : SymbolId, x.index < s.image.symbols.size →
    let marked := (Engine.marked (.assignments x)).eval form
    let back (t : Interpreter) := (t.image.symbols.get x).value =
      (t.assignedSince s).getLast?.or (s.image.symbols.get x).value
    Matches Relogged (marked s) (Interpreter.eval form s) ∧
      Leads marked s (fun _ t => back t) fun _ t => back t

/-- Clearing the counts touches neither symbols nor bindings. -/
theorem mild_clearCounts : Mild clearCounts := ⟨fun _ => ⟨rfl, rfl, rfl, rfl⟩⟩

/-- Engines whose parts are related evaluate in related ways. -/
theorem BindingCongruence.eval {𝓡 : ⦃α : Type⦄ → LispM α → LispM α → Prop} (h𝓡 : BindingCongruence 𝓡)
    (hc : Congruence 𝓡) (hclear : 𝓡 clearCounts clearCounts) (engine engine' : Engine)
    (hcompile : ∀ form env cont,
      𝓡 (engine.compile horizon form env cont) (engine'.compile horizon form env cont))
    (hrun : 𝓡 (engine.run horizon) (engine'.run horizon)) (form : Value) :
    𝓡 (engine.eval form) (engine'.eval form) := by
  refine h𝓡.bind (hc.compileToplevel hcompile form) fun code => ?_
  refine h𝓡.bind hclear fun _ => ?_
  exact h𝓡.execute hrun code []

section

variable {L : Layout} {s s' : Interpreter} {form : Value} {x : SymbolId}

/-- A failure that breaks no rule is no mismatch of bindings. -/
theorem Failure.Benign.noMismatch {e : Failure} (he : e.Benign) : e.NoMismatch := by
  rintro a b rfl
  exact he

/-- Evaluations that mark what they assign and plain ones go together. -/
theorem relogged_eval (x : SymbolId) (form : Value) :
    Together Relogged ((Engine.marked (.assignments x)).eval form) (Interpreter.eval form) := by
  rw [← Engine.eval_plain]
  exact relogged_machineCongruence.toBindingCongruence.eval relogged_machineCongruence.toCongruence
    (relogged_modifyMachine _) _ _ (relogged_assignments x horizon).1 ((relogged_assignments x horizon).2 .next) form

/-- Evaluating a form gives the values back. -/
theorem Sound.givesValuesBack (hs : Sound L s) (hform : L.Visible form)
    (hrest : s.machine.bindings.items = []) : s.GivesValuesBack form := by
  intro x hx marked back
  have hgoes : Matches Relogged (marked s) (Interpreter.eval form s) := (relogged_eval x form).run (.refl s)
  have hgives : Steady (GivesBack x) Failure.NoMismatch marked :=
    givesBack_bindingCongruence.eval givesBack_mildBindingCongruence.toMildCongruence.congruence
      (givesBack_steadiness.failsWith.mild mild_clearCounts) _ .plain (givesBack_marked horizon).1
      ((givesBack_marked horizon).2 .next) form
  have hback {t : Interpreter} (h : GivesBack x s t) (hb : t.machine.bindings = s.machine.bindings) : back t :=
    h.value_eq hrest (hb ▸ hrest) hx
  -- the plain evaluation leaves the bindings as they were, and so does the one that goes as it does
  refine ⟨hgoes, ((hgives.leads s).and (hgoes.leads (safe_eval hs hform))).mono ?_ ?_⟩
  · rintro v _ ⟨h, _, ⟨log⟩, L', e, -⟩
    exact hback h e.bindings
  · rintro e _ ⟨h, _, ⟨log⟩, he, L', e'⟩
    exact hback (h he.noMismatch) e'.bindings

end

/-! ## Evaluating forms one after the other -/

/-- Something to do with an interpreter. Values are named by their position, the latest first. -/
inductive Turn where
  /-- Reads the first form of a text. -/
  | read (text : String)
  /-- Makes a pair of two values. -/
  | cons (head tail : Nat)
  /-- Evaluates a form. -/
  | eval (form : Nat)

namespace Session

/-- Does what a turn says; nothing if it names what is not there. -/
def take (session : Session) : Turn → Session
  | .read text => session.perform .plain (.read text)
  | .cons i j => session.perform .plain (.cons i j)
  | .eval i =>
    match session.values[i]? with
    | some form => session.act (Interpreter.eval form) keepValue
    | none => session

/-- The interpreter is at rest, and gives the values of symbols back when it evaluates one of
    the forms. -/
structure Balanced (session : Session) : Prop where
  atRest : session.interpreter.AtRest
  values : ∀ form ∈ session.values, session.interpreter.GivesValuesBack form

/-- The session is in order, and nothing of a run is left. -/
structure Idle (L : Layout) (session : Session) : Prop where
  orderly : session.Orderly L
  registers : session.interpreter.machine.toRegisters = {}
  bindings : session.interpreter.machine.bindings = .empty

variable {L : Layout} {session : Session}

/-- An idle session is balanced. -/
theorem Idle.balanced (hi : session.Idle L) : session.Balanced where
  atRest := by
    have hcounts := hi.orderly.sound.counts.depth
    rw [hi.bindings] at hcounts
    refine ⟨?_, ?_, ?_, ?_, ?_, ?_, hcounts⟩
    all_goals first | rw [hi.registers] | rw [hi.bindings]
    all_goals rfl
  values form hform :=
    hi.orderly.sound.givesValuesBack (hi.orderly.values form hform) (by rw [hi.bindings]; rfl)

/-- Safe actions leave nothing of a run. -/
theorem Idle.act {α : Type} {x : LispM α} {keep : α → Session → Session}
    {post : Layout → α → Interpreter → Prop} (hi : session.Idle L)
    (hx : Safe Evolves L x session.interpreter post)
    (hkeep : ∀ {L' : Layout} {a : α} {s : Interpreter}, post L' a s →
      ({ session with interpreter := s } : Session).Orderly L' →
      (keep a { session with interpreter := s }).Orderly L')
    (hsame : ∀ a session, (keep a session).interpreter = session.interpreter) :
    ∃ L', (session.act x keep).Idle L' := by
  obtain ⟨L', -, ho⟩ := hi.orderly.act hx hkeep
  -- Whether it succeeds or fails, an action of a session evolves the interpreter, and so leaves the
  -- registers and the bindings.
  have hsame' : (session.act x keep).interpreter.machine.toRegisters =
        session.interpreter.machine.toRegisters ∧
      (session.act x keep).interpreter.machine.bindings = session.interpreter.machine.bindings := by
    unfold Safe Leads at hx
    unfold Session.act
    split at hx
    · next a s heq =>
      obtain ⟨_, e, -⟩ := hx
      simp only [heq, hsame]
      exact ⟨e.registers, e.bindings⟩
    · next f s heq =>
      obtain ⟨-, _, e⟩ := hx
      simp only [heq]
      exact ⟨e.registers, e.bindings⟩
  exact ⟨L', ho, hsame'.1.trans hi.registers, hsame'.2.trans hi.bindings⟩

/-- A session starts idle. -/
theorem idle_start (config : Config) (level : LogLevel) : ∃ L, (start config level).Idle L := by
  have hi : ({ interpreter := blank config level } : Session).Idle .blank :=
    ⟨⟨sound_blank config level, history_blank config level, nofun, nofun, nofun⟩, rfl, rfl⟩
  exact hi.act (safe_setUp hi.orderly.sound config) (fun _ ho => ho) fun _ _ => rfl

/-- Commands leave nothing of a run. -/
theorem Idle.perform (hi : session.Idle L) {engine : Engine} (he : engine.InOrder)
    (command : Command) : ∃ L', (session.perform engine command).Idle L' := by
  have ho := hi.orderly
  -- A command whose operands are missing does nothing. All others are actions on what the session
  -- has kept.
  cases command with
  | read text =>
    exact hi.act (safe_readOne ho.sound text) (fun hv ho => ho.keepValue hv) fun _ _ => rfl
  | cons i j =>
    simp only [Session.perform]
    split
    · next a d ha hd =>
      refine hi.act (safe_heap (P := fun L' v _ => L'.Visible v) ho.sound
        (safe_cons ho.sound.fits ?_ ?_)) (fun hv ho => ho.keepValue hv) fun _ _ => rfl
      · exact ho.values a (List.mem_of_getElem? ha)
      · exact ho.values d (List.mem_of_getElem? hd)
    · exact ⟨L, hi⟩
  | compile i fuel =>
    simp only [Session.perform]
    split
    · next form hform =>
      refine hi.act (safe_compileToplevel (he.compiles fuel) ho.sound ?_)
        (fun hc ho => ho.keepCode hc) fun _ _ => rfl
      exact ho.values form (List.mem_of_getElem? hform)
    · exact ⟨L, hi⟩
  | execute i fuel =>
    simp only [Session.perform]
    split
    · next code hcode =>
      refine hi.act (safe_executeCode (he.runs fuel) ho.sound ?_) (fun hv ho => ho.keepValue hv)
        fun _ _ => rfl
      exact ho.codes code (List.mem_of_getElem? hcode)
    · exact ⟨L, hi⟩

/-- A session is idle again after any commands. -/
theorem Idle.performAll (hi : session.Idle L) {engine : Engine} (he : engine.InOrder)
    (commands : List Command) : ∃ L', (commands.foldl (Session.perform engine) session).Idle L' := by
  induction commands generalizing L session with
  | nil => exact ⟨L, hi⟩
  | cons command commands ih =>
    obtain ⟨L', hi'⟩ := hi.perform he command
    exact ih hi'

/-- A session is idle again after any turn. -/
theorem Idle.take (hi : session.Idle L) (turn : Turn) : ∃ L', (session.take turn).Idle L' := by
  cases turn with
  | read text => exact hi.perform Engine.plain_inOrder (.read text)
  | cons i j => exact hi.perform Engine.plain_inOrder (.cons i j)
  | eval i =>
    simp only [Session.take]
    split
    · next form hform =>
      have hvisible := hi.orderly.values form (List.mem_of_getElem? hform)
      exact hi.act (safe_eval hi.orderly.sound hvisible) (fun hv ho => ho.keepValue hv)
        fun _ _ => rfl
    · exact ⟨L, hi⟩

/-- Dynamic bindings are always given back: after any number of forms that were evaluated in a
    new interpreter, whatever its settings and however their evaluations ended, the interpreter
    is at rest. -/
theorem balanced_turns (config : Config) (level : LogLevel) (turns : List Turn) :
    (turns.foldl take (start config level)).Balanced := by
  obtain ⟨L, hi⟩ := idle_start config level
  generalize start config level = session at hi
  induction turns generalizing L session with
  | nil => exact hi.balanced
  | cons turn turns ih =>
    obtain ⟨L', hi'⟩ := hi.take turn
    exact ih L' _ hi'

end Session

end StackLisp
