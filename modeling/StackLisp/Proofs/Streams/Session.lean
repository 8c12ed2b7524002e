import StackLisp.Proofs.Streams.Run
import StackLisp.Proofs.Text.Fault

/-!
# Code stays in sessions

Every command of a session keeps what lasts (`Maintains`), also when it fails: reading makes pairs
and meets symbols, and compiling and running have been looked at before. The functions of an
interpreter that has just started have bodies (`Session.bodied_start`), because what the prelude
evaluates goes as if it were observed. So what lasts is kept in all observed sessions
(`Session.observed_lasts`).
-/

namespace StackLisp

open Interpreter Machine Compiler

variable {α β : Type} {K : Interpreter → Interpreter → Prop}

/-- The action keeps what lasts and the bodies of functions, whether or not it fails. -/
def Maintains (K : Interpreter → Interpreter → Prop) (x : LispM α) (s : Interpreter) : Prop :=
  s.Bodied → Leads x s (fun _ s' => K s s' ∧ s'.Bodied) fun _ s' => K s s' ∧ s'.Bodied

section

variable {s : Interpreter} {x : LispM α} {f : α → LispM β}

/-- What every action of a kind preserves is maintained at every state. -/
theorem Preserves.maintains (hx : Preserves K x) : Maintains K x s := fun hs =>
  (hx s hs).mono (fun _ _ h => ⟨h.lasting, h.bodied hs⟩) fun _ _ h => ⟨h.lasting, h.bodied hs⟩

/-- A change outside of all blocks is as any lasting relation allows it. -/
theorem Altered.lasts (hK : Lasting K) {s' : Interpreter} (h : Altered none s s') (hs : s.Bodied) : K s s' ∧ s'.Bodied :=
  have hr : Records K 0 [] [] s s' := .of_extended hK h.extended h.functions h.marks h.scopes
  ⟨hr.lasting, hr.bodied hs⟩

/-- So is an action that makes only such changes. -/
theorem Alters.maintains (hK : Lasting K) (hx : Alters none x s) : Maintains K x s := fun hs =>
  Leads.mono hx (fun _ _ h => h.lasts hK hs) fun _ _ h => h.lasts hK hs

/-- No block is open around a form at top level. -/
theorem maintains_compileToplevel (hK : Lasting K) {compile : CompileRule} (hc : Tracks K compile) (form : Value) :
    Maintains K (compileToplevel compile form) s := by
  refine fun hs => (leads_compileToplevel hK hc hs form).mono ?_ ?_
  · rintro c s' ⟨stop, g, rs, -, -, hr⟩
    exact ⟨hK.trans (hK.rescoped s _) hr.lasting, hr.bodied hs⟩
  · rintro e _ ⟨rs, s₁, f, hr, rfl⟩
    exact ⟨hK.trans (hK.trans (hK.rescoped s _) hr.lasting) (hK.rescoped s₁ f), hr.bodied (s := s.rescoped Scopes.fresh) hs⟩

/-! ## Reading -/

/-- An action on the image writes into no stream if the heap only grows and no function is added. -/
theorem alters_image {x : ImageM α} (hx : Leads x s.image
    (fun _ i => s.image.heap.Extended i.heap ∧ i.functions = s.image.functions ∧ i.log.marks = s.image.log.marks)
    fun _ i => s.image.heap.Extended i.heap ∧ i.functions = s.image.functions ∧ i.log.marks = s.image.log.marks) :
    Alters none (liftM x : LispM α) s :=
  leads_image.2 (hx.mono (fun _ _ h => .of_extended h.1 h.2.1 h.2.2 rfl) fun _ _ h => .of_extended h.1 h.2.1 h.2.2 rfl)

/-- Reading only makes pairs. Those that are made before a failure stay. -/
theorem alters_readWithin (fuel : Nat) (text : List Char) (s : Interpreter) :
    Alters none (liftM (Image.readWithin fuel text) : LispM (Option (Value × List Char × Nat))) s := by
  refine alters_image ?_
  rw [Image.readWithin, leads_bind, Image.leads_reading]
  exact (Reading.Tidy.next fuel _).mono (fun _ _ h => ⟨h.heap, rfl, rfl⟩) fun _ _ h => ⟨h.2.heap, rfl, rfl⟩

theorem alters_readOne (text : String) (s : Interpreter) : Alters none (liftM (Image.readOne text) : LispM Value) s := by
  unfold Image.readOne Image.readNext
  rw [liftM_image_bind]
  refine (alters_readWithin _ _ s).bind fun form? s' _ => ?_
  cases form? with
  | none => exact Altered.refl s'
  | some form => exact Altered.refl s'

end

/-! ## The start -/

/-- An observer that marks nothing. -/
def Observer.silent : Observer := ⟨fun _ _ => [], fun _ _ _ _ => []⟩

/-- The marks in the log are the same. -/
def SameMarks (s s' : Interpreter) : Prop := s'.image.log.marks = s.image.log.marks

/-- An observer that writes nothing down keeps the marks as they are. -/
theorem observes_silent : Observes SameMarks .silent where
  trans h h' := h'.trans h
  added _ _ h := h
  tapped h _ _ _ := h
  compile _ := rfl
  compiled _ _ := rfl
  fell _ _ := rfl
  go _ := rfl
  altered _ _ h := h.marks
  gone _ _ _ := rfl

/-- It does nothing else either. -/
theorem observe_silent (task : Task) (code? : α → Option Value) (x : LispM α) : observe .silent task code? x = x := by
  funext s
  have hnone (s : Interpreter) : s.markedAll [] = s := rfl
  simp only [observe, Bind.bind, EStateM.bind, get_apply, attempt, markAll_eq, Observer.silent, hnone]
  cases x s <;> rfl

/-- Observed by nobody, the compiler and the machine are those in which code and data are watched. -/
theorem observed_silent (fuel : Nat) :
    observedCompile .silent fuel = watchedCompile apart fuel ∧
      ∀ entries flow, observedRun .silent fuel flow = watchedRun apart fuel entries flow := by
  -- The induction is on the fuel: observing nothing does nothing.
  induction fuel with
  | zero =>
    refine ⟨?_, fun entries flow => ?_⟩
    · funext form env cont
      rw [observedCompile, watchedCompile]
    · rw [observedRun, watchedRun]
  | succ fuel ih =>
    obtain ⟨hcompile, hrun⟩ := ih
    refine ⟨?_, fun entries flow => ?_⟩
    · funext form env cont
      rw [observedCompile, watchedCompile, observe_silent, hcompile, hrun []]
    · have hgo (flow : Flow) : observedRun .silent fuel flow =
          (do let s ← get; watchedRun apart fuel (entriesAfter entries s) flow) := by
        funext s
        exact congrFun (hrun (entriesAfter entries s) flow) s
      cases flow with
      | stop =>
        rw [observedRun, watchedRun]
        rfl
      | next =>
        simp only [observedRun, watchedRun, observe_silent, hgo]
        rfl
      | request r =>
        simp only [observedRun, watchedRun, observe_silent, hcompile, hrun [] .next, hgo]
        rfl

section

variable {L : Layout} {s : Interpreter} {x y : LispM α} {f : α → LispM β}

/-- The second part is only asked about where the first one has succeeded. -/
theorem Maintains.bind (hK : Lasting K) (hx : Maintains K x s) (hf : ∀ a s', x s = .ok a s' → Maintains K (f a) s') :
    Maintains K (x >>= f) s := by
  intro hs
  have h := hx hs
  rw [leads_bind]
  unfold Leads at h ⊢
  split
  · next a s' heq =>
    rw [heq] at h
    exact (hf a s' heq h.2).mono (fun _ _ h' => ⟨hK.trans h.1 h'.1, h'.2⟩) fun _ _ h' => ⟨hK.trans h.1 h'.1, h'.2⟩
  · next heq =>
    rw [heq] at h
    exact h

/-- Checks that do not fail do not matter. -/
theorem eq_of_agree {R : Layout → Interpreter → Layout → Interpreter → Prop} {post : Layout → α → Interpreter → Prop}
    (hxy : Agree stopped x y) (hx : Safe R L x s post) : x s = y s := by
  rcases hxy.agrees s with heq | ⟨s', heq⟩
  · exact heq
  · exact ((leads_of_error heq).1 hx).1.elim

end

section

variable {L : Layout} {s : Interpreter}

/-- At a moment that is in order, programs and streams are apart. -/
theorem apart_inOrder : (Engine.watched apart).InOrder := Engine.watched_inOrder fun _ hf => hf.separate

/-- A form is compiled as if it were observed. -/
theorem maintains_compile {form : Value} (hs : Sound L s) (hform : L.Visible form) :
    Maintains SameMarks (compile form) s := by
  have hagree : Agree stopped (compileToplevel (watchedCompile apart horizon) form) (compile form) :=
    agree_mildCongruence.congruence.compileToplevel (agree_watched apart horizon).1 form
  -- code and data are apart, so the checks change nothing
  have heq := eq_of_agree hagree (safe_compileToplevel (apart_inOrder.compiles horizon) hs hform)
  rw [← (observed_silent horizon).1] at heq
  unfold Maintains Leads
  rw [← heq]
  exact maintains_compileToplevel observes_silent.toLasting (tracks_and_preserves observes_silent horizon).1 form

/-- Code runs as if it were observed. -/
theorem maintains_runCode {code : Value} (hs : Sound L s) (hcode : L.Code s.image.heap .toplevel [] [] [] code) :
    Maintains SameMarks (runCode code []) s := by
  have hagree : Agree stopped (execute (watchedRun apart horizon [] .next) code []) (runCode code []) :=
    agree_execute ((agree_watched apart horizon).2 [] .next) code []
  have heq := eq_of_agree hagree (safe_executeCode (apart_inOrder.runs horizon) hs hcode)
  rw [← (observed_silent horizon).2] at heq
  unfold Maintains Leads
  rw [← heq]
  exact (preserves_execute observes_silent.toLasting ((tracks_and_preserves observes_silent horizon).2 .next) code []).maintains

/-- A run that is not observed leaves no marks, and compiling a form leaves none either. -/
theorem maintains_eval {form : Value} (hs : Sound L s) (hform : L.Visible form) :
    Maintains SameMarks (eval form) s := by
  have hK := observes_silent.toLasting
  refine (maintains_compile hs hform).bind hK fun code s₁ heq => ?_
  obtain ⟨L₁, e₁, hcode⟩ := (leads_of_ok heq).1 (safe_compile hs hform)
  have hcounts : Alters none clearCounts s₁ := Altered.of_extended (.refl _) rfl rfl rfl
  refine (hcounts.maintains hK).bind hK fun _ s₂ heq => ?_
  cases heq
  exact maintains_runCode (e₁.sound.registers rfl) hcode

theorem maintains_evalForms {fuel : Nat} {text : List Char} {last : Value} (hs : Sound L s) :
    Maintains SameMarks (evalForms fuel text last) s := by
  have hK := observes_silent.toLasting
  induction fuel generalizing L s text last with
  | zero => exact fun hs => ⟨rfl, hs⟩
  | succ fuel ih =>
    refine ((alters_readWithin (fuel + 1) text s).maintains hK).bind hK fun read s₁ heq => ?_
    obtain ⟨L₁, e₁, hread⟩ := (leads_of_ok heq).1 (safe_readWithin hs (fuel + 1) text)
    cases read with
    | none => exact fun hs => ⟨rfl, hs⟩
    | some found =>
      obtain ⟨form, rest, count⟩ := found
      refine (maintains_eval e₁.sound (hread _ rfl)).bind hK fun v s₂ heq => ?_
      obtain ⟨L₂, e₂, -⟩ := (leads_of_ok heq).1 (safe_eval e₁.sound (hread _ rfl))
      exact ih e₂.sound

/-- A failure that is caught keeps what has been done before it. -/
theorem Maintains.attempt {x : LispM α} (hx : Maintains K x s) : Maintains K (attempt x) s :=
  fun hs => leads_attempt.2 (hx hs)

/-- Setting something aside from the heap, the functions, the marks and the scopes. -/
theorem maintains_modify (hK : Lasting K) {f : Interpreter → Interpreter} (heap : (f s).image.heap = s.image.heap)
    (functions : (f s).image.functions = s.image.functions) (marks : (f s).image.log.marks = s.image.log.marks)
    (scopes : (f s).scopes.unwarned = s.scopes.unwarned) : Maintains K (modify f : LispM Unit) s :=
  have h : Altered none s (f s) := .of_extended (heap ▸ .refl _) functions marks scopes
  Alters.maintains (x := modify f) hK h

theorem maintains_loadPrelude (hs : Sound L s) : Maintains SameMarks loadPrelude s := by
  have hK := observes_silent.toLasting
  unfold loadPrelude
  generalize Prelude.text = text
  refine (maintains_modify hK rfl rfl rfl rfl).bind hK fun _ s₁ heq => ?_
  obtain ⟨L₁, e₁, -⟩ := (leads_of_ok heq).1 (safe_modify_apart hs rfl rfl rfl rfl rfl rfl rfl)
  have htext : Maintains SameMarks (evalText text) s₁ := maintains_evalForms e₁.sound
  refine htext.attempt.bind hK fun result s₂ _ => ?_
  refine (maintains_modify hK rfl rfl rfl rfl).bind hK fun _ s₃ _ => ?_
  -- the failure of a prelude is passed on, and its functions have bodies all the same
  cases result with
  | error e => exact fun hs => ⟨rfl, hs⟩
  | ok v =>
    refine Maintains.bind hK (fun hs => ⟨rfl, hs⟩) fun _ s₃ _ => ?_
    have hscopes : Alters none (modifyScopes fun c => { c with warnings := #[] }) s₃ :=
      Altered.of_extended (.refl _) rfl rfl rfl
    refine (hscopes.maintains hK).bind hK fun _ s₄ _ => ?_
    exact (preserves_quiet hK (quiet_record .debug _ nofun)).maintains

/-- A primitive gets a symbol, and this touches no pair. -/
theorem alters_register (d : PrimitiveDefinition) (s : Interpreter) :
    Alters none (liftM (Image.register d) : LispM PrimitiveId) s := by
  have hsymbols {α : Type} (x : SymbolM α) (s : Interpreter) : Alters none (liftM (liftM x : ImageM α) : LispM α) s :=
    leads_symbols.2 (leads_trivial.mono (fun _ _ _ => .of_extended (.refl _) rfl rfl rfl) fun _ _ _ =>
      .of_extended (.refl _) rfl rfl rfl)
  unfold Image.register
  simp only [liftM_image_bind]
  refine (hsymbols _ s).bind fun name s₁ _ => ?_
  refine Alters.bind (Altered.refl s₁) fun image s₂ _ => ?_
  split
  · exact Altered.refl s₂
  · rw [liftM_image_bind]
    have hinsert : Altered none s₂ { s₂ with image.primitives := (s₂.image.primitives.insert { d with name }).2 } :=
      .of_extended (.refl _) rfl rfl rfl
    refine Alters.bind hinsert fun id s₃ _ => ?_
    rw [liftM_image_bind]
    exact (hsymbols _ s₃).bind fun _ s₄ _ => Altered.refl s₄

theorem alters_registerAll (library : List PrimitiveDefinition) (s : Interpreter) :
    Alters none (library.forM fun d => do let _ ← Image.register d : LispM Unit) s := by
  have hstart : Altered none s s := .refl s
  refine Leads.forM hstart fun d _ s₁ h => ?_
  have hd : Alters none (do let _ ← Image.register d : LispM Unit) s₁ :=
    (alters_register d s₁).bind fun _ s₂ _ => Altered.refl s₂
  exact Leads.mono hd (fun _ _ h' => h.trans h') fun _ _ h' => h.trans h'

attribute [local irreducible] loadPrelude Primitive.library in
/-- The primitives are registered, and the prelude evaluated. -/
theorem maintains_setUp (hs : Sound L s) (config : Config) : Maintains SameMarks (setUp config) s := by
  have hK := observes_silent.toLasting
  unfold setUp
  refine ((alters_registerAll Primitive.library s).maintains hK).bind hK fun _ s₁ heq => ?_
  obtain ⟨L₁, e₁, -⟩ := (leads_of_ok heq).1 (safe_registerAll hs)
  split
  · exact maintains_loadPrelude e₁.sound
  · exact fun hs => ⟨rfl, hs⟩

end

/-! ## Commands -/

namespace Session

variable {o : Observer}

/-- A command is an action, and then something that the session keeps of its result. This has
    nothing to do with the interpreter. -/
theorem act_maintains (session : Session) {x : LispM α} {keep : α → Session → Session}
    (hx : Maintains K x session.interpreter) (hs : session.interpreter.Bodied)
    (hkeep : ∀ a session, (keep a session).interpreter = session.interpreter) :
    K session.interpreter (session.act x keep).interpreter ∧ (session.act x keep).interpreter.Bodied := by
  have h := hx hs
  unfold Leads at h
  unfold act
  split at h
  · next heq =>
    rw [heq]
    simpa only [hkeep] using h
  · next heq =>
    rw [heq]
    exact h

/-- Functions have bodies when a session starts, and nothing has been marked. -/
theorem bodied_start (config : Config) (level : LogLevel) :
    (start config level).interpreter.Bodied ∧ (start config level).interpreter.image.log.marks = [] := by
  have hblank : (blank config level).Bodied := fun f hf => absurd hf (Nat.not_lt_zero _)
  have hsetUp := maintains_setUp (sound_blank config level) config
  have h : SameMarks (blank config level) (start config level).interpreter ∧ (start config level).interpreter.Bodied :=
    act_maintains { interpreter := blank config level } hsetUp hblank fun _ _ => rfl
  exact ⟨h.2, h.1⟩

/-- Every command maintains what the observer observes. -/
theorem perform_maintains (ho : Observes K o) {session : Session} (hs : session.interpreter.Bodied)
    (command : Command) :
    K session.interpreter (session.perform (.observed o) command).interpreter ∧
      (session.perform (.observed o) command).interpreter.Bodied := by
  have hK := ho.toLasting
  -- A command that names a value or a code that is not there does nothing.
  have hnone : K session.interpreter session.interpreter ∧ session.interpreter.Bodied := ⟨hK.refl _, hs⟩
  cases command with
  | read text => exact act_maintains session ((alters_readOne text _).maintains hK) hs fun _ _ => rfl
  | cons i j =>
    simp only [perform]
    split
    · exact act_maintains session (preserves_quiet hK (quiet_heap _)).maintains hs fun _ _ => rfl
    · exact hnone
  | compile i fuel =>
    simp only [perform]
    split
    · exact act_maintains session (maintains_compileToplevel hK (tracks_and_preserves ho fuel).1 _) hs fun _ _ => rfl
    · exact hnone
  | execute i fuel =>
    simp only [perform]
    split
    · exact act_maintains session (preserves_execute hK ((tracks_and_preserves ho fuel).2 .next) _ _).maintains hs fun _ _ => rfl
    · exact hnone

/-- What lasts is kept in observed sessions. -/
theorem observed_lasts (ho : Observes K o) (config : Config) (level : LogLevel) (commands : List Command) :
    K (start config level).interpreter (run (.observed o) config level commands).interpreter := by
  have hgoes {session : Session} (hs : session.interpreter.Bodied) :
      K session.interpreter (commands.foldl (perform (.observed o)) session).interpreter := by
    induction commands generalizing session with
    | nil => exact ho.toLasting.refl _
    | cons command commands ih =>
      obtain ⟨h, hs'⟩ := perform_maintains ho hs command
      exact ho.trans h (ih hs')
  exact hgoes (bodied_start config level).1

end Session

end StackLisp
