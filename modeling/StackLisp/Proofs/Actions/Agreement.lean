import StackLisp.Proofs.Actions.Steady

/-!
# Actions that agree up to a failure

Two actions *agree* up to a failure if they do the same, unless the first one fails in
that way (`Agree`). This goes through everything that the compiler and the machine do,
as no failure is ever lost. So it is how a computation with some bound on its length
compares to one with a greater bound: a computation that comes to an end within a
bound goes the same way within a greater one (`agree_engine`).
-/

namespace StackLisp

open Interpreter Compiler Machine

variable {α β : Type} {e : Failure}

/-- From an interpreter, the actions do the same, unless the first one fails in the given way. -/
def AgreeAt (e : Failure) (s : Interpreter) (x y : LispM α) : Prop := x s = y s ∨ ∃ s', x s = .error e s'

/-- The actions do the same, unless the first one fails in the given way. -/
structure Agree (e : Failure) (x y : LispM α) : Prop where
  agrees : ∀ s, AgreeAt e s x y

section

variable {s : Interpreter} {x y : LispM α}

/-- The same is done first. -/
theorem agreeAt_after {f g : α → LispM β}
    (hx : Leads x s (fun a s' => AgreeAt e s' (f a) (g a)) fun _ _ => True) :
    AgreeAt e s (x >>= f) (x >>= g) := by
  unfold AgreeAt
  simp only [Bind.bind, EStateM.bind]
  cases heq : x s with
  | ok a s' => exact (leads_of_ok heq).1 hx
  | error _ s' => exact .inl rfl

/-- Something mild is done first. -/
theorem Mild.agreeAt {f g : α → LispM β} (hx : Mild x)
    (hf : ∀ a s', Still s s' → AgreeAt e s' (f a) (g a)) : AgreeAt e s (x >>= f) (x >>= g) :=
  agreeAt_after ((hx.leads s).mono (fun a s' h => hf a s' h) fun _ _ _ => trivial)

/-- Where the first actions agree, the second ones start from the same state. -/
theorem AgreeAt.bind {f g : α → LispM β} (hx : AgreeAt e s x y) (hf : ∀ a, Agree e (f a) (g a)) :
    AgreeAt e s (x >>= f) (y >>= g) := by
  rcases hx with heq | ⟨s', heq⟩
  · have hbind : (x >>= f) s = (y >>= f) s := by simp only [Bind.bind, EStateM.bind, heq]
    rw [AgreeAt, hbind]
    exact agreeAt_after (leads_trivial.mono (fun a s' _ => (hf a).agrees s') fun _ _ _ => trivial)
  · exact .inr ⟨s', by simp only [Bind.bind, EStateM.bind, heq]⟩

/-- The same is done with either outcome, and the failure is passed on. -/
theorem AgreeAt.attempt {f : Except Failure α → LispM β} (hx : AgreeAt e s x y)
    (hf : ∀ s', x s = .error e s' →
      Leads (f (.error e)) s' (fun _ _ => False) fun e' _ => e' = e) :
    AgreeAt e s (attempt x >>= f) (attempt y >>= f) := by
  rcases hx with heq | ⟨s₁, heq⟩
  · exact .inl (by simp only [Bind.bind, EStateM.bind, Interpreter.attempt, heq])
  · have hend := hf s₁ heq
    cases hs₂ : f (.error e) s₁ with
    | ok b s₂ => exact absurd ((leads_of_ok hs₂).1 hend) not_false
    | error e' s₂ =>
      rw [leads_of_error hs₂] at hend
      refine .inr ⟨s₂, ?_⟩
      simp only [Bind.bind, EStateM.bind, Interpreter.attempt, heq, hs₂, hend]

theorem Agree.refl (x : LispM α) : Agree e x x := ⟨fun _ => .inl rfl⟩

end

/-- Actions that agree may take each other's place in everything. -/
theorem agree_mildCongruence : MildCongruence fun _ x y => Agree e x y where
  mild _ := .refl _
  bind hx hf := ⟨fun s => (hx.agrees s).bind hf⟩
  guard hx _ herr := ⟨fun s => (hx.agrees s).attempt fun s' _ => by
    obtain ⟨s'', hs'', -⟩ := (herr e).eq s'
    exact (leads_of_error hs'').2 rfl⟩
  gensym _ := .refl _
  declareSpecial _ := .refl _

/-- A run that agrees up to a failure is ended in the same way. -/
theorem agree_execute {run run' : LispM Unit} (hrun : Agree e run run') (code : Value)
    (args : List Value) : Agree e (Interpreter.execute run code args) (Interpreter.execute run' code args) where
  agrees s := by
    have h : MildCongruence fun _ x y => Agree e x y := agree_mildCongruence
    refine (quiet_argumentEnv args).mild.agreeAt fun env s₁ _ => agreeAt_after (leads_get.2 ?_)
    refine agreeAt_after (leads_modifyMachine.2 ?_)
    refine ((h.bind hrun fun _ => h.mild quiet_pop.mild).agrees _).attempt fun s₄ _ => ?_
    rw [leads_bind, leads_modifyMachine, leads_bind, leads_unwindBindings]
    rfl

/-- What is the same on both sides agrees. -/
theorem agree_mildBindingCongruence : MildBindingCongruence fun _ x y => Agree e x y where
  toMildCongruence := agree_mildCongruence
  bindSpecial _ _ := .refl _
  unbindSpecial _ := .refl _
  unwindBindings _ := .refl _
  execute := agree_execute

/-- So it is with everything that the machine does. -/
theorem agree_runningCongruence : RunningCongruence fun _ x y => Agree e x y where
  toBindingCongruence := agree_mildBindingCongruence.bindingCongruence
  setValue _ _ := .refl _

/-- A definition whose function does not compile restores the cell of its name, which is no
    constant. -/
theorem agree_definitionBy {make make' : SymbolId → Value → Value → LispM FunctionId}
    (hretains : ∀ name params body, Steady Retains (fun _ => True) (make name params body))
    (hmake : ∀ name params body, Agree e (make name params body) (make' name params body))
    (kind : FunctionKind) (args cont : Value) :
    Agree e (definitionBy make kind args cont) (definitionBy make' kind args cont) where
  agrees s := by
    refine (quiet_arguments args).mild.agreeAt fun items s₁ _ => ?_
    split
    · next nameForm params _ =>
      split
      · next name _ =>
        refine (looks_checkRedefinition ..).quiet.mild.agreeAt fun _ s₂ _ => ?_
        refine (looks_parseLambdaList ..).quiet.mild.agreeAt fun frame s₃ _ => ?_
        refine (quiet_asks _ fun _ _ => rfl).mild.agreeAt fun previous s₄ _ => agreeAt_after (leads_setCell.2 ?_)
        split
        -- A constant is refused alike.
        · trivial
        · next hname =>
          -- The name is no constant here, and no part of the body makes it one, so its cell can be
          -- put back when the body fails.
          have hname₅ : (s₄.withCell name (.pending (frameArity frame) kind)).image.symbols.isConstant
              name = false :=
            (retains_withCell s₄ name _).notConstant (Bool.eq_false_iff.2 hname)
          refine (quiet_query _ fun _ _ => rfl).mild.agreeAt fun body s₅ h₅ => ?_
          refine (quiet_heap _).mild.agreeAt fun body s₆ h₆ => ?_
          refine (quiet_heap _).mild.agreeAt fun block s₇ h₇ => ?_
          refine (quiet_heap _).mild.agreeAt fun body s₈ h₈ => ?_
          have hname₈ : s₈.image.symbols.isConstant name = false := by
            rw [h₈.symbols, h₇.symbols, h₆.symbols, h₅.symbols, hname₅]
          refine ((hmake name params body).agrees s₈).attempt fun s₉ h₉ => ?_
          have hr₉ := (hretains name params body).leads s₈
          rw [leads_of_error h₉] at hr₉
          rw [leads_bind, leads_setCell, (hr₉ trivial).notConstant hname₈]
          rfl
      · exact .inl rfl
    · exact .inl rfl

/-- Up to a failure, everything may be replaced by what it agrees with. -/
theorem agree_machineCongruence :
    MachineCongruence fun _ x y => Steady Retains (fun _ => True) x ∧ Agree e x y :=
  agree_runningCongruence.machineCongruence agree_mildCongruence.congruence agree_definitionBy

/-! ## Greater bounds -/

/-- Nothing is done within no bound. -/
theorem agree_endless (x : LispM α) : Agree .endless (throw .endless) x := ⟨fun s => .inr ⟨s, rfl⟩⟩

/-- With more fuel, a walk that has ended ends alike. -/
theorem agree_exitBlock (target value : Value) :
    ∀ fuel skipped, Agree .endless (exitBlock target value fuel skipped)
      (exitBlock target value (fuel + 1) skipped)
  | 0, skipped => by
    rw [exitBlock_zero]
    exact agree_endless _
  | fuel + 1, skipped => by
    have h : MildCongruence fun _ x y => Agree .endless x y := agree_mildCongruence
    rw [exitBlock_succ, exitBlock_succ target value (fuel + 1)]
    refine h.bind (.refl _) fun code => ?_
    refine h.bind (.refl _) fun next => ?_
    cases next with
    | none => exact .refl _
    | some skipped => exact agree_exitBlock target value fuel skipped

section

variable {run run' : LispM Unit} (hr : Agree .endless run run')

include hr

/-- The runs of expanders agree. -/
theorem agree_expandMacro (f : FunctionId) (args : Value) :
    Agree .endless (expandMacro run f args) (expandMacro run' f args) :=
  agree_runningCongruence.toTurningCongruence.expandMacro (agree_execute hr) f args

/-- So does the expansion of a form, expansion by expansion. -/
theorem agree_macroexpandFrom : ∀ (fuel : Nat) (form : Value),
    Agree .endless (macroexpandFrom (expandMacro run) fuel form)
      (macroexpandFrom (expandMacro run') (fuel + 1) form)
  | 0, _ => agree_endless _
  | fuel + 1, form => by
    have h : MildCongruence fun _ x y => Agree .endless x y := agree_mildCongruence
    refine h.bind ?_ fun result => ?_
    · exact agree_runningCongruence.toTurningCongruence.macroexpandOnce (agree_expandMacro hr) form
    · dsimp only
      split
      · exact agree_macroexpandFrom fuel _
      · exact .refl _

end

/-- What the machine asks for is served alike within a greater bound. -/
theorem agree_serve {compile compile' : CompileRule} {run run' : LispM Unit}
    (hc : ∀ form env cont, Agree .endless (compile form env cont) (compile' form env cont))
    (hr : Agree .endless run run') (fuel : Nat) (r : Request) :
    Agree .endless (serve compile run fuel r) (serve compile' run' (fuel + 1) r) := by
  have h : MildCongruence fun _ x y => Agree .endless x y := agree_mildCongruence
  cases r with
  | call argc mode => exact .refl _
  | returnFrom target value => exact h.bind (agree_exitBlock target value fuel 0) fun _ => .refl _
  | macroexpandOnce form =>
    refine h.bind ?_ fun _ => .refl _
    exact agree_runningCongruence.toTurningCongruence.macroexpandOnce (agree_expandMacro hr) form
  | macroexpand form => exact h.bind (agree_macroexpandFrom hr fuel form) fun _ => .refl _
  | eval form =>
    refine h.bind (h.congruence.compileApart hc form) fun code => ?_
    exact h.bind (agree_execute hr code []) fun _ => .refl _

/-- What comes to an end within a bound does the same within a greater one. -/
theorem agree_engine (fuel : Nat) :
    (∀ form env cont, Agree .endless (compileFrom fuel form env cont)
      (compileFrom (fuel + 1) form env cont)) ∧
      ∀ flow, Agree .endless (runFrom fuel flow) (runFrom (fuel + 1) flow) := by
  have h : MachineCongruence fun _ x y => Steady Retains (fun _ => True) x ∧ Agree .endless x y :=
    agree_machineCongruence
  -- The induction is on the fuel, for the compiler and for runs at once: macros are run while
  -- compiling, and `eval` compiles in a run.
  induction fuel with
  | zero =>
    refine ⟨fun form env cont => ?_, fun flow => ?_⟩
    · rw [compileFrom]
      exact agree_endless _
    · rw [runFrom]
      exact agree_endless _
  | succ fuel ih =>
    obtain ⟨hc, hr⟩ := ih
    have hretains := retains_machineCongruence.engine fuel
    refine ⟨fun form env cont => ?_, fun flow => ?_⟩
    · rw [compileFrom, compileFrom]
      have hexpand := h.toTurningCongruence.expandMacro (h.execute ⟨hretains.2 .next, hr .next⟩)
      exact (h.toDefiningCongruence.compileForm
        (fun form env cont => ⟨hretains.1 form env cont, hc form env cont⟩) hexpand form env cont).2
    · cases flow with
      | stop =>
        rw [runFrom, runFrom]
        exact .refl _
      | next =>
        rw [runFrom, runFrom]
        exact agree_mildCongruence.bind (.refl _) hr
      | request r =>
        rw [runFrom, runFrom]
        exact agree_mildCongruence.bind (agree_serve hc (hr .next) fuel r) hr

end StackLisp
