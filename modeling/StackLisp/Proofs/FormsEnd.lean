import StackLisp.Proofs.LexicalScope

/-!
# Forms that end

Compiling a form goes along lists: the form, its arguments, lambda lists and bindings, and the
code it is put in front of. So does expanding a macro call. Each of these walks ends unless
a list of the heap goes in circles, and a heap that is twisted stays so as long as no program
runs. So compiling a form, expanding it and evaluating it do not end on a twisted heap only
(`EndsUnlessTwisted`), or because what is compiled or run on the way does not end
(`forms_end`).
-/

namespace StackLisp

open Interpreter Compiler

/-- The action ends, unless some list of the heap that it leaves goes in circles. -/
structure EndsUnlessTwisted {α : Type} (x : LispM α) : Prop where
  leads : ∀ s, Leads x s (fun _ _ => True) fun e s' => e = .endless → s'.image.heap.Twisted

section

variable {α β : Type} {x : LispM α} {f : α → LispM β}

/-- An ordinary failure without end is one on a twisted heap. -/
theorem FailsOrdinarily.endsUnlessTwisted (hx : FailsOrdinarily x) : EndsUnlessTwisted x where
  leads s := (hx.ordinaryIn s).mono (fun _ _ h => h) fun e s' he hendless => by
    subst hendless
    exact he

theorem Quiet.endsUnlessTwisted (hx : Quiet x) : EndsUnlessTwisted x :=
  hx.toFailsOrdinarily.endsUnlessTwisted

/-- One such action after the other. -/
theorem EndsUnlessTwisted.bind (hx : EndsUnlessTwisted x) (hf : ∀ a, EndsUnlessTwisted (f a)) :
    EndsUnlessTwisted (x >>= f) where
  leads s := (leads_bind f).2 ((hx.leads s).mono (fun a s' _ => (hf a).leads s') fun _ _ h => h)

theorem endsUnlessTwisted_get {f : Interpreter → LispM β} (hf : ∀ s, EndsUnlessTwisted (f s)) :
    EndsUnlessTwisted (get >>= f) :=
  ⟨fun s => (hf s).leads s⟩

theorem endsUnlessTwisted_modifyScopes (g : Scopes → Scopes) : EndsUnlessTwisted (modifyScopes g) :=
  ⟨fun _ => trivial⟩

/-- What is done after an action that has failed hands the failure on, with the tails as they were,
    or fails in another way. -/
theorem EndsUnlessTwisted.guard {f : Except Failure α → LispM β} (hx : EndsUnlessTwisted x)
    (hok : ∀ a, EndsUnlessTwisted (f (.ok a)))
    (herr : ∀ e s, Leads (f (.error e)) s (fun _ _ => True) fun e' s' =>
      e' = .endless → e = .endless ∧ ∀ id : PairId, id.index < s.image.heap.pairCount →
        s'.image.heap.cdr id = s.image.heap.cdr id) :
    EndsUnlessTwisted (attempt x >>= f) where
  leads s := by
    rw [leads_bind, leads_attempt]
    refine (hx.leads s).mono (fun a s₁ _ => (hok a).leads s₁) fun e s₁ h₁ => ?_
    refine (herr e s₁).mono (fun _ _ h => h) fun e' s₂ h₂ hendless => ?_
    obtain ⟨he, hcdr⟩ := h₂ hendless
    exact (h₁ he).mono hcdr

/-- A call is compiled with a search for the end of its continuation. -/
theorem endsUnlessTwisted_emitApply (argc : Nat) (cont : Value) :
    EndsUnlessTwisted (emitApply argc cont) := by
  unfold emitApply
  refine (quiet_tailOf cont).endsUnlessTwisted.bind fun tail => ?_
  split
  · exact (quiet_emit ..).endsUnlessTwisted
  · refine (quiet_emit ..).endsUnlessTwisted.bind fun code => ?_
    split
    · exact (endsUnlessTwisted_modifyScopes _).bind fun _ => (quiet_pure _).endsUnlessTwisted
    · exact (quiet_pure _).endsUnlessTwisted
  · exact (quiet_emit ..).endsUnlessTwisted

/-- A definition whose function does not compile restores the cell and fails like it. -/
theorem endsUnlessTwisted_definitionBy {make : SymbolId → Value → Value → LispM FunctionId}
    (hmake : ∀ name params body, EndsUnlessTwisted (make name params body)) (kind : FunctionKind)
    (args cont : Value) : EndsUnlessTwisted (definitionBy make kind args cont) := by
  have hset (name : SymbolId) (cell : FunctionCell) := (failsOrdinarily_setCell name cell).endsUnlessTwisted
  unfold definitionBy
  refine (quiet_arguments args).endsUnlessTwisted.bind fun items => ?_
  split
  · split
    · next name _ =>
      refine (looks_checkRedefinition ..).quiet.endsUnlessTwisted.bind fun _ => ?_
      refine (quiet_parseLambdaList ..).endsUnlessTwisted.bind fun frame => ?_
      refine (quiet_asks _ fun _ _ => rfl).endsUnlessTwisted.bind fun previous => ?_
      refine (hset name _).bind fun _ => ?_
      refine (quiet_query _ fun _ _ => rfl).endsUnlessTwisted.bind fun body => ?_
      refine (quiet_heap _).endsUnlessTwisted.bind fun body => ?_
      refine (quiet_heap _).endsUnlessTwisted.bind fun block => ?_
      refine (quiet_heap _).endsUnlessTwisted.bind fun body => ?_
      -- The definition is entered and its name loaded, with an expander or without.
      have hrest (f : FunctionId) (text : Image → String) : EndsUnlessTwisted (do
          SymbolTable.setCell name (.function f)
          Image.record .debug text
          emit .ldc [.ofSymbol name] cont : LispM Value) :=
        (hset name _).bind fun _ => (quiet_record .debug text nofun).endsUnlessTwisted.bind fun _ =>
          (quiet_emit ..).endsUnlessTwisted
      refine EndsUnlessTwisted.guard (hmake ..) (fun f => ?_) fun e s => ?_
      · refine (quiet_pure f).endsUnlessTwisted.bind fun f => ?_
        dsimp only
        split
        · exact (failsOrdinarily_addExpander f).endsUnlessTwisted.bind fun _ => hrest f _
        · exact hrest f _
      -- When the cell is restored, no pair changes.
      · rw [leads_bind, leads_setCell]
        split
        · exact nofun
        · exact fun he => ⟨he, fun _ _ => rfl⟩
    · exact ((quiet_shown _).bind fun _ => quiet_invalid ..).endsUnlessTwisted
  · exact (quiet_invalid ..).endsUnlessTwisted

/-- Ending unless the heap is twisted goes through all parts of the compiler. -/
theorem endsUnlessTwisted_congruence : DefiningCongruence fun _ x _ => EndsUnlessTwisted x where
  quiet := Quiet.endsUnlessTwisted
  bind := EndsUnlessTwisted.bind
  gensym _ := ⟨fun _ => trivial⟩
  declareSpecial id := ⟨fun s => by
    refine leads_update.2 ?_
    split
    · exact nofun
    · trivial⟩
  emitApply := endsUnlessTwisted_emitApply
  reject _ _ := ⟨fun _ => nofun⟩
  tame hx _ := hx.toFailsOrdinarily.endsUnlessTwisted
  -- What follows a failure only tidies up, and leaves all tails as they are.
  guard hx hok herr _ := hx.guard (fun a => (hok a).toFailsOrdinarily.endsUnlessTwisted) fun e s => by
    obtain ⟨s', heq, h'⟩ := (herr e).eq s
    exact (leads_of_error heq).2 fun he => ⟨he, h'.heap.cdr⟩
  forget := endsUnlessTwisted_modifyScopes _
  closeBlock hx := by
    refine hx.guard (fun a => ?_) fun e s => ?_
    · exact failsOrdinarily_closeBlock.endsUnlessTwisted.bind fun _ => (quiet_pure a).endsUnlessTwisted
    · obtain ⟨_, s', heq, h'⟩ := closeBlock_ends s
      rw [leads_bind, leads_of_ok heq]
      exact fun he => ⟨he, fun id _ => h'.cdr id⟩
  apart hx := by
    refine endsUnlessTwisted_get fun s => ?_
    refine (endsUnlessTwisted_modifyScopes _).bind fun _ => ?_
    refine hx.guard (fun a => ?_) fun e s => fun he => ⟨he, fun _ _ => rfl⟩
    exact (endsUnlessTwisted_modifyScopes _).bind fun _ => (quiet_pure a).endsUnlessTwisted
  definition := endsUnlessTwisted_definitionBy

/-- A run in registers of its own. -/
theorem endsUnlessTwisted_execute {run : LispM Unit} (hrun : EndsUnlessTwisted run) (code : Value)
    (args : List Value) : EndsUnlessTwisted (Interpreter.execute run code args) where
  leads s := by
    refine leads_execute (fun h _ => nofun) fun env h _ => ?_
    exact (hrun.leads _).mono (fun _ s₁ _ => ⟨fun _ _ _ _ => trivial, fun _ => nofun⟩) fun _ _ he => he

end

/-- Whatever compiles the forms inside of a form and whatever runs: if these end unless a list goes
    in circles, then so do compiling the form, expanding it once, and evaluating it. -/
def FormsEnd : Prop :=
  ∀ (compile : CompileRule) (run : LispM Unit),
    (∀ form env cont, EndsUnlessTwisted (compile form env cont)) → EndsUnlessTwisted run →
    ∀ form : Value,
      (∀ env cont, EndsUnlessTwisted (compileForm compile (expandMacro run) form env cont)) ∧
        EndsUnlessTwisted (macroexpandOnce (expandMacro run) form) ∧
        ∀ fuel, EndsUnlessTwisted (serve compile run fuel (.eval form))

/-- Compiling a form ends, unless a list is circular. -/
theorem forms_end : FormsEnd := by
  intro compile run hc hrun form
  have h := endsUnlessTwisted_congruence
  have hx (code : Value) (args : List Value) := endsUnlessTwisted_execute hrun code args
  have he (f : FunctionId) (args : Value) : EndsUnlessTwisted (expandMacro run f args) :=
    @BasicCongruence.expandMacro (fun _ x _ => EndsUnlessTwisted x) h.toBasicCongruence _ run hx f args
  refine ⟨fun env cont => ?_, ?_, fun fuel => ?_⟩
  · exact @DefiningCongruence.compileForm (fun _ x _ => EndsUnlessTwisted x) h compile compile
      (expandMacro run) (expandMacro run) hc he form env cont
  · exact @BasicCongruence.macroexpandOnce (fun _ x _ => EndsUnlessTwisted x) h.toBasicCongruence
      (expandMacro run) (expandMacro run) he form
  · refine EndsUnlessTwisted.bind ?_ fun code => (hx code []).bind fun v => (quiet_done v).endsUnlessTwisted
    exact @Congruence.compileApart (fun _ x _ => EndsUnlessTwisted x) h.toCongruence compile compile hc form

end StackLisp
