import StackLisp.Proofs.Actions.Congruence

/-!
# The compiler and congruences

Apart from making fresh symbols, declaring variables special and defining
functions, the compiler is quiet: code goes to the heap, and what it knows to the
scopes. So every congruence goes from the compiler for the forms inside of a form,
and from the way macros are expanded, to the compiler for the form
(`Congruence.compileForm`). Definitions are what a congruence has to say something
about by itself (`DefiningCongruence`).
-/

namespace StackLisp

open Interpreter Compiler Machine

variable {α : Type}

/-! ## What is quiet -/

/-- The text of an error is made by printing forms, which only reads the image. -/
theorem looks_invalid (form : String) (f : FormFault) : Looks (invalid form f : LispM α) :=
  looks_raise _ trivial

theorem quiet_invalid (form : String) (f : FormFault) : Quiet (invalid form f : LispM α) :=
  quiet_raise _ trivial

/-- An instruction takes new pairs for itself and for its operands, and no more can happen than that
    the heap is full. -/
theorem quiet_emit (code : Opcode) (operands : List Value) (cont : Value) :
    Quiet (emit code operands cont) := (quiet_heap _).bind fun _ => quiet_heap _

/-- Whether a call is in tail position is read off the continuation, past the ends of blocks. -/
theorem quiet_tailOf (cont : Value) : Quiet (tailOf cont) :=
  quiet_walk _ (fun _ _ => rfl) fun _ _ => tailFrom_ordinary

/-- A pending tail call is no change of the symbols. -/
theorem mild_emitApply (argc : Nat) (cont : Value) : Mild (emitApply argc cont) := by
  unfold emitApply
  refine (quiet_tailOf cont).mild.bind fun tail => ?_
  split
  · exact (quiet_emit ..).mild
  · refine (quiet_emit ..).mild.bind fun code => ?_
    split
    · exact Mild.bind ⟨fun _ => ⟨rfl, rfl, rfl, rfl⟩⟩ fun _ => (quiet_pure _).mild
    · exact (quiet_pure _).mild
  · exact (quiet_emit ..).mild

/-- The arguments of a form are found by a walk along it. -/
theorem looks_arguments (args : Value) : Looks (arguments args) := by
  refine (looks_elements? args).bind fun items => ?_
  split
  · exact looks_pure _
  · exact looks_invalid ..

theorem quiet_arguments (args : Value) : Quiet (arguments args) := (looks_arguments args).quiet

theorem quiet_assignable (form : String) (var : Value) : Quiet (assignable form var) := by
  unfold assignable
  split
  · exact (quiet_shown _).bind fun _ => quiet_invalid ..
  · refine (quiet_asks _ fun _ _ => rfl).bind fun constant => ?_
    split
    · exact (quiet_nameOf _).bind fun _ => quiet_raise_bind _ _ trivial
    · exact quiet_pure _

theorem looks_parameter (form : String) (var : Value) : Looks (parameter form var) := by
  unfold parameter
  split
  · exact (looks_shown _).bind fun _ => looks_invalid ..
  · refine (looks_asks _ fun _ _ => rfl).bind fun constant => ?_
    dsimp only
    split
    · exact (looks_nameOf _).bind fun _ => looks_raise_bind _ _ trivial
    · split
      · exact looks_raise_bind _ _ trivial
      · exact looks_pure _

/-- Parameters are parsed one by one, and a list of them that goes in circles is gone along until
    one of them is wrong or the list is known to be circular. -/
theorem leaves_parseParameters {form : String} {params : Value} {ending : SpineEnd} {s : Interpreter}
    (hending : ending = .circular → s.image.heap.Twisted) :
    ∀ (items : List Value) (names : List SymbolId),
      Leads (parseParameters form params names ending items) s (fun _ s' => s' = s)
        fun e s' => s' = s ∧ e.OrdinaryIn s.image.heap
  | [], names => by
    unfold parseParameters
    cases ending with
    | proper => exact rfl
    | dotted var => exact ((looks_parameter form var).bind fun _ => looks_pure _).leaves s
    | circular => exact ⟨rfl, hending rfl⟩
  | item :: items, names => by
    unfold parseParameters
    split
    · split
      · split
        · exact ⟨rfl, hending rfl⟩
        · exact ((looks_parameter _ _).bind fun _ => looks_pure _).leaves s
        · exact ((looks_shown _).bind fun _ => looks_invalid ..).leaves s
      · refine (leads_bind _).2 (((looks_parameter form item).leaves s).mono ?_ fun _ _ h => h)
        rintro name _ rfl
        -- Naming a parameter leaves the state as it was, so what is known of the ending still holds
        -- for the rest of the spine.
        exact leaves_parseParameters hending items (name :: names)
    · exact ((looks_shown _).bind fun _ => looks_invalid ..).leaves s

/-- What becomes of a lambda list does not depend on the log, or on how deep the machine is. -/
theorem even_parseParameters (form : String) (params : Value) (ending : SpineEnd) :
    ∀ (items : List Value) (names : List SymbolId),
      Even (parseParameters form params names ending items)
  | [], names => by
    unfold parseParameters
    cases ending with
    | proper => exact even_pure _
    | dotted var => exact (looks_parameter form var).even.bind fun _ => even_pure _
    | circular => exact even_throw _
  | item :: items, names => by
    unfold parseParameters
    split
    · split
      · split
        · exact even_throw _
        · exact (looks_parameter _ _).even.bind fun _ => even_pure _
        · exact ((looks_shown _).bind fun _ => looks_invalid ..).even
      · exact (looks_parameter form item).even.bind fun name =>
          even_parseParameters form params ending items (name :: names)
    · exact ((looks_shown _).bind fun _ => looks_invalid ..).even

/-- Of the error that a circular lambda list gives it is known besides that the list goes in
    circles. -/
theorem looks_parseLambdaList (form : String) (params : Value) :
    Looks (parseLambdaList form params) := by
  have hleads (s : Interpreter) : Leads (parseLambdaList form params) s (fun _ s' => s' = s)
      fun e s' => s' = s ∧ e.OrdinaryIn s.image.heap :=
    leaves_parseParameters (fun hcircular => (Heap.spine_circular_iff.1 hcircular).twisted) _ []
  refine ⟨⟨fun s => ?_⟩, fun s => (hleads s).mono (fun _ _ h => h) fun _ _ h => h.1, ?_⟩
  · refine (hleads s).mono (fun _ _ _ => trivial) ?_
    rintro e _ ⟨rfl, he⟩
    exact he
  · exact (even_asks fun _ _ => rfl).bind fun _ => even_parseParameters ..

theorem quiet_parseLambdaList (form : String) (params : Value) :
    Quiet (parseLambdaList form params) := (looks_parseLambdaList form params).quiet

/-- A binding is a variable, or a list of a variable and a form. -/
theorem quiet_parseBinding (form : String) (binding : Value) : Quiet (parseBinding form binding) := by
  unfold parseBinding
  have hend (var init : Value) :
      Quiet (do return ((← assignable form var), init) : LispM (SymbolId × Value)) :=
    (quiet_assignable ..).bind fun _ => quiet_pure _
  split
  · refine (quiet_elements? _).bind fun items => ?_
    split
    · exact (quiet_pure _).bind fun _ => hend ..
    · exact (quiet_pure _).bind fun _ => hend ..
    · exact (quiet_shown _).bind fun _ => (quiet_invalid ..).bind fun _ => hend ..
  · exact (quiet_pure _).bind fun _ => hend ..

theorem quiet_parseBindings (form : String) (bindings : Value) :
    Quiet (parseBindings form bindings) := by
  unfold parseBindings
  refine (quiet_elements? bindings).bind fun items => ?_
  split
  · exact Quiet.mapM (quiet_parseBinding form) _
  · exact quiet_invalid ..

/-- A warning goes into the log, and is noted in the scopes. Both may change in a quiet action. -/
theorem quiet_warnFree (id : SymbolId) : Quiet (warnFree id) := by
  unfold warnFree
  refine (quiet_asks _ fun _ _ => rfl).bind fun free => ?_
  split
  · exact (quiet_nameOf _).bind fun _ => (quiet_record .warn _ nofun).bind fun _ => quiet_modifyScopes _ fun _ => rfl
  · exact quiet_pure _

/-- A variable takes one instruction, by where it is found. -/
theorem quiet_compileSymbol (id : SymbolId) (env : LexicalEnv) (cont : Value) :
    Quiet (compileSymbol id env cont) := by
  unfold compileSymbol
  refine (quiet_asks _ fun _ _ => rfl).bind fun keyword => ?_
  split
  · exact quiet_emit ..
  · refine (quiet_asks _ fun _ _ => rfl).bind fun special => ?_
    split
    · exact quiet_emit ..
    · split
      · exact quiet_emit ..
      · exact (quiet_warnFree id).bind fun _ => quiet_emit ..

theorem quiet_compileQuote (args cont : Value) : Quiet (compileQuote args cont) := by
  unfold compileQuote
  refine (quiet_elements? args).bind fun items => ?_
  split
  · exact quiet_emit ..
  · exact quiet_invalid ..

/-- So does an assignment of the value on the stack. -/
theorem quiet_emitStore (var : SymbolId) (env : LexicalEnv) (cont : Value) :
    Quiet (emitStore var env cont) := by
  unfold emitStore
  refine (quiet_asks _ fun _ _ => rfl).bind fun special => ?_
  split <;> exact quiet_emit ..

/-- The functions that there are keep their numbers and what is known of them. -/
theorem tames_addAnonymous (arity : Arity) (code : Value) : Tames (addAnonymous arity code) :=
  (quiet_asks _ fun _ _ => rfl).tames.bind fun _ => tames_addFunction _

/-- The number of the new function depends on the table of functions only. -/
theorem even_addAnonymous (arity : Arity) (code : Value) : Even (addAnonymous arity code) :=
  (quiet_asks _ fun _ _ => rfl).even.bind fun _ => even_addFunction _

/-- Special forms, macros and operators of compile time are refused. -/
theorem quiet_checkFunctionName (name : SymbolId) : Quiet (checkFunctionName name) := by
  unfold checkFunctionName
  dsimp only
  split
  · exact (quiet_nameOf _).bind fun _ => quiet_raise_bind _ _ trivial
  · refine (quiet_asks _ fun _ _ => rfl).bind fun cell => ?_
    split
    · refine (quiet_asks _ fun _ _ => rfl).bind fun _ => ?_
      split
      · exact (quiet_nameOf _).bind fun _ => quiet_invalid ..
      · exact quiet_pure _
    · exact (quiet_nameOf _).bind fun _ => quiet_invalid ..
    · refine (quiet_asks _ fun _ _ => rfl).bind fun _ => ?_
      split
      · exact (quiet_nameOf _).bind fun _ => quiet_invalid ..
      · exact quiet_pure _
    · exact quiet_pure _

theorem quiet_checkBlockName (form : String) (name : Value) : Quiet (checkBlockName form name) := by
  unfold checkBlockName
  split
  · exact quiet_pure _
  · exact (quiet_shown _).bind fun _ => quiet_invalid ..

/-- The tags are collected before any form is compiled. -/
theorem quiet_collectTags : ∀ (items before : List Value), Quiet (collectTags before items)
  | [], _ => quiet_pure _
  | item :: items, before => by
    unfold collectTags
    split
    · exact quiet_collectTags items before
    · dsimp only
      split
      · split
        · exact (quiet_shown _).bind fun _ => quiet_raise_bind _ _ trivial
        · exact quiet_collectTags items (item :: before)
      · exact (quiet_shown _).bind fun _ => quiet_raise_bind _ _ trivial

/-- Refuses a return to a block that is not there. -/
def checkTarget (name : Value) : LispM Unit := do
  if ((← get).scopes.targetBlock name).isNone then
    raise (.unmatchedTarget .block (← shown name))

/-- Notes a return from a block. -/
def noteReturn (name : Value) : LispM Unit := do
  checkTarget name
  modifyScopes fun c => (c.targetBlock name).getD c

/-- Compiling a return, with the search for its block as an action of its own. -/
theorem compileReturn_eq (compile : CompileRule) (name form : Value) (env : LexicalEnv) (cont : Value) :
    compileReturn compile name form env cont = (do
      noteReturn name
      let code ← emit .retfrom [name] cont
      compile form env code) := by
  funext s
  simp only [compileReturn, noteReturn, checkTarget, Bind.bind, EStateM.bind, get_apply]
  cases htarget : s.scopes.targetBlock name with
  | none => rfl
  | some scopes =>
    simp only [Option.isNone_some, Bool.false_eq_true, if_false, modifyScopes_apply, Pure.pure,
      EStateM.pure, htarget, Option.getD_some]
    rfl

/-- The search for a block may mark it as captured. The pending tail calls stay as they are. -/
theorem Scopes.pendingTails_targetBlock {c c' : Scopes} {name : Value}
    (h : c.targetBlock name = some c') : c'.pendingTails = c.pendingTails := by
  obtain ⟨blocks, -, rfl⟩ := Option.map_eq_some_iff.1 h
  rfl

/-- Special forms and operators of compile time keep their meaning. To find out whether a name is
    one of these changes nothing. -/
theorem looks_checkRedefinition (form : String) (name : SymbolId) :
    Looks (checkRedefinition form name) := by
  unfold checkRedefinition
  dsimp only
  split
  · exact (looks_nameOf _).bind fun _ => looks_raise_bind _ _ trivial
  · refine (looks_asks _ fun _ _ => rfl).bind fun cell => ?_
    split
    · refine (looks_asks _ fun _ _ => rfl).bind fun _ => ?_
      split
      · exact (looks_nameOf _).bind fun _ => looks_invalid ..
      · exact looks_pure _
    · exact looks_pure _

/-- The interpreters are still, and the pairs of the later one have the tails that they had. -/
structure KeepsTails (s s' : Interpreter) : Prop extends Still s s' where
  cdr : ∀ id, s'.image.heap.cdr id = s.image.heap.cdr id

/-- Closing a block settles tail calls, which always ends. It writes opcodes, which are heads. -/
theorem closeBlock_ends (s : Interpreter) : ∃ a s', closeBlock s = .ok a s' ∧ KeepsTails s s' := by
  have hends : Leads closeBlock s (fun _ s' => KeepsTails s s') fun _ _ => False := by
    unfold closeBlock
    rw [leads_bind, leads_get]
    dsimp only
    split
    · rw [leads_bind, leads_modifyScopes]
      -- Each call to be settled overwrites the `car` of one pair at most: every `cdr` stays, which
      -- is all that `KeepsTails` asks of the heap.
      refine Leads.forM ⟨⟨rfl, rfl, rfl, rfl⟩, fun _ => rfl⟩ fun index _ s₁ h₁ => ?_
      have hsame : KeepsTails s s₁ := h₁
      rw [leads_bind, leads_modifyScopes, leads_bind, leads_get]
      split
      · split
        · rw [leads_heap, leads_modify]
          exact ⟨⟨h₁.symbols, h₁.bindings, h₁.nesting, h₁.marks⟩, h₁.cdr⟩
        · exact ⟨⟨h₁.symbols, h₁.bindings, h₁.nesting, h₁.marks⟩, h₁.cdr⟩
      · exact ⟨⟨h₁.symbols, h₁.bindings, h₁.nesting, h₁.marks⟩, h₁.cdr⟩
    · exact ⟨.refl s, fun _ => rfl⟩
  -- The postcondition above admits no failure, so what is left is a result.
  unfold Leads at hends
  split at hends
  · next heq => exact ⟨_, _, heq, hends⟩
  · exact hends.elim

/-- Tail calls that are settled are written into pairs that exist, so this is neither tame nor
    quiet. -/
theorem mild_closeBlock : Mild closeBlock where
  leads s := by
    obtain ⟨a, s', hs', h⟩ := closeBlock_ends s
    exact (leads_of_ok hs').2 h.toStill

/-- A change of the scopes always ends, and no symbol, no binding and no mark is touched. -/
theorem modifyScopes_ends (g : Scopes → Scopes) (s : Interpreter) :
    ∃ a s', modifyScopes g s = .ok a s' ∧ Still s s' := ⟨(), _, rfl, rfl, rfl, rfl, rfl⟩

/-- It is tame if it leaves the pending tail calls alone. -/
theorem modifyScopes_tame {g : Scopes → Scopes} (hg : ∀ c, (g c).pendingTails = c.pendingTails)
    (s : Interpreter) : ∃ a s', modifyScopes g s = .ok a s' ∧ Tame s s' :=
  ⟨(), _, rfl, ⟨rfl, rfl, rfl, rfl⟩, .refl _, .refl _, rfl, rfl, hg s.scopes⟩

/-! ## What goes through -/

namespace LevelCongruence

variable {𝓡 : ⦃α : Type⦄ → LispM α → LispM α → Prop} (h𝓡 : LevelCongruence 𝓡)
  {compile compile' : CompileRule}
  (hc : ∀ form env cont, 𝓡 (compile form env cont) (compile' form env cont))

include h𝓡 hc

/-- The code for arguments is made from the last one on, each in front of the others. -/
theorem compileArgs (args : List Value) (env : LexicalEnv) (cont : Value) :
    𝓡 (compileArgs compile args env cont) (compileArgs compile' args env cont) :=
  h𝓡.foldrM (fun arg code => hc arg env code) args cont

/-- A body is made from its last form on, with a `POP` after each of the others. -/
theorem compileBody (forms : Value) (env : LexicalEnv) (cont : Value) :
    𝓡 (compileBody compile forms env cont) (compileBody compile' forms env cont) := by
  refine h𝓡.after (quiet_arguments forms) fun items => ?_
  split
  · exact h𝓡.quiet (quiet_emit ..)
  · refine h𝓡.bind (hc ..) fun code => h𝓡.foldlM (fun code form => ?_) _ code
    exact h𝓡.after (quiet_emit ..) fun _ => hc ..

/-- The arms come before the test, each with a continuation of its own or, in tail position, with
    the one of the whole form. -/
theorem compileBranches (test thenForm elseForm : Value) (env : LexicalEnv) (cont : Value) :
    𝓡 (compileBranches compile test thenForm elseForm env cont)
      (compileBranches compile' test thenForm elseForm env cont) := by
  refine h𝓡.after (quiet_tailOf cont) fun tail => ?_
  cases tail with
  | elsewhere =>
    refine h𝓡.after (quiet_emit ..) fun join => ?_
    refine h𝓡.bind (hc ..) fun _ => ?_
    exact h𝓡.bind (hc ..) fun _ =>
      h𝓡.after (quiet_emit ..) fun branch => hc ..
  | toReturn _ | toStop _ =>
    refine h𝓡.bind (hc ..) fun _ => ?_
    exact h𝓡.bind (hc ..) fun _ =>
      h𝓡.after (quiet_emit ..) fun branch => hc ..

theorem compileIf (args : Value) (env : LexicalEnv) (cont : Value) :
    𝓡 (compileIf compile args env cont) (compileIf compile' args env cont) := by
  refine h𝓡.after (quiet_arguments args) fun items => ?_
  split
  · exact h𝓡.compileBranches hc ..
  · exact h𝓡.compileBranches hc ..
  · exact h𝓡.quiet (quiet_invalid ..)

theorem compileAnd (args : Value) (env : LexicalEnv) (cont : Value) :
    𝓡 (compileAnd compile args env cont) (compileAnd compile' args env cont) := by
  refine h𝓡.after (quiet_arguments args) fun items => ?_
  split
  · exact h𝓡.quiet (quiet_emit ..)
  · exact h𝓡.after (Quiet.foldlM (fun _ _ => quiet_heap _) _ _) fun form => hc ..

/-- The nested `if` is made on the heap and compiled as a form. -/
theorem compileOr (args : Value) (env : LexicalEnv) (cont : Value) :
    𝓡 (compileOr compile args env cont) (compileOr compile' args env cont) := by
  refine h𝓡.after (quiet_arguments args) fun items => ?_
  split
  · exact h𝓡.quiet (quiet_emit ..)
  · exact hc ..
  · refine h𝓡.bind (h𝓡.gensym "or") fun g => ?_
    refine h𝓡.bind (h𝓡.declareSpecial g) fun _ => ?_
    refine h𝓡.after (quiet_query _ fun _ _ => rfl) fun others => ?_
    refine h𝓡.after (quiet_heap _) fun otherwise => ?_
    refine h𝓡.after (quiet_heap _) fun test => ?_
    refine h𝓡.after (quiet_emit ..) fun unbind => ?_
    refine h𝓡.bind (hc ..) fun _ => ?_
    exact h𝓡.after (quiet_emit ..) fun _ => hc ..

/-- By recursion on the variables and forms, as the rule goes. -/
theorem compileAssignments (env : LexicalEnv) (cont : Value) :
    ∀ items : List Value, 𝓡 (compileAssignments compile env cont items)
      (compileAssignments compile' env cont items)
  | var :: form :: others => by
    unfold Compiler.compileAssignments
    refine h𝓡.bind (compileAssignments env cont others) fun code => ?_
    -- The code of one assignment is the same whether its value is dropped or is the value of the
    -- whole form; only what it goes on with differs.
    have hend (code : Value) : 𝓡
        (do
          let var ← assignable "setq" var
          let code ← emitStore var env code
          compile form env code)
        (do
          let var ← assignable "setq" var
          let code ← emitStore var env code
          compile' form env code) :=
      h𝓡.after (quiet_assignable ..) fun _ => h𝓡.after (quiet_emitStore ..) fun _ => hc ..
    split
    · exact h𝓡.after (quiet_pure _) fun code => hend code
    · exact h𝓡.after (quiet_emit ..) fun code => hend code
  | [] | [_] => h𝓡.quiet (quiet_pure _)

theorem compileSetq (args : Value) (env : LexicalEnv) (cont : Value) :
    𝓡 (compileSetq compile args env cont) (compileSetq compile' args env cont) := by
  refine h𝓡.after (quiet_arguments args) fun items => ?_
  split
  · exact h𝓡.quiet (quiet_emit ..)
  · split
    · exact h𝓡.quiet (quiet_invalid ..)
    · exact h𝓡.compileAssignments hc ..

omit hc in
theorem declare (form : String) (var : Value) : 𝓡 (declare form var) (declare form var) := by
  unfold Compiler.declare
  split
  · exact h𝓡.bind (h𝓡.declareSpecial _) fun _ => h𝓡.quiet (quiet_pure _)
  · exact h𝓡.quiet ((quiet_shown _).bind fun _ => quiet_invalid ..)

/-- The test for a value and the assignment are a form that is made on the heap. -/
theorem compileDefvar (args : List Value) (env : LexicalEnv) (cont : Value) :
    𝓡 (compileDefvar compile args env cont) (compileDefvar compile' args env cont) := by
  refine h𝓡.bind (h𝓡.declare ..) fun id => ?_
  refine h𝓡.after (quiet_emit ..) fun code => ?_
  split
  · exact h𝓡.quiet (quiet_pure _)
  · refine h𝓡.after (quiet_heap _) fun quoted => ?_
    refine h𝓡.after (quiet_heap _) fun test => ?_
    refine h𝓡.after (quiet_heap _) fun assign => ?_
    refine h𝓡.after (quiet_heap _) fun form => ?_
    exact h𝓡.after (quiet_emit ..) fun pop => hc ..

theorem compileDefparameter (args : List Value) (env : LexicalEnv) (cont : Value) :
    𝓡 (compileDefparameter compile args env cont) (compileDefparameter compile' args env cont) := by
  refine h𝓡.bind (h𝓡.declare ..) fun id => ?_
  refine h𝓡.after (quiet_emit ..) fun code => ?_
  refine h𝓡.after (quiet_heap _) fun assign => ?_
  exact h𝓡.after (quiet_emit ..) fun pop => hc ..

theorem compileNamedCall (name : SymbolId) (arity : Arity) (args : Value) (env : LexicalEnv)
    (cont : Value) : 𝓡 (compileNamedCall compile name arity args env cont)
      (compileNamedCall compile' name arity args env cont) := by
  refine h𝓡.after (quiet_arguments args) fun argv => ?_
  refine h𝓡.after (quiet_nameOf _) fun _ => ?_
  refine h𝓡.after (quiet_ofExcept _) fun _ => ?_
  refine h𝓡.bind (h𝓡.emitApply ..) fun code => ?_
  exact h𝓡.bind (h𝓡.compileArgs hc ..) fun code => h𝓡.quiet (quiet_emit ..)

end LevelCongruence

namespace Congruence

variable {𝓡 : ⦃α : Type⦄ → LispM α → LispM α → Prop} (h𝓡 : Congruence 𝓡)
  {compile compile' : CompileRule}

include h𝓡

/-- A change of the scopes. -/
theorem rescope {g : Scopes → Scopes} (hg : ∀ c, (g c).pendingTails = c.pendingTails) :
    𝓡 (modifyScopes g) (modifyScopes g) := h𝓡.tame (tames_modifyScopes g hg) (even_modifyScopes g)

/-- A change of the scopes may follow an action, also if that fails. -/
theorem finish {x y : LispM α} {g : Scopes → Scopes} (hxy : 𝓡 x y)
    (hg : ∀ c, (g c).pendingTails = c.pendingTails) :
    𝓡 (do let result ← attempt x; modifyScopes g; resume result)
      (do let result ← attempt y; modifyScopes g; resume result) :=
  h𝓡.guard hxy (fun _ => (tames_modifyScopes g hg).bind fun _ => (quiet_pure _).tames)
    (fun e => (rethrows_throw Tame.refl e).after Tame.trans (modifyScopes_tame hg))
    fun r => (even_modifyScopes g).bind fun _ => even_resume r

/-- The depth of functions is set back also when the body does not compile. -/
theorem insideFunction {x y : LispM α} (hxy : 𝓡 x y) :
    𝓡 (insideFunction x) (insideFunction y) :=
  h𝓡.bind (h𝓡.rescope fun _ => rfl) fun _ => h𝓡.finish hxy fun _ => rfl

/-- No block or tagbody around a definition can be the target of an exit in it. -/
theorem outsideExits {x y : LispM α} (hxy : 𝓡 x y) : 𝓡 (outsideExits x) (outsideExits y) :=
  h𝓡.afterScopes (fun _ => h𝓡.bind (h𝓡.rescope fun _ => rfl) fun _ => h𝓡.finish hxy fun _ => rfl)
    (fun s t h => by rw [h]) fun s t h => by rw [h]

/-- The tagbody is taken away again also when its items do not compile. -/
theorem withTags {x y : LispM α} (id : Value) (tags : List Value) (hxy : 𝓡 x y) :
    𝓡 (withTags id tags x) (withTags id tags y) :=
  h𝓡.bind (h𝓡.rescope fun _ => rfl) fun _ => h𝓡.finish hxy fun _ => rfl

section

variable (hc : ∀ form env cont, 𝓡 (compile form env cont) (compile' form env cont))

include hc

/-- The code that ends the bindings of special parameters is emitted first, then the body in front
    of it, then the code that makes them. -/
theorem compileFunctionBody (frame : LexicalFrame) (body : Value) (env : LexicalEnv) :
    𝓡 (compileFunctionBody compile frame body env) (compileFunctionBody compile' frame body env) := by
  refine h𝓡.after (quiet_asks _ fun _ _ => rfl) fun specials => ?_
  refine h𝓡.after (quiet_emit ..) fun rtn => ?_
  refine h𝓡.after (Quiet.foldlM (fun _ _ => quiet_emit ..) _ _) fun tail => ?_
  refine h𝓡.bind (h𝓡.insideFunction (h𝓡.compileBody hc ..)) fun code => h𝓡.quiet ?_
  exact Quiet.foldrM (fun _ _ => (quiet_emit ..).bind fun _ => quiet_emit ..) _ _

theorem compileFunction (name : Option SymbolId) (kind : FunctionKind) (params body : Value)
    (env : LexicalEnv) : 𝓡 (compileFunction compile name kind params body env)
      (compileFunction compile' name kind params body env) :=
  h𝓡.after (quiet_parseLambdaList ..) fun _ => h𝓡.bind (h𝓡.compileFunctionBody hc ..) fun _ =>
    h𝓡.after (quiet_asks _ fun _ _ => rfl) fun _ => h𝓡.tame (tames_addFunction _) (even_addFunction _)

theorem compileLambda (args : Value) (env : LexicalEnv) (cont : Value) :
    𝓡 (compileLambda compile args env cont) (compileLambda compile' args env cont) :=
  h𝓡.after (quiet_query _ fun _ _ => rfl) fun _ => h𝓡.after (quiet_query _ fun _ _ => rfl) fun _ =>
    h𝓡.bind (h𝓡.compileFunction hc ..) fun _ => h𝓡.quiet (quiet_emit ..)

/-- The lambda list is looked at twice: for the number of its arguments, and when it is compiled. -/
theorem compileLambdaCall (lambda args : Value) (env : LexicalEnv) (cont : Value) :
    𝓡 (compileLambdaCall compile lambda args env cont)
      (compileLambdaCall compile' lambda args env cont) := by
  refine h𝓡.after (quiet_arguments args) fun argv => ?_
  refine h𝓡.after (quiet_query _ fun _ _ => rfl) fun params => ?_
  refine h𝓡.after (quiet_parseLambdaList ..) fun frame => ?_
  refine h𝓡.after (quiet_ofExcept _) fun _ => ?_
  refine h𝓡.bind (h𝓡.emitApply ..) fun code => ?_
  refine h𝓡.bind (h𝓡.compileArgs hc ..) fun code => ?_
  exact h𝓡.after (quiet_query _ fun _ _ => rfl) fun _ => h𝓡.compileLambda hc ..

theorem compileLet (args : Value) (env : LexicalEnv) (cont : Value) :
    𝓡 (compileLet compile args env cont) (compileLet compile' args env cont) := by
  refine h𝓡.after (quiet_query _ fun _ _ => rfl) fun _ => ?_
  refine h𝓡.after (quiet_query _ fun _ _ => rfl) fun body => ?_
  refine h𝓡.after (quiet_parseBindings ..) fun bindings => ?_
  split
  · exact h𝓡.compileBody hc ..
  · refine h𝓡.bind (h𝓡.compileFunctionBody hc ..) fun code => ?_
    refine h𝓡.bind (h𝓡.tame (tames_addAnonymous ..) (even_addAnonymous ..)) fun f => ?_
    refine h𝓡.bind (h𝓡.emitApply ..) fun code => ?_
    exact h𝓡.bind (h𝓡.compileArgs hc ..) fun code => h𝓡.quiet (quiet_emit ..)

/-- All bindings but the first go into an inner form that is made on the heap. -/
theorem compileLetStar (args : Value) (env : LexicalEnv) (cont : Value) :
    𝓡 (compileLetStar compile args env cont) (compileLetStar compile' args env cont) := by
  refine h𝓡.after (quiet_query _ fun _ _ => rfl) fun _ => ?_
  refine h𝓡.after (quiet_query _ fun _ _ => rfl) fun body => ?_
  refine h𝓡.after (quiet_elements? _) fun items => ?_
  split
  · exact h𝓡.quiet (quiet_invalid ..)
  · refine h𝓡.after (quiet_query _ fun _ _ => rfl) fun others => ?_
    refine h𝓡.after (quiet_heap _) fun inner => ?_
    refine h𝓡.after (quiet_heap _) fun inner => ?_
    refine h𝓡.after (quiet_heap _) fun first => ?_
    refine h𝓡.after (quiet_heap _) fun outerBody => ?_
    refine h𝓡.after (quiet_heap _) fun outer => ?_
    exact h𝓡.compileLet hc ..
  · exact h𝓡.compileLet hc ..

/-- The body is compiled before the values, and both in the scope of the variables. -/
theorem compileLetrec (args : Value) (env : LexicalEnv) (cont : Value) :
    𝓡 (compileLetrec compile args env cont) (compileLetrec compile' args env cont) := by
  refine h𝓡.after (quiet_query _ fun _ _ => rfl) fun _ => ?_
  refine h𝓡.after (quiet_query _ fun _ _ => rfl) fun body => ?_
  refine h𝓡.after (quiet_parseBindings ..) fun bindings => ?_
  split
  · exact h𝓡.compileBody hc ..
  · refine h𝓡.after (quiet_asks _ fun _ _ => rfl) fun special => ?_
    dsimp only
    split
    · exact h𝓡.quiet ((quiet_nameOf _).bind fun _ => quiet_raise_bind _ _ trivial)
    · refine h𝓡.after (quiet_emit ..) fun rtn => ?_
      refine h𝓡.bind (h𝓡.insideFunction (h𝓡.compileBody hc ..)) fun code => ?_
      refine h𝓡.bind (h𝓡.tame (tames_addAnonymous ..) (even_addAnonymous ..)) fun f => ?_
      refine h𝓡.after (quiet_emit ..) fun code => ?_
      refine h𝓡.bind (h𝓡.compileArgs hc ..) fun code => h𝓡.quiet ?_
      exact (quiet_emit ..).bind fun _ => quiet_emit ..

theorem compileFunctionForm (args : Value) (env : LexicalEnv) (cont : Value) :
    𝓡 (compileFunctionForm compile args env cont) (compileFunctionForm compile' args env cont) := by
  refine h𝓡.after (quiet_query _ fun _ _ => rfl) fun target => h𝓡.after (quiet_asks _ fun _ _ => rfl) fun lambda? => ?_
  split
  · exact h𝓡.compileLambda hc ..
  · split
    · exact h𝓡.quiet ((quiet_checkFunctionName _).bind fun _ => quiet_emit ..)
    · exact h𝓡.quiet ((quiet_shown _).bind fun _ => quiet_invalid ..)

/-- The block is closed also when its body does not compile. -/
theorem compileInBlock (name body : Value) (env : LexicalEnv) (cont : Value) :
    𝓡 (compileInBlock compile name body env cont) (compileInBlock compile' name body env cont) :=
  h𝓡.bind (h𝓡.rescope fun _ => rfl) fun _ => h𝓡.closeBlock (h𝓡.compileBody hc ..)

theorem compileBlock (args : Value) (env : LexicalEnv) (cont : Value) :
    𝓡 (compileBlock compile args env cont) (compileBlock compile' args env cont) := by
  refine h𝓡.after (quiet_query _ fun _ _ => rfl) fun name => ?_
  refine h𝓡.after (quiet_checkBlockName ..) fun _ => ?_
  refine h𝓡.after (quiet_query _ fun _ _ => rfl) fun body => ?_
  refine h𝓡.after (quiet_emit ..) fun blockEnd => ?_
  exact h𝓡.bind (h𝓡.compileInBlock hc ..) fun code => h𝓡.quiet (quiet_emit ..)

omit hc in
/-- Looking for the block of a return marks it, and fails if there is none. -/
theorem noteReturn (name : Value) : 𝓡 (noteReturn name) (noteReturn name) := by
  refine h𝓡.bind (h𝓡.afterScopes (fun s => ?_) ?_ ?_) fun _ => h𝓡.rescope fun c => ?_
  · split
    · exact h𝓡.after (quiet_shown _) fun _ => h𝓡.reject ..
    · exact h𝓡.quiet (quiet_pure _)
  · exact fun s t h => by rw [h]
  · exact fun s t h => by rw [h]
  · cases htarget : c.targetBlock name with
    | none => rfl
    | some c' => exact Scopes.pendingTails_targetBlock htarget

omit hc in
theorem compileGo (args cont : Value) : 𝓡 (compileGo args cont) (compileGo args cont) := by
  refine h𝓡.after (quiet_query _ fun _ _ => rfl) fun tag => h𝓡.afterScopes (fun s => ?_) ?_ ?_
  · split
    · exact h𝓡.quiet (quiet_emit ..)
    · exact h𝓡.after (quiet_shown _) fun _ => h𝓡.reject ..
  · exact fun s t h => by rw [h]
  · exact fun s t h => by rw [h]

theorem compileReturn (name form : Value) (env : LexicalEnv) (cont : Value) :
    𝓡 (compileReturn compile name form env cont) (compileReturn compile' name form env cont) := by
  rw [compileReturn_eq, compileReturn_eq]
  exact h𝓡.bind (h𝓡.noteReturn name) fun _ =>
    h𝓡.after (quiet_emit ..) fun _ => hc ..

theorem compileReturnFrom (args : List Value) (env : LexicalEnv) (cont : Value) :
    𝓡 (compileReturnFrom compile args env cont) (compileReturnFrom compile' args env cont) :=
  h𝓡.after (quiet_checkBlockName ..) fun _ => h𝓡.compileReturn hc ..

/-- The items are compiled from the last one on. A tag is paired with the code that has been made by
    then. -/
theorem compileTagbody (items : List Value) (env : LexicalEnv) (cont : Value) :
    𝓡 (compileTagbody compile items env cont) (compileTagbody compile' items env cont) := by
  refine h𝓡.after (quiet_collectTags items []) fun tags => ?_
  refine h𝓡.bind (h𝓡.gensym "tagbody") fun id => ?_
  refine h𝓡.bind (h𝓡.withTags _ _ ?_) fun _ => h𝓡.quiet (quiet_emit ..)
  refine h𝓡.after (quiet_emit ..) fun tagEnd => h𝓡.bind (h𝓡.foldrM (fun item code => ?_) _ _) fun _ =>
    h𝓡.quiet ((quiet_heap _).bind fun _ => quiet_pure _)
  dsimp only
  split
  · refine h𝓡.after (quiet_emit ..) fun _ => ?_
    exact h𝓡.bind (hc ..) fun _ => h𝓡.quiet (quiet_pure _)
  · exact h𝓡.quiet ((quiet_heap _).bind fun _ => quiet_pure _)

/-- One case for each of the operators. -/
theorem compileOperator (operator : Operator) (args : Value) (argv : List Value) (env : LexicalEnv)
    (cont : Value) : 𝓡 (compileOperator compile operator args argv env cont)
      (compileOperator compile' operator args argv env cont) := by
  cases operator with
  | function => exact h𝓡.compileFunctionForm hc ..
  | block => exact h𝓡.compileBlock hc ..
  | returnFrom => exact h𝓡.compileReturnFrom hc ..
  | returnNil => exact h𝓡.compileReturn hc ..
  | tagbody => exact h𝓡.compileTagbody hc ..
  | go => exact h𝓡.compileGo ..
  | defvar => exact h𝓡.compileDefvar hc ..
  | defparameter => exact h𝓡.compileDefparameter hc ..

/-- The operators have rules of their own. Of the other primitives, some are called by an
    instruction of their own, and the rest like functions. -/
theorem compilePrimitiveCall (id : PrimitiveId) (args : Value) (env : LexicalEnv) (cont : Value) :
    𝓡 (compilePrimitiveCall compile id args env cont)
      (compilePrimitiveCall compile' id args env cont) := by
  refine h𝓡.after (quiet_asks _ fun _ _ => rfl) fun p => ?_
  refine h𝓡.after (quiet_arguments args) fun argv => ?_
  refine h𝓡.after (quiet_nameOf _) fun _ => ?_
  refine h𝓡.after (quiet_ofExcept _) fun _ => ?_
  split
  · exact h𝓡.compileOperator hc ..
  · split
    · exact h𝓡.after (quiet_emit ..) fun code => h𝓡.compileArgs hc ..
    · exact h𝓡.bind (h𝓡.emitApply ..) fun code =>
        h𝓡.bind (h𝓡.compileArgs hc ..) fun code => h𝓡.quiet (quiet_emit ..)

/-- Whatever scopes an earlier form has left are forgotten first. -/
theorem compileToplevel (form : Value) :
    𝓡 (compileToplevel compile form) (compileToplevel compile' form) := by
  refine h𝓡.bind h𝓡.forget fun _ => ?_
  refine h𝓡.after (quiet_record .debug _ nofun) fun _ => ?_
  refine h𝓡.after (quiet_emit ..) fun stop => h𝓡.guard (hc ..) (fun _ => (quiet_pure _).tames)
    (fun e => ?_) fun r => ?_
  · exact (rethrows_throw Tame.refl e).after Tame.trans (modifyScopes_tame fun _ => rfl)
  · cases r with
    | ok code => exact even_pure _
    | error e => exact (even_modifyScopes _).bind fun _ => even_throw e

/-- A form that is compiled while another one is gets scopes of its own, and gives them up at the
    end. -/
theorem compileApart (form : Value) : 𝓡 (compileApart compile form) (compileApart compile' form) :=
  h𝓡.apart (h𝓡.compileToplevel hc form)

end

end Congruence

/-- Where pairs and pending tail calls do not matter, calls and the ends of blocks are as the
    rest. -/
theorem MildCongruence.congruence {𝓡 : ⦃α : Type⦄ → LispM α → LispM α → Prop}
    (h𝓡 : MildCongruence 𝓡) : Congruence 𝓡 where
  quiet hx := h𝓡.mild hx.mild
  bind := h𝓡.bind
  gensym := h𝓡.gensym
  tame hx _ := h𝓡.mild hx.mild
  guard hx hok herr _ := h𝓡.guard hx (fun a => (hok a).mild) fun e =>
    (herr e).mono fun _ _ h => h.toStill
  declareSpecial := h𝓡.declareSpecial
  emitApply argc cont := h𝓡.mild (mild_emitApply argc cont)
  reject _ _ := h𝓡.mild ⟨Still.refl⟩
  forget := h𝓡.mild ⟨fun _ => ⟨rfl, rfl, rfl, rfl⟩⟩
  -- What was noted for the block is settled after a success and after a failure alike.
  closeBlock hxy := h𝓡.guard hxy
    (fun _ => mild_closeBlock.bind fun _ => (quiet_pure _).mild)
    fun e => (rethrows_throw Still.refl e).after Still.trans fun s => by
      obtain ⟨a, s', hs', h⟩ := closeBlock_ends s
      exact ⟨a, s', hs', h.toStill⟩
  -- The scopes are set aside, and put back however the compilation ends.
  apart hxy := by
    have hreset (g : Scopes → Scopes) : Mild (modifyScopes g) := ⟨fun _ => ⟨rfl, rfl, rfl, rfl⟩⟩
    refine h𝓡.bind (h𝓡.mild ⟨Still.refl⟩) fun s => ?_
    refine h𝓡.bind (h𝓡.mild (hreset _)) fun _ => ?_
    exact h𝓡.guard hxy (fun _ => (hreset _).bind fun _ => (quiet_pure _).mild)
      fun e => (rethrows_throw Still.refl e).after Still.trans (modifyScopes_ends _)

/-! ## Definitions -/

/-- A definition, given how its function is compiled: from its name, parameters and body. -/
def definitionBy (make : SymbolId → Value → Value → LispM FunctionId) (kind : FunctionKind)
    (args cont : Value) : LispM Value := do
  let form := if kind = .macroFunction then "defmacro" else "defun"
  match ← arguments args with
  | nameForm :: params :: _ =>
    let some name := nameForm.symbol? | invalid form (.notSymbol (← shown nameForm))
    checkRedefinition form name
    let frame ← parseLambdaList form params
    let previous ← asks (·.symbols.cell name)
    SymbolTable.setCell name (.pending (frameArity frame) kind)
    let body ← query fun image => do image.heap.tail (← image.heap.tail args)
    let body ← Heap.cons (.ofSymbol name) body
    let block ← Heap.cons (.symbol .block) body
    let body ← Heap.list [block]
    let f ← match ← attempt (make name params body) with
      | .ok f => pure f
      | .error e =>
        SymbolTable.setCell name previous
        throw e
    if kind = .macroFunction then
      addExpander f
    SymbolTable.setCell name (.function f)
    Image.record .debug fun image =>
      let what := if kind = .macroFunction then "macro" else "function"
      s!"defined {what} {image.symbols.name name}"
    emit .ldc [.ofSymbol name] cont
  | _ => invalid form .nameAndParameters

/-- A definition, in terms of how its function is compiled and of what is done around that. -/
theorem compileDefinition_eq (compile : CompileRule) (kind : FunctionKind) (args cont : Value) :
    compileDefinition compile kind args cont = definitionBy (fun name params body =>
      outsideExits (compileFunction compile name kind params body [])) kind args cont := rfl

/-- A congruence that also goes through definitions. -/
structure DefiningCongruence (𝓡 : ⦃α : Type⦄ → LispM α → LispM α → Prop) : Prop
    extends Congruence 𝓡 where
  definition : ∀ {make make' : SymbolId → Value → Value → LispM FunctionId},
    (∀ name params body, 𝓡 (make name params body) (make' name params body)) →
    ∀ kind args cont, 𝓡 (definitionBy make kind args cont) (definitionBy make' kind args cont)

namespace DefiningCongruence

variable {𝓡 : ⦃α : Type⦄ → LispM α → LispM α → Prop} (h𝓡 : DefiningCongruence 𝓡)
  {compile compile' : CompileRule} {expand expand' : ExpandRule}
  (hc : ∀ form env cont, 𝓡 (compile form env cont) (compile' form env cont))

include h𝓡 hc

theorem compileDefinition (kind : FunctionKind) (args cont : Value) :
    𝓡 (compileDefinition compile kind args cont) (compileDefinition compile' kind args cont) := by
  rw [compileDefinition_eq, compileDefinition_eq]
  refine h𝓡.definition (fun name params body => ?_) kind args cont
  exact h𝓡.toCongruence.outsideExits (h𝓡.toCongruence.compileFunction hc ..)

/-- One case for each of the special forms. The two that define are left to what a
    `DefiningCongruence` asks for. -/
theorem compileSpecialForm (form : SpecialForm) (args : Value) (env : LexicalEnv) (cont : Value) :
    𝓡 (compileSpecialForm compile form args env cont)
      (compileSpecialForm compile' form args env cont) := by
  have h := h𝓡.toCongruence
  cases form with
  | quoteForm => exact h.quiet (quiet_compileQuote ..)
  | ifForm => exact h.compileIf hc ..
  | prognForm => exact h.compileBody hc ..
  | setqForm => exact h.compileSetq hc ..
  | lambdaForm => exact h.compileLambda hc ..
  | letForm => exact h.compileLet hc ..
  | letStarForm => exact h.compileLetStar hc ..
  | letrecForm => exact h.compileLetrec hc ..
  | andForm => exact h.compileAnd hc ..
  | orForm => exact h.compileOr hc ..
  | defunForm | defmacroForm => exact h𝓡.compileDefinition hc ..

section

variable (he : ∀ f args, 𝓡 (expand f args) (expand' f args))

include he

/-- A macro call is expanded, by `expand`, and its expansion compiled, by `compile`. Any other call
    is compiled by a rule. -/
theorem compileSymbolCall (name : SymbolId) (args : Value) (env : LexicalEnv) (cont : Value) :
    𝓡 (compileSymbolCall compile expand name args env cont)
      (compileSymbolCall compile' expand' name args env cont) := by
  have h := h𝓡.toCongruence
  unfold Compiler.compileSymbolCall
  split
  · exact h𝓡.compileSpecialForm hc ..
  · refine h.after (quiet_asks _ fun _ _ => rfl) fun cell => ?_
    split
    · exact h.compilePrimitiveCall hc ..
    · refine h.after (quiet_asks _ fun _ _ => rfl) fun function => ?_
      split
      · exact h.bind (he ..) fun expansion => hc ..
      · exact h.compileNamedCall hc ..
    · exact h.quiet ((quiet_nameOf _).bind fun _ => quiet_invalid ..)
    · exact h.compileNamedCall hc ..
    · exact h.quiet ((quiet_nameOf _).bind fun _ => quiet_raise _ trivial)

/-- A call is a proper list with a symbol or a `lambda` form as its head. -/
theorem compilePair (id : PairId) (env : LexicalEnv) (cont : Value) :
    𝓡 (compilePair compile expand id env cont) (compilePair compile' expand' id env cont) := by
  have h := h𝓡.toCongruence
  refine h.after (quiet_asks _ fun _ _ => rfl) fun args =>
    h.after (quiet_walk _ (fun _ _ => rfl) fun _ _ => Heap.isProperList_ordinary) fun proper => ?_
  dsimp only
  split
  · refine h.after (quiet_asks _ fun _ _ => rfl) fun head => ?_
    split
    · exact h𝓡.compileSymbolCall hc he ..
    · refine h.after (quiet_asks _ fun _ _ => rfl) fun isLambda => ?_
      split
      · exact h.compileLambdaCall hc ..
      · exact h.quiet ((quiet_shown _).bind fun _ => quiet_invalid ..)
  · exact h.quiet ((quiet_shown _).bind fun _ => quiet_raise_bind _ _ trivial)

/-- Every congruence goes from the compiler for the forms inside to that for the form. -/
theorem compileForm (form : Value) (env : LexicalEnv) (cont : Value) :
    𝓡 (compileForm compile expand form env cont) (compileForm compile' expand' form env cont) := by
  unfold Compiler.compileForm
  split
  · exact h𝓡.quiet (quiet_compileSymbol ..)
  · exact h𝓡.compilePair hc he ..
  · exact h𝓡.quiet (quiet_emit ..)

end

end DefiningCongruence

end StackLisp
