import StackLisp.Proofs.Actions.Steady

/-!
# What encloses a form

A second compiler carries along what encloses a form in the text (`Enclosure`): the blocks and
tagbodies around it, up to the definition that it is part of, and the number of functions. It is
told by the rule of each form what encloses the forms inside (`Compiler.compileFormWithin`), and
decides by this alone whether a `return-from` or a `go` has a target. At every form it looks
whether the scopes say the same.

What this has to do with the compiler is stated for a relation between actions within an
enclosure (`EnclosedCongruence`): it goes from the rules to the compiler and the machine as a
whole (`EnclosedCongruence.engine`).
-/

namespace StackLisp

open Interpreter Machine Compiler

/-! ## What encloses a form -/

/-- What encloses a form inside of the innermost definition around it, the innermost first. -/
structure Enclosure where
  /-- The names of the blocks. -/
  blocks : List Value := []
  /-- The tags of the tagbodies. -/
  tagbodies : List (List Value) := []
  /-- The number of functions, also of those around the definition. -/
  functions : Nat := 0
deriving DecidableEq, Repr

namespace Enclosure

variable (e : Enclosure)

/-- Inside of a block. -/
def block (name : Value) : Enclosure := { e with blocks := name :: e.blocks }

/-- Inside of a tagbody. -/
def tagbody (tags : List Value) : Enclosure := { e with tagbodies := tags :: e.tagbodies }

/-- Inside of the body of a function, of a `let` or of a `letrec`. -/
def function : Enclosure := { e with functions := e.functions + 1 }

/-- Outside of all exits. -/
def outside : Enclosure := { functions := e.functions }

/-- Inside of a definition: the exits around it are out of reach. -/
def definition : Enclosure := e.outside.function

/-- What the scopes say. -/
def ofScopes (c : Scopes) : Enclosure where
  blocks := c.blocks.map (·.name)
  tagbodies := c.tagbodies.map (·.tags)
  functions := c.functionDepth

end Enclosure

/-- What stays the same in the scopes while a form is compiled. -/
structure Outline where
  blocks : List (Value × Nat)
  tagbodies : List TagScope
  functions : Nat
deriving DecidableEq, Repr

/-- The blocks with the number of functions around them, the tagbodies and the number of
    functions around the form. -/
def Scopes.outline (c : Scopes) : Outline where
  blocks := c.blocks.map fun b => (b.name, b.functionDepth)
  tagbodies := c.tagbodies
  functions := c.functionDepth

/-! ## The compiler that carries it along -/

namespace Compiler

/-- The items of a tagbody that are tags. -/
def tagsOf (items : List Value) : List Value := items.filter (!·.isPair)

section

variable (inner outer : CompileRule)

/-- `((lambda params body ...) arg ...)`, where the body and the arguments are compiled by rules
    of their own. -/
def compileLambdaCallBy (lambda args : Value) (env : LexicalEnv) (cont : Value) : LispM Value := do
  let argv ← arguments args
  let params ← query (·.heap.second lambda)
  let frame ← parseLambdaList "lambda" params
  ofExcept ((frameArity frame).check "lambda" argv.length)
  let code ← emitApply argv.length cont
  let code ← compileArgs outer argv env code
  compileLambda inner (← query (·.heap.tail lambda)) env code

/-- `(let bindings body ...)`, where the body and the initial values are compiled by rules of
    their own. Without bindings there is no function. -/
def compileLetBy (args : Value) (env : LexicalEnv) (cont : Value) : LispM Value := do
  let bindings ← query (·.heap.head args)
  let body ← query (·.heap.tail args)
  let bindings ← parseBindings "let" bindings
  if bindings.isEmpty then
    compileBody outer body env cont
  else
    let code ← compileFunctionBody inner { names := bindings.map (·.1) } body env
    let f ← addAnonymous (.exactly bindings.length) code
    let code ← emitApply bindings.length cont
    let code ← compileArgs outer (bindings.map (·.2)) env code
    emit .ldf [.function f] code

/-- `(let* (b ...) body ...)`: a `let` of the first binding around a `let*` of the others. -/
def compileLetStarBy (args : Value) (env : LexicalEnv) (cont : Value) : LispM Value := do
  let bindings ← query (·.heap.head args)
  let body ← query (·.heap.tail args)
  match ← elements? bindings with
  | none => invalid "let*" .bindingsNotList
  | some (first :: _ :: _) =>
    let others ← query (·.heap.tail bindings)
    let form ← Heap.cons others body
    let form ← Heap.cons (.symbol .letStar) form
    let first ← Heap.list [first]
    let outerBody ← Heap.list [form]
    let form ← Heap.cons first outerBody
    compileLetBy inner outer form env cont
  | some _ => compileLetBy inner outer args env cont

/-- `(letrec bindings body ...)`, where the body and the initial values are compiled by rules of
    their own: the values see the variables, but are computed outside of the function. -/
def compileLetrecBy (args : Value) (env : LexicalEnv) (cont : Value) : LispM Value := do
  let bindings ← query (·.heap.head args)
  let body ← query (·.heap.tail args)
  let bindings ← parseBindings "letrec" bindings
  if bindings.isEmpty then
    compileBody outer body env cont
  else
    let names := bindings.map (·.1)
    if let some name ← asks fun image => names.find? image.symbols.isSpecial then
      invalid "letrec" (.specialVariable (← nameOf name))
    let count := names.length
    let frame : LexicalEnv := { names } :: env
    let rtn ← emit .rtn [] .nil
    let code ← insideFunction (compileBody inner body frame rtn)
    let f ← addAnonymous (.exactly count) code
    let code ← emit .rap [.ofNat count] cont
    let code ← compileArgs outer (bindings.map (·.2)) frame code
    let code ← emit .ldf [.function f] code
    emit .dum [.ofNat count] code

end

/-- Refuses an exit without a target. -/
def unmatched (kind : TargetKind) (target : Value) : LispM Value := do
  raise (.unmatchedTarget kind (← shown target))

section

variable (compile : Enclosure → CompileRule) (expand : ExpandRule)
  (reject : TargetKind → Value → LispM Value) (e : Enclosure)

/-- `(block name form ...)`, without its head: the block encloses the forms. -/
def compileBlockWithin (args : Value) (env : LexicalEnv) (cont : Value) : LispM Value := do
  let name ← query (·.heap.head args)
  compileBlock (compile (e.block name)) args env cont

/-- The return of the value of a form from a block that encloses it. -/
def compileReturnWithin (name form : Value) (env : LexicalEnv) (cont : Value) : LispM Value :=
  if name ∈ e.blocks then do
    modifyScopes fun c => (c.targetBlock name).getD c
    let code ← emit .retfrom [name] cont
    compile e form env code
  else
    reject .block name

/-- `(tagbody item ...)`, without its head: the tagbody encloses the forms. -/
def compileTagbodyWithin (items : List Value) (env : LexicalEnv) (cont : Value) : LispM Value :=
  compileTagbody (compile (e.tagbody (tagsOf items))) items env cont

/-- `(go tag)`, without its head: to a tag of a tagbody that encloses it. -/
def compileGoWithin (args cont : Value) : LispM Value := do
  let tag ← query (·.heap.head args)
  if e.tagbodies.any (·.contains tag) then
    let id := ((← get).scopes.targetTag tag).getD .nil
    emit .go [id, tag] cont
  else
    reject .tag tag

/-- The form of an operator. -/
def compileOperatorWithin (operator : Operator) (args : Value) (argv : List Value)
    (env : LexicalEnv) (cont : Value) : LispM Value :=
  match operator with
  | .function => compileFunctionForm (compile e.function) args env cont
  | .block => compileBlockWithin compile e args env cont
  | .returnFrom => do
    let name := argv.headD .nil
    checkBlockName "return-from" name
    compileReturnWithin compile reject e name ((argv[1]?).getD .nil) env cont
  | .returnNil => compileReturnWithin compile reject e .nil (argv.headD .nil) env cont
  | .tagbody => compileTagbodyWithin compile e argv env cont
  | .go => compileGoWithin reject e args cont
  | .defvar => compileDefvar (compile e) argv env cont
  | .defparameter => compileDefparameter (compile e) argv env cont

/-- A call of a primitive. -/
def compilePrimitiveCallWithin (id : PrimitiveId) (args : Value) (env : LexicalEnv) (cont : Value) :
    LispM Value := do
  let p ← asks (·.primitives.get id)
  let argv ← arguments args
  ofExcept (p.arity.check (← nameOf p.name) argv.length)
  match p.operator with
  | some operator => compileOperatorWithin compile reject e operator args argv env cont
  | none =>
    if p.inlined then
      let code ← emit .callp [.primitive id, .ofNat argv.length] cont
      compileArgs (compile e) argv env code
    else
      let code ← emitApply argv.length cont
      let code ← compileArgs (compile e) argv env code
      emit .ldc [.primitive id] code

/-- A special form. -/
def compileSpecialFormWithin (form : SpecialForm) (args : Value) (env : LexicalEnv) (cont : Value) :
    LispM Value :=
  match form with
  | .quoteForm => compileQuote args cont
  | .ifForm => compileIf (compile e) args env cont
  | .prognForm => compileBody (compile e) args env cont
  | .setqForm => compileSetq (compile e) args env cont
  | .lambdaForm => compileLambda (compile e.function) args env cont
  | .letForm => compileLetBy (compile e.function) (compile e) args env cont
  | .letStarForm => compileLetStarBy (compile e.function) (compile e) args env cont
  | .letrecForm => compileLetrecBy (compile e.function) (compile e) args env cont
  | .andForm => compileAnd (compile e) args env cont
  | .orForm => compileOr (compile e) args env cont
  | .defunForm => compileDefinition (compile e.definition) .function args cont
  | .defmacroForm => compileDefinition (compile e.definition) .macroFunction args cont

/-- A form whose head is a symbol. An expansion is enclosed by what encloses the macro call. -/
def compileSymbolCallWithin (name : SymbolId) (args : Value) (env : LexicalEnv) (cont : Value) :
    LispM Value := do
  match name.specialForm? with
  | some form => compileSpecialFormWithin compile e form args env cont
  | none =>
    match ← asks (·.symbols.cell name) with
    | .primitive id => compilePrimitiveCallWithin compile reject e id args env cont
    | .function f =>
      let function ← asks (·.function f)
      if function.isMacro then
        let expansion ← expand f args
        compile e expansion env cont
      else
        compileNamedCall (compile e) name function.arity args env cont
    | .pending _ .macroFunction => invalid "defmacro" (.macroInItself (← nameOf name))
    | .pending arity .function => compileNamedCall (compile e) name arity args env cont
    | .unbound => raise (.undefinedFunction (← nameOf name))

/-- A form that is a pair. -/
def compilePairWithin (id : PairId) (env : LexicalEnv) (cont : Value) : LispM Value := do
  let args ← asks (·.heap.cdr id)
  unless ← walk (·.heap.isProperList args) do
    invalid "call" (.dottedCall (← shown (.pair id)))
  match ← asks (·.heap.car id) with
  | .symbol name => compileSymbolCallWithin compile expand reject e name args env cont
  | head =>
    let isLambda ← asks fun image =>
      match head with
      | .pair head => image.heap.car head == Value.symbol .lambda
      | _ => false
    if isLambda then
      compileLambdaCallBy (compile e.function) (compile e) head args env cont
    else
      invalid "call" (.notFunctionName (← shown head))

/-- Compiles a form, in terms of the compiler for the forms inside, each of which is told what
    encloses it. -/
def compileFormWithin (form : Value) (env : LexicalEnv) (cont : Value) : LispM Value :=
  match form with
  | .symbol id => compileSymbol id env cont
  | .pair id => compilePairWithin compile expand reject e id env cont
  | _ => emit .ldc [form] cont

end

end Compiler

/-- Goes on if the scopes say what the enclosure is, and with something else if not. -/
def ifWithin (e : Enclosure) (x wrong : LispM Value) : LispM Value := do
  if .ofScopes (← get).scopes = e then
    x
  else
    wrong

section

variable (wrong : LispM Value) (reject : TargetKind → Value → LispM Value)

mutual

/-- Compiles a form in front of a continuation, unless the scopes are wrong about what encloses
    it. -/
def compileWithin : Nat → Enclosure → CompileRule
  | 0, _, _, _, _ => throw .endless
  | fuel + 1, e, form, env, cont =>
    ifWithin e (compileFormWithin (compileWithin fuel) (expandMacro (runWithin fuel .next)) reject
      e form env cont) wrong

/-- Runs the machine until it stops. What it compiles is enclosed by nothing. -/
def runWithin : Nat → Flow → LispM Unit
  | 0, _ => throw .endless
  | _ + 1, .stop => pure ()
  | fuel + 1, .next => do runWithin fuel (← step)
  | fuel + 1, .request r => do
    runWithin fuel (← serve (compileWithin fuel {}) (runWithin fuel .next) fuel r)

end

end

/-! ## Relations within an enclosure -/

variable {α β : Type}

/-- The outline of the scopes is as before, whether or not the action fails. -/
def Restores (x : LispM α) : Prop :=
  Steady (fun s s' => s'.scopes.outline = s.scopes.outline) (fun _ => True) x

/-- A relation between actions within an enclosure, and one between actions of the machine,
    that go through what the compiler does with scopes. -/
structure EnclosedCongruence (wrong : LispM Value) (reject : TargetKind → Value → LispM Value)
    (𝓡 : Enclosure → ⦃α : Type⦄ → LispM α → LispM α → Prop)
    (𝓢 : ⦃α : Type⦄ → LispM α → LispM α → Prop) : Prop where
  level : ∀ e, LevelCongruence fun _ x y => 𝓡 e x y
  keeps : ∀ {e : Enclosure} {α : Type} {x : LispM α}, Restores x → FailsOrdinarily x → 𝓡 e x x
  /-- The result of the first action is known. -/
  known : ∀ {e : Enclosure} {α β : Type} {x : LispM α} {a : α} {f g : α → LispM β}, Quiet x →
    (∀ (s s' : Interpreter) (b : α), x s = .ok b s' → b = a) → 𝓡 e (f a) (g a) →
    𝓡 e (x >>= f) (x >>= g)
  /-- A failure is handed on. -/
  guard : ∀ {e : Enclosure} {α β : Type} {x y : LispM α} {f g : Except Failure α → LispM β},
    𝓡 e x y → (∀ a, 𝓡 e (f (.ok a)) (g (.ok a))) → (∀ err, f (.error err) = g (.error err)) →
    (∀ err s, Leads (g (.error err)) s (fun _ _ => False)
      fun err' s' => (err' = err ∨ err'.Ordinary) ∧ s'.scopes.outline = s.scopes.outline) →
    𝓡 e (attempt x >>= f) (attempt y >>= g)
  insideFunction : ∀ {e : Enclosure} {α : Type} {x y : LispM α}, 𝓡 e.function x y →
    𝓡 e (insideFunction x) (insideFunction y)
  outsideExits : ∀ {e : Enclosure} {α : Type} {x y : LispM α}, 𝓡 e.outside x y →
    𝓡 e (outsideExits x) (outsideExits y)
  withTags : ∀ {e : Enclosure} {α : Type} {x y : LispM α} {tags : List Value} (id : Value),
    𝓡 (e.tagbody tags) x y → 𝓡 e (withTags id tags x) (withTags id tags y)
  inBlock : ∀ {e : Enclosure} {compile compile' : CompileRule} {name : Value} (body : Value)
    (env : LexicalEnv) (cont : Value), 𝓡 (e.block name) (compileBody compile body env cont)
      (compileBody compile' body env cont) →
    𝓡 e (compileInBlock compile name body env cont) (compileInBlock compile' name body env cont)
  returns : ∀ {e : Enclosure} {compile : Enclosure → CompileRule} {compile' : CompileRule},
    (∀ form env cont, 𝓡 e (compile e form env cont) (compile' form env cont)) →
    ∀ name form env cont, 𝓡 e (compileReturnWithin compile reject e name form env cont)
      (compileReturn compile' name form env cont)
  go : ∀ (e : Enclosure) (args cont : Value),
    𝓡 e (compileGoWithin reject e args cont) (compileGo args cont)
  /-- Where the scopes say what the enclosure is, looking at them makes no difference. -/
  ifWithin : ∀ {e : Enclosure} {x y : LispM Value}, 𝓡 e x y → 𝓡 e (ifWithin e x wrong) y
  running : RunningCongruence 𝓢
  within : ∀ {e : Enclosure} {α : Type} {x y : LispM α}, 𝓢 x y → 𝓡 e x y
  /-- What the machine compiles is enclosed by nothing. -/
  apart : ∀ {compile compile' : CompileRule},
    (∀ form env cont, 𝓡 {} (compile form env cont) (compile' form env cont)) →
    ∀ form, 𝓢 (compileApart compile form) (compileApart compile' form)

/-! ## Small facts -/

/-- Warnings are no part of the outline. -/
theorem Scopes.outline_of_unwarned {c c' : Scopes} (h : c'.unwarned = c.unwarned) :
    c'.outline = c.outline := by
  have heq := congrArg Scopes.outline h
  exact heq

/-- A calm action leaves the scopes alone, but for warnings. -/
theorem Calms.restores {x : LispM α} (hx : Calms x) : Restores x where
  leads s := (hx.calm s).mono (fun _ _ h => Scopes.outline_of_unwarned h.scopes)
    fun _ _ h _ => Scopes.outline_of_unwarned h.scopes

/-- Two actions that leave the outline. -/
theorem Restores.bind {x : LispM α} {f : α → LispM β} (hx : Restores x) (hf : ∀ a, Restores (f a)) :
    Restores (x >>= f) where
  leads s := (leads_bind f).2 ((Upholds.leads hx s).mono
    (fun a _ h => (Upholds.leads (hf a) _).mono (fun _ _ h' => h'.trans h) fun _ _ h' he => (h' he).trans h)
    fun _ _ h => h)

/-- An action on the image does not touch the scopes. -/
theorem restores_image (x : ImageM α) : Restores (liftM x : LispM α) :=
  ⟨fun _ => leads_image.2 (leads_trivial.mono (fun _ _ _ => rfl) fun _ _ _ _ => rfl)⟩

/-- The symbols have nothing to do with the scopes. -/
theorem restores_symbols (x : SymbolM α) : Restores (liftM x : LispM α) :=
  ⟨fun _ => leads_symbols.2 (leads_trivial.mono (fun _ _ _ => rfl) fun _ _ _ _ => rfl)⟩

/-- Neither has the table of functions. -/
theorem restores_addAnonymous (arity : Arity) (code : Value) : Restores (addAnonymous arity code) :=
  (quiet_asks _ fun _ _ => rfl).toCalms.restores.bind fun _ => restores_image _

theorem restores_addExpander (f : FunctionId) : Restores (addExpander f) :=
  (quiet_asks _ fun _ _ => rfl).toCalms.restores.bind fun _ => (restores_image _).bind fun _ =>
    restores_image _

/-- A macro always gets its expander. -/
theorem failsOrdinarily_addExpander (f : FunctionId) : FailsOrdinarily (addExpander f) :=
  ⟨fun _ => trivial⟩

/-- A constant is refused, and that is an ordinary failure. -/
theorem failsOrdinarily_setCell (name : SymbolId) (cell : FunctionCell) :
    FailsOrdinarily (liftM (SymbolTable.setCell name cell) : LispM Unit) where
  ordinaryIn s := by
    rw [leads_setCell]
    split <;> trivial

/-- A view that is taken twice. -/
theorem query_twice {g : Image → Except Error α} {f : α → α → LispM β} :
    (do let a ← query g; let b ← query g; f a b) = (do let a ← query g; f a a) := by
  funext s
  simp only [Bind.bind, EStateM.bind, query]
  cases hg : g s.image with
  | ok a => simp only [hg]
  | error e => rfl

/-- The tags that are collected are the items that are tags. -/
theorem collectTags_eq : ∀ (items before : List Value) (s s' : Interpreter) (tags : List Value),
    collectTags before items s = .ok tags s' → tags = before.reverse ++ tagsOf items
  | [], before, s, s', tags, h => by
    cases h
    simp [tagsOf]
  | item :: items, before, s, s', tags, h => by
    unfold collectTags at h
    split at h
    · next hitem =>
      rw [collectTags_eq items before s s' tags h]
      simp [tagsOf, hitem]
    · next hitem =>
      -- A tag that is neither refused nor repeated goes onto the tags before it.
      have hrest (h : collectTags (item :: before) items s = .ok tags s') :
          tags = before.reverse ++ tagsOf (item :: items) := by
        rw [collectTags_eq items (item :: before) s s' tags h]
        simp [tagsOf, hitem]
      dsimp only at h
      split at h
      · split at h
        · cases h
        · exact hrest h
      · cases h

/-! ## From the rules to the whole -/

namespace EnclosedCongruence

variable {wrong : LispM Value} {reject : TargetKind → Value → LispM Value}
  {𝓡 : Enclosure → ⦃α : Type⦄ → LispM α → LispM α → Prop}
  {𝓢 : ⦃α : Type⦄ → LispM α → LispM α → Prop} (h𝓡 : EnclosedCongruence wrong reject 𝓡 𝓢)
  {e : Enclosure}

include h𝓡

/-- A definition, given how its function is compiled. -/
theorem definitionBy {make make' : SymbolId → Value → Value → LispM FunctionId}
    (hmake : ∀ name params body, 𝓡 e (make name params body) (make' name params body))
    (kind : FunctionKind) (args cont : Value) :
    𝓡 e (definitionBy make kind args cont) (definitionBy make' kind args cont) := by
  have h := h𝓡.level e
  have hset (name : SymbolId) (cell : FunctionCell) :
      𝓡 e (liftM (SymbolTable.setCell name cell) : LispM Unit) (SymbolTable.setCell name cell) :=
    h𝓡.keeps (restores_symbols _) (failsOrdinarily_setCell name cell)
  refine h.after (quiet_arguments args) fun items => ?_
  match items with
  | nameForm :: params :: _ =>
    dsimp only
    cases nameForm.symbol? with
    | none => exact h.quiet ((quiet_shown _).bind fun _ => quiet_invalid ..)
    | some name =>
      refine h.after (looks_checkRedefinition ..).quiet fun _ => ?_
      refine h.after (quiet_parseLambdaList ..) fun frame => ?_
      refine h.after (quiet_asks _ fun _ _ => rfl) fun previous => ?_
      refine h.bind (hset ..) fun _ => ?_
      refine h.after (quiet_query _ fun _ _ => rfl) fun body => ?_
      refine h.after (quiet_heap _) fun body => ?_
      refine h.after (quiet_heap _) fun block => ?_
      refine h.after (quiet_heap _) fun body => ?_
      -- A body that does not compile leaves the cell as it was before.
      refine h𝓡.guard (hmake name params body) (fun f => ?_) (fun err => rfl) fun err s => ?_
      · refine h.after (quiet_pure f) fun f => ?_
        split
        · exact h.bind (h𝓡.keeps (restores_addExpander f) (failsOrdinarily_addExpander f)) fun _ =>
            h.bind (hset ..) fun _ => h.after (quiet_record .debug _ nofun) fun _ => h.quiet (quiet_emit ..)
        · exact h.bind (hset ..) fun _ =>
            h.after (quiet_record .debug _ nofun) fun _ => h.quiet (quiet_emit ..)
      · dsimp only
        rw [leads_bind, leads_setCell]
        split
        · exact ⟨.inr trivial, rfl⟩
        · exact ⟨.inl rfl, rfl⟩
  | [] | [_] => exact h.quiet (quiet_invalid ..)

variable {compile : Enclosure → CompileRule} {compile' : CompileRule} {expand expand' : ExpandRule}
  (hc : ∀ e form env cont, 𝓡 e (compile e form env cont) (compile' form env cont))

include hc

/-- The body is enclosed by one more function. -/
theorem compileFunctionBody (frame : LexicalFrame) (body : Value) (env : LexicalEnv) :
    𝓡 e (compileFunctionBody (compile e.function) frame body env)
      (compileFunctionBody compile' frame body env) := by
  have h := h𝓡.level e
  refine h.after (quiet_asks _ fun _ _ => rfl) fun specials => ?_
  refine h.after (quiet_emit ..) fun rtn => ?_
  refine h.after (Quiet.foldlM (fun _ _ => quiet_emit ..) _ _) fun tail => ?_
  refine h.bind (h𝓡.insideFunction ((h𝓡.level e.function).compileBody (hc _) ..)) fun code => h.quiet ?_
  exact Quiet.foldrM (fun _ _ => (quiet_emit ..).bind fun _ => quiet_emit ..) _ _

/-- A lambda list encloses nothing. -/
theorem compileFunction (name : Option SymbolId) (kind : FunctionKind) (params body : Value)
    (env : LexicalEnv) : 𝓡 e (compileFunction (compile e.function) name kind params body env)
      (compileFunction compile' name kind params body env) := by
  have h := h𝓡.level e
  refine h.after (quiet_parseLambdaList ..) fun _ => ?_
  exact h.bind (h𝓡.compileFunctionBody hc ..) fun _ =>
    h.after (quiet_asks _ fun _ _ => rfl) fun _ =>
      h𝓡.keeps (restores_image _) (tames_addFunction _).toFailsOrdinarily

/-- The parts of the form are found outside of the function. -/
theorem compileLambda (args : Value) (env : LexicalEnv) (cont : Value) :
    𝓡 e (compileLambda (compile e.function) args env cont) (compileLambda compile' args env cont) := by
  have h := h𝓡.level e
  refine h.after (quiet_query _ fun _ _ => rfl) fun _ => ?_
  exact h.after (quiet_query _ fun _ _ => rfl) fun _ =>
    h.bind (h𝓡.compileFunction hc ..) fun _ => h.quiet (quiet_emit ..)

/-- The arguments are enclosed by what encloses the call, and the body by a function more. -/
theorem compileLambdaCall (lambda args : Value) (env : LexicalEnv) (cont : Value) :
    𝓡 e (compileLambdaCallBy (compile e.function) (compile e) lambda args env cont)
      (compileLambdaCall compile' lambda args env cont) := by
  have h := h𝓡.level e
  refine h.after (quiet_arguments args) fun argv => ?_
  refine h.after (quiet_query _ fun _ _ => rfl) fun params => ?_
  refine h.after (quiet_parseLambdaList ..) fun frame => ?_
  refine h.after (quiet_ofExcept _) fun _ => ?_
  refine h.bind (h.emitApply ..) fun code => ?_
  refine h.bind (h.compileArgs (hc e) ..) fun code => ?_
  exact h.after (quiet_query _ fun _ _ => rfl) fun _ => h𝓡.compileLambda hc ..

/-- So it is with the values and the body of a `let`. -/
theorem compileLet (args : Value) (env : LexicalEnv) (cont : Value) :
    𝓡 e (compileLetBy (compile e.function) (compile e) args env cont)
      (compileLet compile' args env cont) := by
  have h := h𝓡.level e
  refine h.after (quiet_query _ fun _ _ => rfl) fun _ => ?_
  refine h.after (quiet_query _ fun _ _ => rfl) fun body => ?_
  refine h.after (quiet_parseBindings ..) fun bindings => ?_
  split
  · exact h.compileBody (hc e) ..
  · refine h.bind (h𝓡.compileFunctionBody hc ..) fun code => ?_
    refine h.bind (h𝓡.keeps (restores_addAnonymous ..) (tames_addAnonymous ..).toFailsOrdinarily) fun f => ?_
    refine h.bind (h.emitApply ..) fun code => ?_
    exact h.bind (h.compileArgs (hc e) ..) fun code => h.quiet (quiet_emit ..)

/-- The form that is compiled instead is a `let`. -/
theorem compileLetStar (args : Value) (env : LexicalEnv) (cont : Value) :
    𝓡 e (compileLetStarBy (compile e.function) (compile e) args env cont)
      (compileLetStar compile' args env cont) := by
  have h := h𝓡.level e
  refine h.after (quiet_query _ fun _ _ => rfl) fun _ => ?_
  refine h.after (quiet_query _ fun _ _ => rfl) fun body => ?_
  refine h.after (quiet_elements? _) fun items => ?_
  match items with
  | none => exact h.quiet (quiet_invalid ..)
  -- Two bindings or more become a `let` around a `let*`, which is built on the heap first.
  | some (first :: _ :: _) =>
    refine h.after (quiet_query _ fun _ _ => rfl) fun others => ?_
    refine h.after (quiet_heap _) fun form => ?_
    refine h.after (quiet_heap _) fun form => ?_
    refine h.after (quiet_heap _) fun first => ?_
    refine h.after (quiet_heap _) fun outerBody => ?_
    refine h.after (quiet_heap _) fun form => ?_
    exact h𝓡.compileLet hc ..
  | some [] | some [_] => exact h𝓡.compileLet hc ..

/-- The values see the variables, but they are not inside of the function. -/
theorem compileLetrec (args : Value) (env : LexicalEnv) (cont : Value) :
    𝓡 e (compileLetrecBy (compile e.function) (compile e) args env cont)
      (compileLetrec compile' args env cont) := by
  have h := h𝓡.level e
  refine h.after (quiet_query _ fun _ _ => rfl) fun _ => ?_
  refine h.after (quiet_query _ fun _ _ => rfl) fun body => ?_
  refine h.after (quiet_parseBindings ..) fun bindings => ?_
  split
  · exact h.compileBody (hc e) ..
  · refine h.after (quiet_asks _ fun _ _ => rfl) fun special => ?_
    cases special with
    | some name => exact h.quiet ((quiet_nameOf _).bind fun _ => quiet_raise_bind _ _ trivial)
    | none =>
      refine h.after (quiet_emit ..) fun rtn => ?_
      -- The body becomes a function of its own, so it is enclosed by `e.function`.
      refine h.bind (h𝓡.insideFunction ((h𝓡.level e.function).compileBody (hc _) ..)) fun code => ?_
      refine h.bind (h𝓡.keeps (restores_addAnonymous ..) (tames_addAnonymous ..).toFailsOrdinarily) fun f => ?_
      refine h.after (quiet_emit ..) fun code => h.bind (h.compileArgs (hc e) ..) fun code => h.quiet ?_
      exact (quiet_emit ..).bind fun _ => quiet_emit ..

/-- A lambda expression or a name. -/
theorem compileFunctionForm (args : Value) (env : LexicalEnv) (cont : Value) :
    𝓡 e (compileFunctionForm (compile e.function) args env cont)
      (compileFunctionForm compile' args env cont) := by
  have h := h𝓡.level e
  refine h.after (quiet_query _ fun _ _ => rfl) fun target => h.after (quiet_asks _ fun _ _ => rfl) fun lambda? => ?_
  split
  · exact h𝓡.compileLambda hc ..
  · split
    · exact h.quiet ((quiet_checkFunctionName _).bind fun _ => quiet_emit ..)
    · exact h.quiet ((quiet_shown _).bind fun _ => quiet_invalid ..)

/-- The body is enclosed by the block as well. -/
theorem compileBlock (args : Value) (env : LexicalEnv) (cont : Value) :
    𝓡 e (compileBlockWithin compile e args env cont) (compileBlock compile' args env cont) := by
  have h := h𝓡.level e
  unfold compileBlockWithin Compiler.compileBlock
  rw [query_twice (g := (·.heap.head args))]
  refine h.after (quiet_query _ fun _ _ => rfl) fun name => ?_
  refine h.after (quiet_checkBlockName ..) fun _ => ?_
  refine h.after (quiet_query _ fun _ _ => rfl) fun body => ?_
  refine h.after (quiet_emit ..) fun blockEnd => ?_
  refine h.bind (h𝓡.inBlock body env blockEnd ?_) fun code => h.quiet (quiet_emit ..)
  exact (h𝓡.level (e.block name)).compileBody (hc _) ..

/-- The items are enclosed by the tags of all of them. -/
theorem compileTagbody (items : List Value) (env : LexicalEnv) (cont : Value) :
    𝓡 e (compileTagbodyWithin compile e items env cont) (compileTagbody compile' items env cont) := by
  have h := h𝓡.level e
  have h' := h𝓡.level (e.tagbody (tagsOf items))
  unfold compileTagbodyWithin Compiler.compileTagbody
  refine h𝓡.known (quiet_collectTags items []) (collectTags_eq items []) ?_
  refine h.bind (h.gensym "tagbody") fun id => ?_
  refine h.bind (h𝓡.withTags (.symbol id) ?_) fun _ => h.quiet (quiet_emit ..)
  refine h'.after (quiet_emit ..) fun tagEnd => h'.bind (h'.foldrM (fun item code => ?_) _ _) fun _ =>
    h'.quiet ((quiet_heap _).bind fun _ => quiet_pure _)
  dsimp only
  split
  · refine h'.after (quiet_emit ..) fun _ => ?_
    exact h'.bind (hc ..) fun _ => h'.quiet (quiet_pure _)
  · exact h'.quiet ((quiet_heap _).bind fun _ => quiet_pure _)

/-- One case for each of the operators. The exits are where the two compilers look for targets in
    different places. -/
theorem compileOperator (operator : Operator) (args : Value) (argv : List Value) (env : LexicalEnv)
    (cont : Value) : 𝓡 e (compileOperatorWithin compile reject e operator args argv env cont)
      (compileOperator compile' operator args argv env cont) := by
  have h := h𝓡.level e
  cases operator with
  | function => exact h𝓡.compileFunctionForm hc ..
  | block => exact h𝓡.compileBlock hc ..
  | returnFrom => exact h.after (quiet_checkBlockName ..) fun _ => h𝓡.returns (hc e) ..
  | returnNil => exact h𝓡.returns (hc e) ..
  | tagbody => exact h𝓡.compileTagbody hc ..
  | go => exact h𝓡.go ..
  | defvar => exact h.compileDefvar (hc e) ..
  | defparameter => exact h.compileDefparameter (hc e) ..

/-- Operators apart, only the arguments are forms. -/
theorem compilePrimitiveCall (id : PrimitiveId) (args : Value) (env : LexicalEnv) (cont : Value) :
    𝓡 e (compilePrimitiveCallWithin compile reject e id args env cont)
      (compilePrimitiveCall compile' id args env cont) := by
  have h := h𝓡.level e
  refine h.after (quiet_asks _ fun _ _ => rfl) fun p => ?_
  refine h.after (quiet_arguments args) fun argv => ?_
  refine h.after (quiet_nameOf _) fun _ => ?_
  refine h.after (quiet_ofExcept _) fun _ => ?_
  cases p.operator with
  | some operator => exact h𝓡.compileOperator hc ..
  | none =>
    dsimp only
    split
    · exact h.after (quiet_emit ..) fun code => h.compileArgs (hc e) ..
    · exact h.bind (h.emitApply ..) fun code =>
        h.bind (h.compileArgs (hc e) ..) fun code => h.quiet (quiet_emit ..)

/-- The function is enclosed by no exit. -/
theorem compileDefinition (kind : FunctionKind) (args cont : Value) :
    𝓡 e (compileDefinition (compile e.definition) kind args cont)
      (compileDefinition compile' kind args cont) := by
  rw [compileDefinition_eq, compileDefinition_eq]
  refine h𝓡.definitionBy (fun name params body => h𝓡.outsideExits ?_) kind args cont
  exact h𝓡.compileFunction hc ..

/-- One case for each of the special forms. -/
theorem compileSpecialForm (form : SpecialForm) (args : Value) (env : LexicalEnv) (cont : Value) :
    𝓡 e (compileSpecialFormWithin compile e form args env cont)
      (compileSpecialForm compile' form args env cont) := by
  have h := h𝓡.level e
  cases form with
  | quoteForm => exact h.quiet (quiet_compileQuote ..)
  | ifForm => exact h.compileIf (hc e) ..
  | prognForm => exact h.compileBody (hc e) ..
  | setqForm => exact h.compileSetq (hc e) ..
  | lambdaForm => exact h𝓡.compileLambda hc ..
  | letForm => exact h𝓡.compileLet hc ..
  | letStarForm => exact h𝓡.compileLetStar hc ..
  | letrecForm => exact h𝓡.compileLetrec hc ..
  | andForm => exact h.compileAnd (hc e) ..
  | orForm => exact h.compileOr (hc e) ..
  | defunForm | defmacroForm => exact h𝓡.compileDefinition hc ..

section

variable (he : ∀ f args, 𝓡 e (expand f args) (expand' f args))

include he

/-- An expansion is enclosed by what encloses the call. -/
theorem compileSymbolCall (name : SymbolId) (args : Value) (env : LexicalEnv) (cont : Value) :
    𝓡 e (compileSymbolCallWithin compile expand reject e name args env cont)
      (compileSymbolCall compile' expand' name args env cont) := by
  have h := h𝓡.level e
  unfold compileSymbolCallWithin Compiler.compileSymbolCall
  cases name.specialForm? with
  | some form => exact h𝓡.compileSpecialForm hc ..
  | none =>
    refine h.after (quiet_asks _ fun _ _ => rfl) fun cell => ?_
    -- A macro is expanded and compiled again; whatever else can be called is compiled in place.
    match cell with
    | .primitive id => exact h𝓡.compilePrimitiveCall hc ..
    | .function f =>
      refine h.after (quiet_asks _ fun _ _ => rfl) fun function => ?_
      split
      · exact h.bind (he ..) fun expansion => hc ..
      · exact h.compileNamedCall (hc e) ..
    | .pending _ .macroFunction => exact h.quiet ((quiet_nameOf _).bind fun _ => quiet_invalid ..)
    | .pending arity .function => exact h.compileNamedCall (hc e) ..
    | .unbound => exact h.quiet ((quiet_nameOf _).bind fun _ => quiet_raise _ trivial)

/-- The head decides which rule applies. -/
theorem compilePair (id : PairId) (env : LexicalEnv) (cont : Value) :
    𝓡 e (compilePairWithin compile expand reject e id env cont)
      (compilePair compile' expand' id env cont) := by
  have h := h𝓡.level e
  refine h.after (quiet_asks _ fun _ _ => rfl) fun args =>
    h.after (quiet_walk _ (fun _ _ => rfl) fun _ _ => Heap.isProperList_ordinary) fun proper => ?_
  dsimp only
  split
  · refine h.after (quiet_asks _ fun _ _ => rfl) fun head => ?_
    cases head with
    | symbol name => exact h𝓡.compileSymbolCall hc he ..
    | _ =>
      refine h.after (quiet_asks _ fun _ _ => rfl) fun isLambda => ?_
      split
      · exact h𝓡.compileLambdaCall hc ..
      · exact h.quiet ((quiet_shown _).bind fun _ => quiet_invalid ..)
  · exact h.quiet ((quiet_shown _).bind fun _ => quiet_raise_bind _ _ trivial)

/-- What encloses the forms inside of a form is what its rule says. -/
theorem compileForm (form : Value) (env : LexicalEnv) (cont : Value) :
    𝓡 e (compileFormWithin compile expand reject e form env cont)
      (compileForm compile' expand' form env cont) := by
  have h := h𝓡.level e
  unfold compileFormWithin Compiler.compileForm
  cases form with
  | symbol id => exact h.quiet (quiet_compileSymbol ..)
  | pair id => exact h𝓡.compilePair hc he ..
  | _ => exact h.quiet (quiet_emit ..)

end

omit hc

/-- The compiler and the machine as a whole. -/
theorem engine (fuel : Nat) :
    (∀ e form env cont, 𝓡 e (compileWithin wrong reject fuel e form env cont)
      (compileFrom fuel form env cont)) ∧
      ∀ flow, 𝓢 (runWithin wrong reject fuel flow) (runFrom fuel flow) := by
  have h := h𝓡.running
  -- The induction is on the fuel, for the compiler at every enclosure, as a form at top level is
  -- compiled inside of none.
  induction fuel with
  | zero =>
    refine ⟨fun e form env cont => ?_, fun flow => ?_⟩
    · rw [compileWithin, compileFrom]
      exact h𝓡.within h.endless
    · rw [runWithin, runFrom]
      exact h.endless
  | succ fuel ih =>
    obtain ⟨hc, hr⟩ := ih
    refine ⟨fun e form env cont => ?_, fun flow => ?_⟩
    · rw [compileWithin, compileFrom]
      refine h𝓡.ifWithin (h𝓡.compileForm hc (fun f args => h𝓡.within ?_) ..)
      exact h.expandMacro (h.execute (hr .next)) f args
    · cases flow with
      | stop =>
        rw [runWithin, runFrom]
        exact h.quiet (quiet_pure _)
      | next =>
        rw [runWithin, runFrom]
        exact h.bind h.step hr
      | request r =>
        rw [runWithin, runFrom]
        refine h.bind (h.toTurningCongruence.serve (h𝓡.apart (hc {})) (h.execute (hr .next)) fuel ?_ ?_) hr
        · exact fun argc mode _ => h.call argc mode
        · exact fun target value _ => h.exitBlock target value fuel 0

end EnclosedCongruence

end StackLisp
