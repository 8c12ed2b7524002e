import StackLisp.Proofs.Actions.Steady

/-!
# Definitions and function cells

While a definition is being compiled, the cell of its name is pending. Whatever the
body does, also if it runs macros or holds definitions of its own, a definition that
succeeds leaves its function in the cell, and one that is refused, or whose body
fails, leaves the cell as it was (`leads_compileDefinition`). So no cell is left
pending by a compilation that has ended (`Settles`).

There is one exception. A definition makes pairs of its own, outside of the compilation of
its body: three of them when the cell is already pending. A heap without room for these
leaves the name pending, and no other one: the definitions around it, whose bodies have
then failed, restore their cells.
-/

namespace StackLisp

open Interpreter Compiler Machine

/-! ## Cells -/

section

variable {t : SymbolTable} {s : Interpreter} {name id : SymbolId} {cell : FunctionCell}

/-- A symbol that is not there is not changed. -/
theorem SymbolTable.get_modify_unknown (f : Symbol → Symbol) (hname : t.size ≤ name.index) :
    (t.modify name f).get id = t.get id := by
  by_cases hid : id = name
  · subst hid
    rw [SymbolTable.size] at hname
    simp only [get, SymbolTable.modify, Array.getD_eq_getD_getElem?]
    rw [Array.getElem?_eq_none (by simpa using hname), Array.getElem?_eq_none hname]
  · exact get_modify_ne f hid

theorem cell_withCell_self (hname : name.index < s.image.symbols.size) :
    (s.withCell name cell).image.symbols.cell name = cell := by
  rw [withCell, withSymbol, SymbolTable.cell, SymbolTable.get_modify_self _ hname]

/-- Setting a cell leaves the others alone. -/
theorem cell_withCell_ne (hid : id = name → s.image.symbols.size ≤ name.index) :
    (s.withCell name cell).image.symbols.cell id = s.image.symbols.cell id := by
  rw [withCell, withSymbol, SymbolTable.cell, SymbolTable.cell]
  by_cases heq : id = name
  · rw [SymbolTable.get_modify_unknown _ (hid heq)]
  · rw [SymbolTable.get_modify_ne _ heq]

end

/-! ## Pending cells -/

/-- The cell of a symbol has not become pending. -/
def SettlesAt (id : SymbolId) (s s' : Interpreter) : Prop :=
  ∀ arity kind, s'.image.symbols.cell id = .pending arity kind →
    s.image.symbols.cell id = .pending arity kind

/-- No cell has become pending. -/
def Settles (s s' : Interpreter) : Prop := ∀ id, SettlesAt id s s'

/-- No cell has become pending, or that of one name at most, for want of room. -/
def SettlesButOne (e : Failure) (s s' : Interpreter) : Prop :=
  Settles s s' ∨ e = .error .heapOverflow ∧ ∃ name, ∀ id, id ≠ name → SettlesAt id s s'

theorem SettlesAt.trans {id : SymbolId} {s s' s'' : Interpreter} (h : SettlesAt id s s')
    (h' : SettlesAt id s' s'') : SettlesAt id s s'' :=
  fun arity kind hid => h arity kind (h' arity kind hid)

theorem settles_bindingBlind : BindingBlind Settles where
  rebound h id arity kind hid := (@SymbolTable.Rebound.cell _ _ id h) ▸ hid
  trans h h' id := (h id).trans (h' id)
  gensym s stem id arity kind hid := by
    rw [SymbolTable.cell] at hid ⊢
    rcases SymbolTable.get_push (t := s.image.symbols) (i := id) with heq | ⟨-, heq⟩
    · exact heq ▸ hid
    · rw [withGensym, heq] at hid
      cases hid
  declared s name id arity kind hid := by
    rw [SymbolTable.cell] at hid ⊢
    rcases SymbolTable.get_modify s.image.symbols name id fun x => { x with special := true } with
      heq | ⟨-, heq⟩
    · exact heq ▸ hid
    · rw [withSymbol, heq] at hid
      exact hid

/-- A failure is passed on to the end, so there is no second one to leave another cell pending. -/
theorem settles_failsWith : FailsWith Settles SettlesButOne where
  toSteadiness := settles_bindingBlind.steadiness
  of := .inl
  before h h' := h'.imp (settles_bindingBlind.trans h) fun ⟨he, name, hname⟩ =>
    ⟨he, name, fun id hid => (h id).trans (hname id hid)⟩
  after h h' := h.imp (fun h => settles_bindingBlind.trans h h') fun ⟨he, name, hname⟩ =>
    ⟨he, name, fun id hid => (hname id hid).trans (h' id)⟩

section

variable {s s₁ s₂ s₃ : Interpreter} {name id : SymbolId} {cell previous : FunctionCell} {e : Failure}

/-- Between setting a cell and setting it again, to what it held or to something that is not
    pending, it does not matter what it holds. -/
theorem SettlesAt.around (h₁ : Still (s.withCell name cell) s₁) (h₂ : SettlesAt id s₁ s₂)
    (hsize : s.image.symbols.size ≤ s₂.image.symbols.size)
    (h₃ : s₃.image.symbols = (s₂.withCell name previous).image.symbols)
    (hprevious : ∀ arity kind, previous = .pending arity kind → s.image.symbols.cell name = previous) :
    SettlesAt id s s₃ := by
  intro arity kind hid
  rw [h₃] at hid
  -- For the name itself, if it was known before, the cell put back is the earlier one; any other
  -- cell is as the compilation of the body left it.
  by_cases hknown : id = name ∧ name.index < s.image.symbols.size
  · obtain ⟨rfl, hlt⟩ := hknown
    rw [cell_withCell_self (Nat.lt_of_lt_of_le hlt hsize)] at hid
    rw [hprevious arity kind hid, hid]
  · have hother : id = name → s.image.symbols.size ≤ name.index := fun heq =>
      Nat.le_of_not_lt fun hlt => hknown ⟨heq, hlt⟩
    by_cases heq : id = name ∧ name.index < s₂.image.symbols.size
    · obtain ⟨rfl, hlt⟩ := heq
      rw [cell_withCell_self hlt] at hid
      rw [hprevious arity kind hid, hid]
    · rw [cell_withCell_ne fun h => Nat.le_of_not_lt fun hlt => heq ⟨h, hlt⟩] at hid
      have hid₁ := h₂ arity kind hid
      rw [h₁.symbols, cell_withCell_ne hother] at hid₁
      exact hid₁

/-- A definition whose body has left another cell pending restores its own. -/
theorem SettlesButOne.around (h₁ : Still (s.withCell name cell) s₁) (h₂ : SettlesButOne e s₁ s₂)
    (hsize : s.image.symbols.size ≤ s₂.image.symbols.size) :
    SettlesButOne e s (s₂.withCell name (s.image.symbols.cell name)) := by
  have hrestored {id : SymbolId} (h : SettlesAt id s₁ s₂) :
      SettlesAt id s (s₂.withCell name (s.image.symbols.cell name)) :=
    h.around h₁ hsize rfl fun _ _ _ => rfl
  rcases h₂ with h₂ | ⟨he, other, h₂⟩
  · exact .inl fun id => hrestored (h₂ id)
  · exact .inr ⟨he, other, fun id hid => hrestored (h₂ id hid)⟩

end

/-- Nothing that the compiler and the machine do leaves a cell pending; only where there is no
    room for the pairs of a definition, its name may be left so. -/
theorem settles_machineCongruence : MachineCongruence fun _ x _ =>
    Steady Retains (fun _ => True) x ∧ Upholds Settles SettlesButOne x := by
  have hrunning := settles_bindingBlind.runningCongruence settles_failsWith
  refine hrunning.machineCongruence (settles_bindingBlind.congruence settles_failsWith)
    fun hretains hsettles kind args cont => ⟨fun s => ?_⟩
  have hsame : Settles s s := settles_bindingBlind.rebound (.refl _)
  refine leads_definitionBy_of_retains hretains (fun _ _ => .inl hsame) ?_ ?_
  · intro name arity s₁ _ _ h₁
    refine .inr ⟨rfl, name, fun id hid arity' kind' hpending => ?_⟩
    rw [h₁.symbols, cell_withCell_ne fun heq => absurd heq hid] at hpending
    exact hpending
  · intro name form params body frame s₁ _ _ _ h₁
    refine ((hsettles name params body).leads s₁).mono (fun f s₂ h₂ hr₂ s₃ h₃ _ => ?_)
      fun e s₂ h₂ hr₂ => h₂.around h₁.toStill hr₂.size
    have hsettled : Settles s s₃ := fun id =>
      (h₂ id).around h₁.toStill hr₂.size h₃.symbols nofun
    exact ⟨fun _ => hsettled, fun _ => .inl hsettled⟩

/-! ## Lambda lists -/

/-- The frame of a lambda list, given its elements and its end; nothing if it is malformed. The
    names come before it, the latest first. -/
def lambdaFrame? (names : List SymbolId) (ending : SpineEnd) : List Value → Option LexicalFrame
  | [] =>
    match ending with
    | .proper => some ⟨names.reverse, none⟩
    | .dotted var => var.symbol?.map (frameWithRest names)
    | .circular => none
  | item :: items => do
    let name ← item.symbol?
    if isRestKeyword name then
      match items, ending with
      | [var], .proper => var.symbol?.map (frameWithRest names)
      | _, _ => none
    else
      lambdaFrame? (name :: names) ending items

/-- The arity of functions with a lambda list. -/
def Heap.lambdaArity? (h : Heap) (params : Value) : Option Arity :=
  (lambdaFrame? [] (h.spine params).ending (h.spine params).items).map frameArity

theorem lambdaFrame?_circular (names : List SymbolId) (items : List Value) :
    lambdaFrame? names .circular items = none := by
  induction items generalizing names with
  | nil => rfl
  | cons item items ih =>
    unfold lambdaFrame?
    cases item.symbol? with
    | none => rfl
    | some name => simp [ih]

section

variable {s : Interpreter} {form : String}

theorem leads_parameter (var : Value) :
    Leads (parameter form var) s (fun id _ => var.symbol? = some id) fun _ _ => True := by
  unfold parameter
  split
  · trivial
  · next id hid =>
    rw [leads_bind, leads_asks]
    dsimp only
    split
    · trivial
    · split
      · trivial
      · exact hid

theorem leads_parseParameters (params : Value) (ending : SpineEnd) :
    ∀ (items : List Value) (names : List SymbolId),
      Leads (parseParameters form params names ending items) s
        (fun frame _ => lambdaFrame? names ending items = some frame) fun _ _ => True
  -- At its end the list is proper, or its tail is the name for the rest.
  | [], names => by
    unfold parseParameters
    cases ending with
    | proper => rfl
    | dotted var =>
      rw [leads_bind]
      refine (leads_parameter var).mono (fun id s' hid => ?_) fun _ _ h => h
      simp [lambdaFrame?, hid]
    | circular => trivial
  | item :: items, names => by
    unfold parseParameters
    split
    · next name hname =>
      split
      -- After `&rest` there has to be one more name, and nothing else.
      · next hrest =>
        split
        · trivial
        · next var =>
          rw [leads_bind]
          refine (leads_parameter var).mono (fun id s' hid => ?_) fun _ _ h => h
          simp [lambdaFrame?, hname, hrest, hid]
        · trivial
      · next hrest =>
        rw [leads_bind]
        refine ((leads_parameter item).and ((looks_parameter form item).leads s)).mono ?_
          fun _ _ _ => trivial
        rintro name' s' ⟨hname', hs'⟩
        obtain rfl := Option.some.inj (hname.symm.trans hname')
        rw [hs']
        refine (leads_parseParameters params ending items (name :: names)).mono (fun frame _ h => ?_)
          fun _ _ h => h
        simp [lambdaFrame?, hname, hrest, h]
    · trivial

theorem leads_parseLambdaList (params : Value) :
    Leads (parseLambdaList form params) s
      (fun frame _ => lambdaFrame? [] (s.image.heap.spine params).ending
        (s.image.heap.spine params).items = some frame) fun _ _ => True := by
  unfold parseLambdaList
  rw [leads_bind, leads_asks]
  exact leads_parseParameters ..

end

namespace Heap

/-- The heap has the pair, if the value is one. -/
def Holds (h : Heap) (v : Value) : Prop := ∀ id, v = .pair id → id.index < h.pairCount

/-- The heap has all the pairs that its pairs lead to. -/
structure Closed (h : Heap) : Prop where
  car : ∀ id, h.Holds (h.car id)
  cdr : ∀ id, h.Holds (h.cdr id)

theorem Closed.second {h : Heap} (hh : h.Closed) {v w : Value} (hv : h.second v = .ok w) :
    h.Holds w := by
  have hhead : ∀ u, h.head u = .ok w → h.Holds w := by
    rintro u hu
    cases u with
    | nil => cases hu; exact nofun
    | pair id => cases hu; exact hh.car id
    | _ => cases hu
  unfold Heap.second at hv
  cases htail : h.tail v with
  | ok u =>
    rw [htail] at hv
    exact hhead u hv
  | error e =>
    rw [htail] at hv
    cases hv

/-- More pairs do not change a list that ends. -/
theorem Closed.spineFrom_extended {h h' : Heap} (hh : h.Closed) (he : h.Extended h') {fuel fuel' : Nat}
    (hfuel : fuel ≤ fuel') {seen : List Value} {v : Value} (hv : h.Holds v)
    (hends : (h.spineFrom seen fuel v).ending ≠ .circular) :
    h'.spineFrom seen fuel' v = h.spineFrom seen fuel v := by
  induction fuel generalizing fuel' seen v with
  | zero => cases v <;> simp_all [spineFrom]
  | succ fuel ih =>
    obtain ⟨fuel', rfl⟩ : ∃ k, fuel' = k + 1 := ⟨fuel' - 1, by omega⟩
    cases v with
    | pair id =>
      have hid := hv id rfl
      simp only [spineFrom] at hends ⊢
      rw [he.car id hid, he.cdr id hid]
      exact ih (Nat.le_of_succ_le_succ hfuel) (hh.cdr id) hends
    | _ => simp [spineFrom]

end Heap

/-! ## What a definition leaves in its cell -/

/-- The cell of a name holds a function of that name, of a kind and an arity; a macro has an
    expander, which is the same as a function. -/
def Interpreter.Defines (s : Interpreter) (name : SymbolId) (kind : FunctionKind) (arity : Arity) :
    Prop :=
  ∃ f, s.image.symbols.cell name = .function f ∧
    (s.image.function f).name = some name ∧ (s.image.function f).kind = kind ∧
    (s.image.function f).arity = arity ∧
    (kind = .macroFunction → ∃ e, (s.image.function f).expander = some e ∧
      s.image.function e = { s.image.function f with kind := .function, expander := none })

/-- The function at the end of a definition, made an expander if need be. -/
theorem Image.defines_expandedFor {image : Image} {f : FunctionId} {name : SymbolId}
    {kind : FunctionKind} {arity : Arity} {code : Value} {builtin : Bool}
    (hlt : f.index < image.functions.size)
    (hf : image.function f = { name, kind, arity, code, builtin }) :
    ((image.expandedFor kind f).function f).name = some name ∧
      ((image.expandedFor kind f).function f).kind = kind ∧
      ((image.expandedFor kind f).function f).arity = arity ∧
      (kind = .macroFunction → ∃ e, ((image.expandedFor kind f).function f).expander = some e ∧
        (image.expandedFor kind f).function e =
          { (image.expandedFor kind f).function f with kind := .function, expander := none }) := by
  cases kind with
  | function =>
    have hsame : image.expandedFor .function f = image := rfl
    rw [hsame, hf]
    exact ⟨rfl, rfl, rfl, nofun⟩
  | macroFunction =>
    have hsame : image.expandedFor .macroFunction f = image.withExpander f := rfl
    -- The macro gets its expander, a new function with the same code, and keeps everything else.
    have hself : (image.withExpander f).function f =
        { image.function f with expander := some ⟨image.functions.size⟩ } := by
      simp [Image.function, Image.withExpander, Array.getElem_modify, Array.getElem_push, hlt,
        Nat.lt_succ_of_lt hlt]
    have hexpander : (image.withExpander f).function ⟨image.functions.size⟩ =
        { image.function f with kind := .function } := by
      simp [Image.function, Image.withExpander, Array.getElem_modify, Nat.ne_of_lt hlt]
    rw [hsame, hself, hf]
    refine ⟨rfl, rfl, rfl, fun _ => ⟨_, rfl, ?_⟩⟩
    rw [hexpander, hf]

section

variable {compile : CompileRule} {s : Interpreter} {name : SymbolId} {kind : FunctionKind}

/-- The function of a definition, when it has been compiled. -/
theorem leads_compileFunction (params body : Value) :
    Leads (outsideExits (compileFunction compile name kind params body [])) s
      (fun f s' => f.index < s'.image.functions.size ∧ ∃ arity code builtin,
        s.image.heap.lambdaArity? params = some arity ∧
        s'.image.function f = { name := some name, kind, arity, code, builtin }) fun _ _ => True := by
  unfold outsideExits compileFunction
  rw [leads_bind, leads_get, leads_bind, leads_modifyScopes, leads_bind, leads_attempt]
  dsimp only
  rw [leads_bind]
  refine ((leads_parseLambdaList params).and ((looks_parseLambdaList _ params).leads _)).mono ?_
    fun _ _ _ => trivial
  -- Parsing the parameters leaves the state, and the code of the body is whatever its compilation
  -- gives.
  rintro frame s₁ ⟨hframe, hs₁⟩
  rw [hs₁, leads_bind]
  refine leads_trivial.mono (fun code s₂ _ => ?_) fun _ _ _ => trivial
  rw [leads_bind, leads_asks, leads_image]
  change _ ∧ ∃ _, _
  refine ⟨?_, frameArity frame, code, s₂.image.definingBuiltins, ?_, ?_⟩
  · simp
  · rw [Heap.lambdaArity?, hframe, Option.map_some]
  · simp [Image.function]

/-- A definition with a lambda list has left its function in the cell of its name. -/
def HasDefined (s s' : Interpreter) (name : SymbolId) (kind : FunctionKind) (params : Value) : Prop :=
  ∃ arity, s.image.heap.lambdaArity? params = some arity ∧ s'.Defines name kind arity

/-- A definition that succeeds leaves its function in the cell of its name. One that fails
    leaves the cell as it was, also if there was no room in the heap to compile the body. It does
    not if there is no room for the three pairs around the body, which leaves the name pending,
    or for the code that gives the name, when the function is already there. -/
theorem leads_compileDefinition
    (hc : ∀ form env cont, Steady Retains (fun _ => True) (compile form env cont))
    {args cont params : Value} (hclosed : s.image.heap.Closed)
    (hname : s.image.heap.definedName? args = some name)
    (hknown : name.index < s.image.symbols.size)
    (hparams : s.image.heap.second args = .ok params) :
    Leads (compileDefinition compile kind args cont) s
      (fun _ s' => HasDefined s s' name kind params)
      fun e s' => s'.image.symbols.cell name = s.image.symbols.cell name ∨
        e = .error .heapOverflow ∧
          (¬s.image.heap.RoomFor 3 ∧ (∃ arity, s'.image.symbols.cell name = .pending arity kind) ∨
            ¬s'.image.heap.RoomFor 1 ∧ HasDefined s s' name kind params) := by
  rw [compileDefinition_eq]
  have hmake (name : SymbolId) (params body : Value) : Steady Retains (fun _ => True)
      (outsideExits (compileFunction compile name kind params body [])) := by
    have h := retains_machineCongruence.toCongruence
    exact @Congruence.outsideExits _ _ h _ (compileFunction compile name kind params body [])
      (@Congruence.compileFunction _ h compile compile hc name kind params body [])
  refine leads_definitionBy_of_retains hmake (fun _ _ => .inl rfl) ?_ ?_
  · intro name' arity s₁ hname' hfull h₁
    obtain rfl := Option.some.inj (hname.symm.trans hname')
    refine .inr ⟨rfl, .inl ⟨hfull, arity, ?_⟩⟩
    rw [h₁.symbols, cell_withCell_self hknown]
  · intro name' form params' body frame s₁ hname' hparams' hparse h₁
    obtain rfl := Option.some.inj (hname.symm.trans hname')
    obtain rfl := Except.ok.inj (hparams.symm.trans hparams')
    -- The lambda list is read again when there are more pairs, to the same effect.
    have hframe := (leads_of_ok hparse).1 (leads_parseLambdaList params)
    have hheap : s.image.heap.Extended s₁.image.heap := h₁.heap
    have harity : s₁.image.heap.lambdaArity? params = s.image.heap.lambdaArity? params := by
      have hspine : s₁.image.heap.spine params = s.image.heap.spine params := by
        refine hclosed.spineFrom_extended hheap (Nat.succ_le_succ hheap.pairCount) (hclosed.second hparams) fun hcirc => ?_
        rw [Heap.spine, hcirc, lambdaFrame?_circular] at hframe
        cases hframe
      rw [Heap.lambdaArity?, hspine, Heap.lambdaArity?]
    refine (leads_compileFunction params body).mono ?_ fun e s₂ _ hr₂ => .inl ?_
    · rintro f s₂ ⟨hlt, arity, code, builtin, hparsed, hf⟩ hr₂ s₃ h₃ hfunctions
      have hdefines : s₃.Defines name kind arity := by
        have hfunction : ∀ g, s₃.image.function g = (s₂.image.expandedFor kind f).function g :=
          fun g => by rw [Image.function, hfunctions, Image.function]
        refine ⟨f, ?_, ?_⟩
        · rw [h₃.symbols, cell_withCell_self (Nat.lt_of_lt_of_le hknown hr₂.size)]
        · simp only [hfunction]
          exact Image.defines_expandedFor hlt hf
      exact ⟨fun _ => ⟨arity, harity ▸ hparsed, hdefines⟩,
        fun hfull => .inr ⟨rfl, .inr ⟨hfull, arity, harity ▸ hparsed, hdefines⟩⟩⟩
    · exact cell_withCell_self (Nat.lt_of_lt_of_le hknown hr₂.size)

end

/-- Definitions settle the cells of their names. One that succeeds leaves its function there, and
    one that fails leaves what was there before, unless there is no room for the pairs that it
    makes itself. No compilation leaves a cell pending, but for that of one definition at most
    whose pairs there was no room for. -/
theorem definitions_settle (fuel : Nat) (s : Interpreter) (hclosed : s.image.heap.Closed) :
    (∀ kind args cont name params, s.image.heap.definedName? args = some name →
      name.index < s.image.symbols.size → s.image.heap.second args = .ok params →
      Leads (compileDefinition (compileFrom fuel) kind args cont) s
        (fun _ s' => HasDefined s s' name kind params)
        fun e s' => s'.image.symbols.cell name = s.image.symbols.cell name ∨
          e = .error .heapOverflow ∧
            (¬s.image.heap.RoomFor 3 ∧ (∃ arity, s'.image.symbols.cell name = .pending arity kind) ∨
              ¬s'.image.heap.RoomFor 1 ∧ HasDefined s s' name kind params)) ∧
      ∀ form env cont, Leads (compileFrom fuel form env cont) s (fun _ s' => Settles s s')
        fun e s' => SettlesButOne e s s' := by
  refine ⟨fun kind args cont name params hname hknown hparams => ?_, fun form env cont => ?_⟩
  · exact leads_compileDefinition (fun form env cont =>
      (retains_machineCongruence.engine fuel).1 form env cont) hclosed hname hknown hparams
  · exact ((settles_machineCongruence.engine fuel).1 form env cont).2.leads s

/-- An interpreter with the arguments of a definition, `(f () 1)`, in a heap of a capacity. -/
def beforeDefinition (capacity : Nat) : Interpreter where
  image :=
    { heap :=
        { cars := #[.symbol ⟨22⟩, .nil, .int 1]
          cdrs := #[.pair ⟨1⟩, .pair ⟨2⟩, .nil]
          capacity }
      symbols := SymbolTable.initial.insert "f" }

theorem definitions_settle_beforeDefinition :
    Leads (compileDefinition (compileFrom 9) .function (.pair ⟨0⟩) .nil) (beforeDefinition 9)
      (fun _ s' => HasDefined (beforeDefinition 9) s' ⟨22⟩ .function .nil)
      fun e s' => s'.image.symbols.cell ⟨22⟩ = (beforeDefinition 9).image.symbols.cell ⟨22⟩ ∨
        e = .error .heapOverflow ∧
          (¬(beforeDefinition 9).image.heap.RoomFor 3 ∧
              (∃ arity, s'.image.symbols.cell ⟨22⟩ = .pending arity .function) ∨
            ¬s'.image.heap.RoomFor 1 ∧ HasDefined (beforeDefinition 9) s' ⟨22⟩ .function .nil) := by
  have hclosed : (beforeDefinition 9).image.heap.Closed := by
    constructor
    · rintro ⟨_ | _ | _ | i⟩ id hid
      all_goals cases hid
    · rintro ⟨_ | _ | _ | i⟩ id hid
      all_goals cases hid
      all_goals decide
  exact (definitions_settle 9 (beforeDefinition 9) hclosed).1 .function (.pair ⟨0⟩) .nil ⟨22⟩ .nil
    (by decide +kernel) (by decide +kernel) rfl

/-- In a heap that is full, the definition leaves its name pending, which had no function. -/
theorem definition_leaves_pending :
    (beforeDefinition 3).image.symbols.cell ⟨22⟩ = .unbound ∧
      Leads (compileDefinition (compileFrom 9) .function (.pair ⟨0⟩) .nil) (beforeDefinition 3)
        (fun _ _ => False) fun e s' => e = .error .heapOverflow ∧
          s'.image.symbols.cell ⟨22⟩ = .pending (.exactly 0) .function := by
  decide +kernel

end StackLisp
