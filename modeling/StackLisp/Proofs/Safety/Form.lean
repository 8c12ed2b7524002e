import StackLisp.Proofs.Safety.Operator
import StackLisp.Compiler.Form

/-!
# Forms in order

The rules of the compiler for the forms without a function body, for blocks, tagbodies
and their exits, and for calls. All of them compile forms in order if the rules they are
given for the forms inside and for macros do, and so the compiler as a whole does
(`compiles_compileForm`).
-/

namespace StackLisp

open Interpreter Layout Compiler

/-- The rule expands macros into forms, in an orderly way. -/
def Expands (expand : ExpandRule) : Prop :=
  ∀ {L : Layout} {s : Interpreter} {f : FunctionId} {args : Value}, Sound L s →
    L.Visible (.function f) → (s.image.function f).isMacro → L.Visible args →
    Safe Evolves L (expand f args) s fun L' v _ => L'.Visible v

section

variable {L L' : Layout} {s s' : Interpreter} {scope : LexicalEnv} {b : Base} {st : List Slot}
  {ctx : List Item} {cont : Value} {compile : CompileRule} {α : Type}

/-! ## Variables and constants -/

/-- A warning changes the log and the scopes, of which nothing is asked here. -/
theorem safe_warnFree {id : SymbolId} (hs : Sound L s) :
    Safe Evolves L (warnFree id) s fun _ _ _ => True := by
  refine safe_asks_bind.2 ?_
  split
  · refine safe_nameOf_bind.2 (Safe.bind (safe_record hs nofun) fun L₁ _ s₁ e₁ _ => ?_)
    refine (safe_modifyScopes e₁.sound ?_).mono fun _ _ _ _ _ => trivial
    exact ⟨e₁.sound.noted.tails, e₁.sound.noted.tagbodies⟩
  · exact Safe.pure hs.evolves trivial

/-- The value of a global variable, in front of code. -/
theorem safe_emit_ldg {id : SymbolId} (hr : Ready L s scope b (.value :: st) ctx cont) :
    Safe Evolves L (emit .ldg [.symbol id] cont) s fun L' c s' => Ready L' s' scope b st ctx c :=
  safe_emit hr (by simp [Value.op?]) rfl fun _ instr hc => .ldg instr hc

/-- An address as operands. -/
theorem Ready.address {code : Value} (hr : Ready L s scope b st ctx code) {name : SymbolId}
    {a : LexicalAddress} (ha : scope.resolve name = some a) :
    (Value.ofNat a.frame).count? = some a.frame ∧ (Value.ofNat a.slot).count? = some a.slot ∧
      ∃ n, scope.shapes[a.frame]? = some n ∧
        if a.rest then a.slot = n.params ∧ n.rest else a.slot < n.params := by
  obtain ⟨hframe, hslot, hsize⟩ := hr.bounded.resolve ha
  have hroom := hr.sound.fits.sizeBound
  exact ⟨Value.count?_ofNat (Nat.le_trans hframe hroom),
    Value.count?_ofNat (Nat.le_trans hslot hroom), hsize⟩

/-- Addresses are no opcodes, so they may stand in the code as operands. -/
theorem plain_address {i j : Nat} : ∀ v ∈ [Value.ofNat i, Value.ofNat j], v.op? = none := by
  simp [Value.ofNat, Value.op?]

/-- A variable that is found in the scope is in a slot of its frame, or, if it is a rest parameter,
    is the rest of it from a slot on. -/
theorem safe_compileSymbol {id : SymbolId} (hr : Ready L s scope b (.value :: st) ctx cont)
    (hid : L.Visible (.symbol id)) :
    Safe Evolves L (compileSymbol id scope cont) s fun L' c s' => Ready L' s' scope b st ctx c := by
  refine safe_asks_bind.2 ?_
  split
  · exact safe_emit_ldc hr hid
  · refine safe_asks_bind.2 ?_
    split
    · exact safe_emit_ldg hr
    · cases ha : scope.resolve id with
      | none =>
        refine (safe_warnFree hr.sound).bind fun L₁ _ s₁ e₁ _ => ?_
        exact safe_emit_ldg (hr.evolves e₁)
      | some a =>
        obtain ⟨hframe, hslot, n, hsize, hrest⟩ := hr.address ha
        simp only
        split
        · next hlast =>
          rw [if_pos hlast] at hrest
          exact safe_emit hr plain_address rfl fun _ instr hc => .ldr instr hframe hslot hsize hrest hc
        · next hne =>
          rw [if_neg hne] at hrest
          exact safe_emit hr plain_address rfl fun _ instr hc => .ld instr hframe hslot hsize hrest hc

/-- What is quoted is part of the form, so programs can see it. -/
theorem safe_compileQuote {args : Value} (hr : Ready L s scope b (.value :: st) ctx cont)
    (hargs : L.Visible args) :
    Safe Evolves L (compileQuote args cont) s fun L' c s' => Ready L' s' scope b st ctx c := by
  refine inert_elements.safe_bind hr.refl fun r hitems => ?_
  match r with
  | some [x] => exact safe_emit_ldc hr (hr.sound.fits.elements? hargs hitems x (by simp))
  | none | some [] | some (_ :: _ :: _) => exact safe_raise hr.refl trivial

/-! ## Branches -/

/-- A branch before the end of the code: both arms run to the end. -/
theorem safe_compileTailBranch (hc : Compiles compile) {test thenForm elseForm : Value}
    (hr : Ready L s scope b (.value :: st) ctx cont) (hcont : L.Finishes s.image.heap cont)
    (htest : L.Visible test) (hthen : L.Visible thenForm) (helse : L.Visible elseForm) :
    Safe Evolves L (do
      let thenCode ← compile thenForm scope cont
      let elseCode ← compile elseForm scope cont
      let branch ← emit .tsel [thenCode, elseCode] .nil
      compile test scope branch) s fun L' c s' => Ready L' s' scope b st ctx c := by
  refine (hc hr hthen).bind fun L₁ thenCode s₁ e₁ hr₁ => ?_
  refine (hc (hr.evolves e₁) (e₁.visible helse)).bind fun L₂ elseCode s₂ e₂ hr₂ => ?_
  have hplain : ∀ v ∈ [thenCode, elseCode], v.op? = none := by
    simpa using ⟨hr₁.code.op?_eq_none, hr₂.code.op?_eq_none⟩
  refine (safe_emit_instr hr₂.sound hplain rfl).bind fun L₃ c s₃ e₃ hinstr => ?_
  have e := Evolution.trans e₁ (Evolution.trans e₂ e₃)
  have hr₃ : Ready L₃ s₃ scope b (.value :: st) ctx c :=
    ⟨e₃.sound, hr₂.bounded.mono e₃.grows.sizeBound,
      .tsel hinstr.1 (hr₁.code.grows (Evolution.trans e₂ e₃).grows) (hr₂.code.grows e₃.grows)
        (hcont.keeps e.grows.keeps) (hr.evolves e).code⟩
  exact hc hr₃ (e.visible htest)

/-- A branch whose arms join before the code goes on. -/
theorem safe_compileBranch (hc : Compiles compile) {test thenForm elseForm : Value}
    (hr : Ready L s scope b (.value :: st) ctx cont) (htest : L.Visible test)
    (hthen : L.Visible thenForm) (helse : L.Visible elseForm) :
    Safe Evolves L (do
      let join ← emit .join [] .nil
      let thenCode ← compile thenForm scope join
      let elseCode ← compile elseForm scope join
      let branch ← emit .sel [thenCode, elseCode] cont
      compile test scope branch) s fun L' c s' => Ready L' s' scope b st ctx c := by
  refine Safe.bind (safe_emit_instr hr.sound (by simp) rfl) fun L₀ join s₀ e₀ hjoin => ?_
  have hr₀ : Ready L₀ s₀ scope b [.value] (⟨.join, scope.shapes, st, cont⟩ :: ctx) join :=
    ⟨e₀.sound, hr.bounded.mono e₀.grows.sizeBound, .join hjoin.1⟩
  refine (hc hr₀ (e₀.visible hthen)).bind fun L₁ thenCode s₁ e₁ hr₁ => ?_
  have helse₁ := (Evolution.trans e₀ e₁).visible helse
  refine (hc (hr₀.evolves e₁) helse₁).bind fun L₂ elseCode s₂ e₂ hr₂ => ?_
  have hplain : ∀ v ∈ [thenCode, elseCode], v.op? = none := by
    simpa using ⟨hr₁.code.op?_eq_none, hr₂.code.op?_eq_none⟩
  have e := Evolution.trans e₀ (Evolution.trans e₁ e₂)
  refine Safe.bind (P := fun L' c s' => Ready L' s' scope b (.value :: st) ctx c)
    (safe_emit (hr.evolves e) hplain rfl fun e₃ instr hcont => ?_)
    fun L₃ branch s₃ e₃ hr₃ => hc hr₃ ((Evolution.trans e e₃).visible htest)
  exact .sel instr (hr₁.code.grows (Evolution.trans e₂ e₃).grows) (hr₂.code.grows e₃.grows) hcont

/-- The code of the arms is made first, and each piece extends the heap of those before. So the
    invariant carries the earlier pieces along. -/
theorem safe_compileBranches (hc : Compiles compile) {test thenForm elseForm : Value}
    (hr : Ready L s scope b (.value :: st) ctx cont) (htest : L.Visible test)
    (hthen : L.Visible thenForm) (helse : L.Visible elseForm) :
    Safe Evolves L (compileBranches compile test thenForm elseForm scope cont) s fun L' c s' =>
      Ready L' s' scope b st ctx c := by
  refine safe_walk_bind hr.refl (fun _ => tailFrom_benign) fun tail htail => ?_
  cases tail with
  | elsewhere => exact safe_compileBranch hc hr htest hthen helse
  | _ =>
    rcases finishes_of_tailFrom hr.code htail with helsewhere | ⟨hcont, -⟩
    · cases helsewhere
    · exact safe_compileTailBranch hc hr hcont htest hthen helse

/-- An arm that is left out is `nil`. -/
theorem safe_compileIf (hc : Compiles compile) {args : Value}
    (hr : Ready L s scope b (.value :: st) ctx cont) (hargs : L.Visible args) :
    Safe Evolves L (compileIf compile args scope cont) s fun L' c s' =>
      Ready L' s' scope b st ctx c := by
  refine (inert_arguments hr.sound hargs).safe_bind hr.refl fun argv hargv => ?_
  have hvisible := hargv.2
  split
  · exact safe_compileBranches hc hr (hvisible _ (by simp)) (hvisible _ (by simp)) trivial
  · exact safe_compileBranches hc hr (hvisible _ (by simp)) (hvisible _ (by simp))
      (hvisible _ (by simp))
  · exact safe_raise hr.refl trivial

/-- A list of data, before another action. -/
theorem safe_list_bind {vs : List Value} {f : Value → LispM α}
    {post : Layout → α → Interpreter → Prop} (hs : Sound L s) (hvs : ∀ v ∈ vs, L.Visible v)
    (hf : ∀ L' v s', Evolves L s L' s' → L'.Visible v → Safe Evolves L' (f v) s' post) :
    Safe Evolves L (do f (← Heap.list vs)) s post :=
  (safe_heap hs (safe_list hs.fits hvs)).bind hf

/-- The form that is compiled instead is made of parts that programs can see, so they can see it
    too. -/
theorem safe_compileAnd (hc : Compiles compile) {args : Value}
    (hr : Ready L s scope b (.value :: st) ctx cont) (hargs : L.Visible args) :
    Safe Evolves L (compileAnd compile args scope cont) s fun L' c s' =>
      Ready L' s' scope b st ctx c := by
  refine (inert_arguments hr.sound hargs).safe_bind hr.refl fun argv hargv => ?_
  have hvisible : ∀ v ∈ argv.reverse, L.Visible v := by simpa using hargv.2
  cases hrev : argv.reverse with
  | nil => exact safe_emit_ldc hr trivial
  | cons last before =>
    rw [hrev] at hvisible
    refine (Safe.foldlM (I := fun L' v _ => L'.Visible v) hr.refl
      (hvisible last List.mem_cons_self) fun test htest L' form s' e hform => ?_).bind
      fun L' form s' e hform => hc (hr.evolves e) hform
    refine safe_heap e.sound (safe_list e.sound.fits ?_)
    have htest' := e.visible (hvisible test (List.mem_cons_of_mem _ htest))
    simpa using ⟨visible_symbol L' .ifSymbol (by decide), htest', hform,
      show L'.Visible .nil from trivial⟩

/-- The fresh variable is bound to the value while the rest is decided: the construct is a level of
    its own that expects an empty stack. -/
theorem safe_compileOr (hc : Compiles compile) {args : Value}
    (hr : Ready L s scope b (.value :: st) ctx cont) (hargs : L.Visible args) :
    Safe Evolves L (compileOr compile args scope cont) s fun L' c s' =>
      Ready L' s' scope b st ctx c := by
  refine (inert_arguments hr.sound hargs).safe_bind hr.refl fun argv hargv => ?_
  have hvisible := hargv.2
  match argv with
  | [] => exact safe_emit_ldc hr trivial
  | [a] => exact hc hr (hvisible a (by simp))
  | a :: _ :: _ =>
    refine Safe.bind (safe_gensym hr.sound "or") ?_
    rintro L g s₁ e₁ ⟨rfl, -, hg, -, hfresh⟩
    refine Safe.bind (safe_declareSpecial e₁.sound) ?_
    rintro L _ s₁' e₁' ⟨rfl, hspecial, -⟩
    -- The code is going to bind a symbol that has just been declared special.
    have e₂ := e₁'.sound.withSymbols
    refine Safe.grow e₂ ?_
    replace hargs := e₂.visible hargs
    refine (inert_tail e₂.sound hargs).safe_bind e₂.sound.evolves fun others hothers => ?_
    have hor := visible_symbol (L.withSymbols s₁'.image.symbols) .orSymbol (by decide)
    refine (safe_heap e₂.sound (safe_cons e₂.sound.fits hor hothers)).bind
      fun L₃ otherwise s₃ e₃ h₃ => ?_
    refine safe_list_bind e₃.sound ?_ fun L₄ test s₄ e₄ htest => ?_
    · simpa using ⟨visible_symbol L₃ .ifSymbol (by decide), show L₃.Visible (.symbol g) from hfresh,
        h₃⟩
    have e := Evolution.trans (Evolution.trans e₁ e₁')
      (Evolution.trans e₂ (Evolution.trans e₃ e₄))
    have hr₄ := hr.evolves e
    have hplain : ∀ v ∈ [Value.symbol g], v.op? = none := by simp [Value.op?]
    refine (safe_emit_instr hr₄.sound hplain rfl).bind fun L₅ unbind s₅ e₅ hunbind => ?_
    have hr₅ : Ready L₅ s₅ scope b [.value] (⟨.bind g, scope.shapes, st, cont⟩ :: ctx) unbind :=
      ⟨e₅.sound, hr₄.bounded.mono e₅.grows.sizeBound, .unbind hunbind.1 (hr₄.evolves e₅).code⟩
    refine (hc hr₅ (e₅.visible htest)).bind fun L₆ code s₆ e₆ hr₆ => ?_
    refine (safe_emit_instr hr₆.sound hplain rfl).bind fun L₇ bind s₇ e₇ hbind => ?_
    have e' := Evolution.trans e₅ (Evolution.trans e₆ e₇)
    have hbound : L₇.symbols.isSpecial g :=
      (Evolution.trans e₃ (Evolution.trans e₄ e')).grows.within.symbols.isSpecial (hspecial hg)
    have hr₇ : Ready L₇ s₇ scope b (.value :: st) ctx bind :=
      ⟨e₇.sound, hr₆.bounded.mono e₇.grows.sizeBound,
        .bind hbind.1 hbound (hr₆.code.grows e₇.grows) (hr₄.evolves e').code⟩
    exact hc hr₇ ((Evolution.trans e e').visible (hvisible a (by simp)))

/-! ## Assignments -/

/-- The value stays on the stack, as the value of the assignment. -/
theorem safe_emitStore {var : SymbolId} (hr : Ready L s scope b (.value :: st) ctx cont) :
    Safe Evolves L (emitStore var scope cont) s fun L' c s' =>
      Ready L' s' scope b (.value :: st) ctx c := by
  have hglobal : Safe Evolves L (emit .setg [.symbol var] cont) s fun L' c s' =>
      Ready L' s' scope b (.value :: st) ctx c :=
    safe_emit hr (by simp [Value.op?]) rfl fun _ instr hc => .setg instr hc
  refine safe_asks_bind.2 ?_
  cases s.image.symbols.isSpecial var with
  | true => exact hglobal
  | false =>
    simp only [Bool.false_eq_true, if_false]
    cases ha : scope.resolve var with
    | none => exact hglobal
    | some a =>
      obtain ⟨hframe, hslot, n, hsize, hrest⟩ := hr.address ha
      simp only
      split
      · next hlast =>
        rw [if_pos hlast] at hrest
        exact safe_emit hr plain_address rfl fun _ instr hc => .setlr instr hframe hslot hsize hrest hc
      · next hne =>
        rw [if_neg hne] at hrest
        exact safe_emit hr plain_address rfl fun _ instr hc => .setl instr hframe hslot hsize hrest hc

/-- Every value but the last is taken off again. -/
theorem safe_compileAssignments (hc : Compiles compile) :
    ∀ {items : List Value} {L : Layout} {s : Interpreter} {cont : Value}, items ≠ [] →
      items.length % 2 = 0 → Ready L s scope b (.value :: st) ctx cont →
      (∀ v ∈ items, L.Visible v) →
      Safe Evolves L (compileAssignments compile scope cont items) s fun L' c s' =>
        Ready L' s' scope b st ctx c
  | [], _, _, _, hne, _, _, _ => absurd rfl hne
  | [_], _, _, _, _, heven, _, _ => by simp at heven
  | var :: form :: others, L, s, cont, _, heven, hr, hv => by
    have hform := hv form (by simp)
    have hassign (L' : Layout) (code : Value) (s' : Interpreter) (e : Evolves L s L' s')
        (hr' : Ready L' s' scope b (.value :: st) ctx code) : Safe Evolves L' (do
        let var ← assignable "setq" var
        let code ← emitStore var scope code
        compile form scope code) s' fun L' c s' => Ready L' s' scope b st ctx c := by
      refine inert_assignable.safe_bind hr'.refl fun var _ => ?_
      refine (safe_emitStore hr').bind fun L₂ code s₂ e₂ hr₂ => hc hr₂ ?_
      exact (Evolution.trans e e₂).visible hform
    -- The last assignment leaves its value. Before the others, theirs is dropped, and they are
    -- compiled first as their code comes later.
    cases others with
    | nil => exact hassign L cont s hr.refl hr
    | cons o os =>
      have heven' : (o :: os).length % 2 = 0 := by
        simp only [List.length_cons] at heven ⊢
        omega
      have hv' : ∀ v ∈ o :: os, L.Visible v := fun v hm =>
        hv v (List.mem_cons_of_mem _ (List.mem_cons_of_mem _ hm))
      refine (safe_compileAssignments hc (by simp) heven' hr hv').bind fun L₁ code s₁ e₁ hr₁ => ?_
      refine (safe_emit_pop hr₁).bind fun L₂ code s₂ e₂ hr₂ => ?_
      exact hassign L₂ code s₂ (Evolution.trans e₁ e₂) hr₂

theorem safe_compileSetq (hc : Compiles compile) {args : Value}
    (hr : Ready L s scope b (.value :: st) ctx cont) (hargs : L.Visible args) :
    Safe Evolves L (compileSetq compile args scope cont) s fun L' c s' =>
      Ready L' s' scope b st ctx c := by
  refine (inert_arguments hr.sound hargs).safe_bind hr.refl fun items hitems => ?_
  split
  · exact safe_emit_ldc hr trivial
  · next hne =>
    split
    · exact safe_raise hr.refl trivial
    · next heven =>
      exact safe_compileAssignments hc (by simpa using hne) (by omega) hr hitems.2

/-! ## Calls -/

/-- The code of the arguments leaves as many values as the call takes. -/
theorem safe_compileNamedCall (hc : Compiles compile) {name : SymbolId} {arity : Arity}
    {args : Value} (hr : Ready L s scope b (.value :: st) ctx cont) (hargs : L.Visible args) :
    Safe Evolves L (compileNamedCall compile name arity args scope cont) s fun L' c s' =>
      Ready L' s' scope b st ctx c := by
  refine (inert_arguments hr.sound hargs).safe_bind hr.refl fun argv hargv => ?_
  refine safe_nameOf_bind.2 ?_
  refine (inert_ofExcept fun _ => Arity.check_benign).safe_bind hr.refl fun _ _ => ?_
  refine (safe_emitApply hr hargv.1).bind fun L₁ code₁ s₁ e₁ hr₁ => ?_
  rw [List.replicate_succ', List.append_assoc] at hr₁
  refine (safe_compileArgs hc hr₁ fun v hv => e₁.visible (hargv.2 v hv)).bind
    fun L₂ code₂ s₂ e₂ hr₂ => ?_
  exact safe_emit hr₂ (by simp [Value.op?]) rfl fun _ instr hcode => .gfn instr hcode

/-- The number of arguments is checked now, so that the instruction that calls the primitive can
    rely on it. -/
theorem safe_compilePrimitiveCall (hc : Compiles compile) {id : PrimitiveId} {args : Value}
    (hr : Ready L s scope b (.value :: st) ctx cont) (hargs : L.Visible args) :
    Safe Evolves L (compilePrimitiveCall compile id args scope cont) s fun L' c s' =>
      Ready L' s' scope b st ctx c := by
  refine safe_asks_bind.2 ?_
  refine (inert_arguments hr.sound hargs).safe_bind hr.refl fun argv hargv => ?_
  refine safe_nameOf_bind.2 ?_
  refine (inert_ofExcept fun _ => Arity.check_benign).safe_bind hr.refl fun _ _ => ?_
  -- Some primitives are compiled in their own way. Of the others, `CALLP` calls those that are
  -- inlined, and `AP` the rest.
  cases (s.image.primitives.get id).operator with
  | some operator => exact safe_compileOperator hc hr hargs hargv.2
  | none =>
    simp only
    split
    · have hcount : (Value.ofNat argv.length).count? = some argv.length :=
        Value.count?_ofNat (Nat.le_trans hargv.1 hr.sound.fits.addressable)
      refine Safe.bind
        (P := fun L' c s' => Ready L' s' scope b (List.replicate argv.length .value ++ st) ctx c)
        (safe_emit hr (by simp [Value.op?, Value.ofNat]) rfl fun _ instr hcode => .callp instr hcount hcode)
        fun L₁ code s₁ e₁ hr₁ => ?_
      exact safe_compileArgs hc hr₁ fun v hv => e₁.visible (hargv.2 v hv)
    · refine (safe_emitApply hr hargv.1).bind fun L₁ code₁ s₁ e₁ hr₁ => ?_
      rw [List.replicate_succ', List.append_assoc] at hr₁
      refine (safe_compileArgs hc hr₁ fun v hv => e₁.visible (hargv.2 v hv)).bind
        fun L₂ code₂ s₂ e₂ hr₂ => ?_
      exact safe_emit_ldc hr₂ trivial

/-- One case for each of the special forms. -/
theorem safe_compileSpecialForm (hc : Compiles compile) {form : SpecialForm} {args : Value}
    (hr : Ready L s scope b (.value :: st) ctx cont) (hargs : L.Visible args) :
    Safe Evolves L (compileSpecialForm compile form args scope cont) s fun L' c s' =>
      Ready L' s' scope b st ctx c := by
  cases form with
  | quoteForm => exact safe_compileQuote hr hargs
  | ifForm => exact safe_compileIf hc hr hargs
  | prognForm => exact safe_compileBody hc hr hargs
  | setqForm => exact safe_compileSetq hc hr hargs
  | lambdaForm => exact safe_compileLambda hc hr hargs
  | letForm => exact safe_compileLet hc hr hargs
  | letStarForm => exact safe_compileLetStar hc hr hargs
  | letrecForm => exact safe_compileLetrec hc hr hargs
  | andForm => exact safe_compileAnd hc hr hargs
  | orForm => exact safe_compileOr hc hr hargs
  | defunForm | defmacroForm => exact safe_compileDefinition hc hr hargs

/-- An expander may run any program, so the heap that its expansion is compiled on is only known to
    be as the invariant tells. -/
theorem safe_compileSymbolCall (hc : Compiles compile) {expand : ExpandRule} (hx : Expands expand)
    {name : SymbolId} {args : Value} (hr : Ready L s scope b (.value :: st) ctx cont)
    (hargs : L.Visible args) :
    Safe Evolves L (compileSymbolCall compile expand name args scope cont) s fun L' c s' =>
      Ready L' s' scope b st ctx c := by
  unfold compileSymbolCall
  cases name.specialForm? with
  | some form => exact safe_compileSpecialForm hc hr hargs
  | none =>
    refine safe_asks_bind.2 ?_
    -- The function cell decides. A macro is expanded first, and its expansion is compiled.
    cases hcell : s.image.symbols.cell name with
    | primitive id => exact safe_compilePrimitiveCall hc hr hargs
    | function f =>
      refine safe_asks_bind.2 ?_
      split
      · next hexpands =>
        refine (hx hr.sound (hr.sound.cells name f hcell) hexpands hargs).bind
          fun L₁ expansion s₁ e₁ hexpansion => ?_
        exact hc (hr.evolves e₁) hexpansion
      · exact safe_compileNamedCall hc hr hargs
    | pending arity kind =>
      cases kind with
      | function => exact safe_compileNamedCall hc hr hargs
      | macroFunction => exact safe_nameOf_bind.2 (safe_raise hr.refl trivial)
    | unbound => exact safe_nameOf_bind.2 (safe_raise hr.refl trivial)

theorem Heap.isProperList_benign {h : Heap} {v : Value} {e : Failure}
    (he : h.isProperList v = .error e) : e.Benign := by
  rw [Heap.isProperList_error he]
  trivial

/-- The head of a call decides which rule compiles it. -/
theorem safe_compilePair (hc : Compiles compile) {expand : ExpandRule} (hx : Expands expand)
    {id : PairId} (hr : Ready L s scope b (.value :: st) ctx cont) (hid : L.data id) :
    Safe Evolves L (compilePair compile expand id scope cont) s fun L' c s' =>
      Ready L' s' scope b st ctx c := by
  obtain ⟨-, hcar, hcdr⟩ := hr.sound.fits.data id hid
  refine safe_asks_bind.2 ?_
  refine (inert_walk fun _ => Heap.isProperList_benign).safe_bind hr.refl fun proper _ => ?_
  cases proper with
  | false => exact ⟨trivial, L, hr.refl⟩
  | true =>
    refine safe_asks_bind.2 ?_
    -- The head decides: a symbol, a `lambda`, or nothing that can be called.
    generalize s.image.heap.car id = head at hcar
    have hother (isLambda : Bool) : Safe Evolves L
        (if isLambda then
          compileLambdaCall compile head (s.image.heap.cdr id) scope cont
        else do
          invalid "call" (.notFunctionName (← shown head))) s fun L' c s' =>
          Ready L' s' scope b st ctx c := by
      cases isLambda with
      | true => exact safe_compileLambdaCall hc hr hcar hcdr
      | false => exact safe_shown_bind.2 (safe_raise hr.refl trivial)
    cases head with
    | symbol name => exact safe_compileSymbolCall hc hx hr hcdr
    | _ => exact safe_asks_bind.2 (hother _)

end

/-- The compiler compiles forms in order, if it does so for the forms inside. -/
theorem compiles_compileForm {compile : CompileRule} {expand : ExpandRule} (hc : Compiles compile)
    (hx : Expands expand) : Compiles (compileForm compile expand) := by
  intro L s scope b st ctx form cont hr hform
  cases form with
  | symbol id => exact safe_compileSymbol hr hform
  | pair id => exact safe_compilePair hc hx hr hform
  | _ => exact safe_emit_ldc hr hform

end StackLisp
