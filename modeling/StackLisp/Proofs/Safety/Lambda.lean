import StackLisp.Proofs.Safety.Emit
import StackLisp.Compiler.Definition

/-!
# Functions and bindings in order

The code of a function starts in its own frame, in front of the frames around it,
and ends in a return; dynamic bindings of its parameters are made on entry and ended
before the return, the last one first (`Wraps`). So the functions that `lambda`,
`let`, `letrec`, `defun` and `defmacro` enter into the table are in order, and so is
the code that makes closures of them.
-/

namespace StackLisp

open Interpreter Layout Compiler

section

variable {L L' : Layout} {s s' : Interpreter} {scope : LexicalEnv} {b : Base} {st : List Slot}
  {ctx : List Item} {cont : Value} {compile : CompileRule} {α : Type}

/-! ## Lambda lists -/

theorem inert_asks_bind {β : Type} {f : Image → α} {g : α → LispM β} {P : β → Prop} :
    Inert (asks f >>= g) s P ↔ Inert (g (f s.image)) s P := Iff.rfl

/-- Not to end changes nothing. -/
theorem inert_endless {P : α → Prop} : Inert (throw Failure.endless : LispM α) s P :=
  .inr ⟨_, rfl, trivial⟩

theorem inert_invalid {P : α → Prop} {form : String} {f : FormFault} :
    Inert (invalid form f : LispM α) s P := .raise trivial

/-- A parameter is refused, or accepted without a change. -/
theorem inert_assignable {form : String} {var : Value} :
    Inert (assignable form var) s fun _ => True := by
  unfold assignable
  cases var.symbol? with
  | none => exact inert_asks_bind.2 inert_invalid
  | some id =>
    refine inert_asks_bind.2 ?_
    split
    · exact inert_asks_bind.2 (.raise trivial)
    · exact .pure trivial

theorem inert_parameter {form : String} {var : Value} :
    Inert (parameter form var) s fun _ => True := by
  unfold parameter
  cases var.symbol? with
  | none => exact inert_asks_bind.2 inert_invalid
  | some id =>
    refine inert_asks_bind.2 ?_
    cases s.image.symbols.isConstant id with
    | true => exact .inr ⟨_, rfl, trivial⟩
    | false =>
      cases isRestKeyword id with
      | true => exact .inr ⟨_, rfl, trivial⟩
      | false => exact .inl ⟨id, rfl, trivial⟩

/-- A frame with a rest parameter is regular. -/
theorem regular_frameWithRest {names : List SymbolId} {rest : SymbolId} {bound : Nat}
    (h : names.length ≤ bound) : (frameWithRest names rest).Regular bound where
  names := by simpa [frameWithRest] using h
  rest i hi := by
    obtain rfl : names.length = i := Option.some.inj hi
    simp [frameWithRest]

/-- A lambda list is parsed into a regular frame. -/
theorem inert_parseParameters {form : String} {params : Value} {ending : SpineEnd} {bound : Nat} :
    ∀ {items : List Value} {names : List SymbolId},
      (ending ≠ .circular → names.length + items.length ≤ bound) →
      Inert (parseParameters form params names ending items) s fun frame => frame.Regular bound
  | [], names, hlen => by
    -- Each name has taken one item of the list, so there are no more of them than pairs.
    cases ending with
    | proper =>
      refine .pure ⟨?_, nofun⟩
      simpa using Nat.le_trans (hlen nofun) (Nat.le_succ bound)
    | dotted var =>
      exact inert_parameter.bind fun rest _ => .pure (regular_frameWithRest (by simpa using hlen nofun))
    | circular => exact inert_endless
  | item :: items, names, hlen => by
    unfold parseParameters
    cases hname : item.symbol? with
    | none => exact inert_asks_bind.2 inert_invalid
    | some name =>
      simp only
      split
      · split
        · exact inert_endless
        · refine inert_parameter.bind fun rest _ => .pure (regular_frameWithRest ?_)
          have hlen := hlen nofun
          simp only [List.length_cons] at hlen
          omega
        · exact inert_asks_bind.2 inert_invalid
      · refine inert_parameter.bind fun name _ => ?_
        refine inert_parseParameters fun hends => ?_
        have hlen := hlen hends
        simp only [List.length_cons] at hlen ⊢
        omega

/-- A lambda list has no more parameters than it has pairs. -/
theorem inert_parseLambdaList {form : String} {params : Value} {bound : Nat}
    (hlen : (s.image.heap.spine params).ending ≠ .circular →
      (s.image.heap.spine params).items.length ≤ bound) :
    Inert (parseLambdaList form params) s fun frame => frame.Regular bound :=
  inert_asks_bind.2 (inert_parseParameters fun hends => by simpa using hlen hends)

/-- The form of a binding is part of the program. A variable without one is bound to `nil`. -/
theorem inert_parseBinding (form : String) {binding : Value} (hs : Sound L s)
    (hb : L.Visible binding) :
    Inert (parseBinding form binding) s fun p => L.Visible p.2 := by
  have hlast (var init : Value) (hinit : L.Visible init) :
      Inert (do return (← assignable form var, init)) s fun p => L.Visible p.2 :=
    inert_assignable.bind fun _ _ => .pure hinit
  cases binding with
  | pair id =>
    refine inert_elements.bind fun r hr => ?_
    match r with
    | some [var] => exact hlast var .nil trivial
    | some [var, init] => exact hlast var init (hs.fits.elements? hb hr init (by simp))
    | none | some [] | some (_ :: _ :: _ :: _) => exact .inr ⟨_, rfl, trivial⟩
  | _ =>
    refine (Inert.pure (P := fun p : Value × Value => L.Visible p.2) ?_).bind
      fun ⟨var, init⟩ hinit => hlast var init hinit
    exact trivial

/-- There are no more bindings than pairs, as they are the elements of a list. -/
theorem inert_parseBindings {form : String} {bindings : Value} (hs : Sound L s)
    (hb : L.Visible bindings) :
    Inert (parseBindings form bindings) s fun bs =>
      bs.length ≤ s.image.heap.pairCount ∧ ∀ p ∈ bs, L.Visible p.2 := by
  refine inert_elements.bind fun r hr => ?_
  cases r with
  | none => exact inert_invalid
  | some items =>
    have hitems := hs.fits.elements? hb hr
    rcases Inert.mapM fun item hitem => inert_parseBinding form hs (hitems item hitem) with
      ⟨bs, hbs, hlen, hv⟩ | h
    · exact .inl ⟨bs, hbs, hlen ▸ hs.fits.length_elements? hb hr, hv⟩
    · exact .inr h

/-! ## Bodies of functions -/

/-- A change of the notes of the compiler, in any case. -/
theorem safe_finally_scopes {x : LispM α} {f : Scopes → Scopes}
    {post : Layout → α → Interpreter → Prop} (hx : Safe Evolves L x s post)
    (hf : ∀ {L' : Layout} {s' : Interpreter}, Evolves L s L' s' →
      L'.Noted s'.image.heap (f s'.scopes))
    (hpost : ∀ {L' : Layout} {a : α} {s' : Interpreter} {scopes : Scopes}, post L' a s' →
      Sound L' { s' with scopes } → post L' a { s' with scopes }) :
    Safe Evolves L (do
      let result ← attempt x
      modifyScopes f
      resume result) s post := by
  refine safe_attempt_bind hx (fun L' a s' e hp => ?_) fun L' x s' e hx => ?_
  · exact safe_modifyScopes_bind e.sound (hf e) fun hs => Safe.pure hs.evolves (hpost hp hs)
  · exact safe_modifyScopes_bind e.sound (hf e) fun hs => Safe.throw hs.evolves hx

/-- Compiling inside one more function. -/
theorem safe_insideFunction {x : LispM α} {P : Layout → α → Interpreter → Prop}
    (hs : Sound L s)
    (hx : ∀ {scopes : Scopes}, Sound L { s with scopes } →
      Safe Evolves L x { s with scopes } P)
    (hpost : ∀ {L' : Layout} {a : α} {s' : Interpreter} {scopes : Scopes}, P L' a s' →
      Sound L' { s' with scopes } → P L' a { s' with scopes }) :
    Safe Evolves L (insideFunction x) s P := by
  refine safe_modifyScopes_bind hs ⟨hs.noted.tails, hs.noted.tagbodies⟩ fun hs' => ?_
  exact safe_finally_scopes (hx hs') (fun e => ⟨e.sound.noted.tails, e.sound.noted.tagbodies⟩) hpost

/-- The constructs `ctx'` are dynamic bindings of parameters, made one after the other,
    inside of `ctx`. -/
inductive Wraps (L : Layout) (h : Heap) (b : Base) (env : List FrameShape) :
    List (SymbolId × Nat) → List Item → List Item → Prop
  | nil {ctx : List Item} : Wraps L h b env [] ctx ctx
  | cons {name : SymbolId} {slot : Nat} {specials : List (SymbolId × Nat)} {ctx ctx' : List Item}
      {next : Value} (after : L.Code h b env [.value] ctx next)
      (rest : Wraps L h b env specials (⟨.bind name, env, [], next⟩ :: ctx) ctx') :
      Wraps L h b env ((name, slot) :: specials) ctx ctx'

/-- The code after each binding stays in order. -/
theorem Wraps.grows {n : Nat} {h h' : Heap} {env : List FrameShape} {specials : List (SymbolId × Nat)}
    {ctx ctx' : List Item} (hw : Wraps L h b env specials ctx ctx') (g : Grows n L h L' h') :
    Wraps L' h' b env specials ctx ctx' := by
  induction hw with
  | nil => exact .nil
  | cons after _ ih => exact .cons (after.grows g) ih

/-- The ends of dynamic bindings, in front of code. -/
theorem safe_emitUnbinds :
    ∀ {specials : List (SymbolId × Nat)} {ctx : List Item} {L : Layout} {s : Interpreter}
      {cont : Value}, Ready L s scope b [.value] ctx cont →
      Safe Evolves L
        (specials.foldlM (fun code (name, _) => emit .unbind [.symbol name] code) cont) s
        fun L' c s' => ∃ ctx', Wraps L' s'.image.heap b scope.shapes specials ctx ctx' ∧
          Ready L' s' scope b [.value] ctx' c
  | [], ctx, _, _, _, hr => Safe.pure hr.refl ⟨ctx, .nil, hr⟩
  | (name, slot) :: specials, ctx, L, s, cont, hr => by
    rw [List.foldlM_cons]
    refine Safe.bind (safe_emit_instr hr.sound (by simp [Value.op?]) rfl) ?_
    rintro L₁ c s₁ e ⟨instr, -⟩
    have hr₁ := hr.evolves e
    have hunbind : Ready L₁ s₁ scope b [.value] (⟨.bind name, scope.shapes, [], cont⟩ :: ctx) c :=
      ⟨hr₁.sound, hr₁.bounded, .unbind instr hr₁.code⟩
    refine (safe_emitUnbinds hunbind).mono fun L₂ c₂ s₂ e₂ hc₂ => ?_
    obtain ⟨ctx', hw, hr₂⟩ := hc₂
    exact ⟨ctx', .cons ((hr₁.evolves e₂).code) hw, hr₂⟩

/-- The value of a parameter, in front of code in its own frame. -/
theorem safe_emitLoad {frame : LexicalFrame} {slot : Nat}
    (hr : Ready L s (frame :: scope) b (.value :: st) ctx cont) (hslot : slot < frame.names.length) :
    Safe Evolves L
      (emit (if frame.rest = some slot then .ldr else .ld) [.ofNat 0, .ofNat slot] cont) s
      fun L' c s' => Ready L' s' (frame :: scope) b st ctx c := by
  have hregular := hr.bounded.frames frame List.mem_cons_self
  have hnames := hregular.names
  have hshape := hregular.shape hslot
  have hzero : (Value.ofNat 0).count? = some 0 := Value.count?_ofNat (Nat.zero_le _)
  have hcount : (Value.ofNat slot).count? = some slot :=
    Value.count?_ofNat (Nat.le_trans (by omega) hr.sound.fits.sizeBound)
  have hplain : ∀ v ∈ [Value.ofNat 0, Value.ofNat slot], v.op? = none := by
    simp [Value.ofNat, Value.op?]
  split
  · next hrest =>
    rw [if_pos hrest] at hshape
    exact safe_emit hr hplain rfl fun _ instr hc => .ldr instr hzero hcount rfl hshape hc
  · next hrest =>
    rw [if_neg hrest] at hshape
    exact safe_emit hr hplain rfl fun _ instr hc => .ld instr hzero hcount rfl hshape hc

/-- Dynamic bindings of parameters, in front of code inside of them. -/
theorem safe_emitBinds {frame : LexicalFrame} :
    ∀ {specials : List (SymbolId × Nat)} {ctx ctx' : List Item} {L : Layout} {s : Interpreter}
      {cont : Value}, Ready L s (frame :: scope) b [] ctx' cont →
      Wraps L s.image.heap b (LexicalEnv.shapes (frame :: scope)) specials ctx ctx' →
      (∀ p ∈ specials, L.symbols.isSpecial p.1 ∧ p.2 < frame.names.length) →
      Safe Evolves L (specials.foldrM (fun (name, slot) code => do
        let code ← emit .bind [.symbol name] code
        let load := if frame.rest = some slot then .ldr else .ld
        emit load [.ofNat 0, .ofNat slot] code) cont) s
        fun L' c s' => Ready L' s' (frame :: scope) b [] ctx c
  | [], _, _, _, _, _, hr, .nil, _ => Safe.pure hr.refl hr
  | (name, slot) :: specials, ctx, ctx', L, s, cont, hr, .cons after hw, hslots => by
    rw [List.foldrM_cons]
    -- The last binding is compiled first. Each pushes the argument in its slot and binds the symbol
    -- to it.
    refine (safe_emitBinds hr hw fun p hp => hslots p (List.mem_cons_of_mem _ hp)).bind ?_
    intro L₁ c s₁ e₁ hr₁
    refine Safe.bind (safe_emit_instr hr₁.sound (by simp [Value.op?]) rfl) ?_
    rintro L₂ c₂ s₂ e₂ ⟨instr, -⟩
    have hr₂ := hr₁.evolves e₂
    have hafter := after.grows (Evolution.trans e₁ e₂).grows
    obtain ⟨hspecial, hslot⟩ := hslots _ List.mem_cons_self
    have hwithin := (Evolution.trans e₁ e₂).grows.within
    have hbind : Ready L₂ s₂ (frame :: scope) b [.value] ctx c₂ :=
      ⟨hr₂.sound, hr₂.bounded,
        .bind instr (hwithin.symbols.isSpecial hspecial) hr₂.code hafter⟩
    exact safe_emitLoad hbind hslot

/-- A special parameter has a slot in the frame. -/
theorem mem_specialParameters {frame : LexicalFrame} {p : SymbolId × Nat} {t : SymbolTable}
    (hp : p ∈ frame.names.zipIdx.filter fun (name, _) => t.isSpecial name) :
    t.isSpecial p.1 ∧ p.2 < frame.names.length := by
  obtain ⟨hmem, hspecial⟩ := List.mem_filter.1 hp
  have hslot := List.snd_lt_of_mem_zipIdx hmem
  exact ⟨hspecial, by simpa using hslot⟩

/-- A return, for code of a function in its own frame. -/
theorem safe_emitReturn {frame : LexicalFrame} (hs : Sound L s)
    (hscope : scope.Bounded s.image.heap.sizeBound)
    (hframe : frame.Regular s.image.heap.pairCount) :
    Safe Evolves L (emit .rtn [] .nil) s fun L' c s' =>
      Ready L' s' (frame :: scope) .function [.value] [] c := by
  refine Safe.mono (safe_emit_instr hs (by simp) rfl) fun L' c s' e hc => ?_
  have hscope' := hscope.mono e.grows.sizeBound
  refine ⟨e.sound, ⟨?_, ?_⟩, .rtn hc.1⟩
  · have hdepth := hscope.depth
    have hlt := hc.2
    simp only [Heap.sizeBound, e.grows.capacity, List.length_cons] at hdepth ⊢
    omega
  · intro f hf
    rcases List.mem_cons.1 hf with rfl | hf
    · exact hframe.mono (Nat.le_trans e.grows.pairs (Heap.pairCount_le_sizeBound _))
    · exact hscope'.frames f hf

/-- The code of a function. -/
theorem safe_compileFunctionBody (hc : Compiles compile) {frame : LexicalFrame} {body : Value}
    (hs : Sound L s) (hscope : scope.Bounded s.image.heap.sizeBound)
    (hframe : frame.Regular s.image.heap.pairCount) (hbody : L.Visible body) :
    Safe Evolves L (compileFunctionBody compile frame body scope) s fun L' c s' =>
      Ready L' s' (frame :: scope) .function [] [] c := by
  have e₀ := hs.withSymbols
  refine Safe.grow e₀ (safe_asks_bind.2 ?_)
  have hslots : ∀ p ∈ frame.names.zipIdx.filter fun (name, _) => s.image.symbols.isSpecial name,
      (L.withSymbols s.image.symbols).symbols.isSpecial p.1 ∧ p.2 < frame.names.length :=
    fun p hp => mem_specialParameters hp
  generalize frame.names.zipIdx.filter (fun (name, _) => s.image.symbols.isSpecial name) = specials
    at hslots
  refine (safe_emitReturn e₀.sound hscope hframe).bind fun L₁ rtn s₁ e₁ hr₁ => ?_
  refine (safe_emitUnbinds hr₁).bind fun L₂ tail s₂ e₂ htail => ?_
  obtain ⟨ctx', hw, hr₂⟩ := htail
  have hbody₂ := (Evolution.trans e₁ e₂).visible (e₀.visible hbody)
  refine (safe_insideFunction (P := fun L' c s' => Ready L' s' (frame :: scope) .function [] ctx' c)
    hr₂.sound (fun hs' => safe_compileBody hc (hr₂.scopes hs') hbody₂)
    fun hr hs' => hr.scopes hs').bind fun L₃ code s₃ e₃ hr₃ => ?_
  have hwithin := (Evolution.trans e₁ (Evolution.trans e₂ e₃)).grows.within
  exact safe_emitBinds hr₃ (hw.grows e₃.grows) fun p hp =>
    (hslots p hp).imp_left hwithin.symbols.isSpecial

/-! ## Functions -/

/-- A function that has been entered into the table: it is in order, or will be once it
    has an expander. -/
def Entered (scope : LexicalEnv) (kind : FunctionKind) (L : Layout) (f : FunctionId)
    (s : Interpreter) : Prop :=
  match kind with
  | .function => ∃ n, L.shape f = some (n :: scope.shapes)
  | .macroFunction => L.shape f = none ∧ f.index < s.image.functions.size ∧
    L.Code s.image.heap .function ((s.image.function f).arity.frame :: scope.shapes) [] []
      (s.image.function f).code

/-- A function in order may be entered, with the frames it was compiled for. -/
theorem safe_addAnonymous {arity : Arity} {code : Value} {env : List FrameShape} (hs : Sound L s)
    (hcode : L.Code s.image.heap .function (arity.frame :: env) [] [] code) :
    Safe Evolves L (addAnonymous arity code) s fun L' f _ =>
      L'.shape f = some (arity.frame :: env) := by
  refine safe_asks_bind.2 ((safe_addFunction _ hs rfl (by simp) hcode).mono ?_)
  rintro L' f s' - ⟨hshape, -⟩
  exact hshape

/-- A function with a name is one that is defined, and is compiled outside of all frames. -/
theorem safe_compileFunction (hc : Compiles compile) {name : Option SymbolId} {kind : FunctionKind}
    {params body : Value} (hs : Sound L s) (hscope : scope.Bounded s.image.heap.sizeBound)
    (hname : name.isSome → scope = []) (hparams : L.Visible params) (hbody : L.Visible body) :
    Safe Evolves L (compileFunction compile name kind params body scope) s fun L' f s' =>
      Entered scope kind L' f s' := by
  refine (inert_parseLambdaList (hs.fits.closed.length_spine hparams.data)).safe_bind hs.evolves fun frame hframe => ?_
  refine (safe_compileFunctionBody hc hs hscope hframe hbody).bind fun L₁ code s₁ e₁ hr₁ => ?_
  refine safe_asks_bind.2 ?_
  have hshapes : name.isSome → scope.shapes = [] := fun h => by rw [hname h]; rfl
  cases kind with
  | function =>
    refine Safe.mono (safe_addFunction scope.shapes hr₁.sound rfl hshapes hr₁.code) ?_
    rintro L' f s' - ⟨hshape, -⟩
    exact ⟨_, hshape⟩
  | macroFunction =>
    refine Safe.mono (safe_addMacro scope.shapes hr₁.sound hshapes hr₁.code) ?_
    rintro _ f s' - ⟨rfl, hheap, hf, hlt, hshape⟩
    refine ⟨hshape, hlt, ?_⟩
    rw [hf, hheap]
    exact hr₁.code

/-- A closure, in front of code. -/
theorem safe_emit_ldf {f : FunctionId} {n : FrameShape} (hr : Ready L s scope b (.value :: st) ctx cont)
    (hf : L.shape f = some (n :: scope.shapes)) :
    Safe Evolves L (emit .ldf [.function f] cont) s fun L' c s' => Ready L' s' scope b st ctx c :=
  safe_emit hr (by simp [Value.op?]) rfl fun e instr hc => .ldf instr (e.grows.within.shape _ _ hf) hc

/-- The closure is made when the code runs, in the environment that the function was compiled
    for. -/
theorem safe_compileLambda (hc : Compiles compile) {args : Value}
    (hr : Ready L s scope b (.value :: st) ctx cont) (hargs : L.Visible args) :
    Safe Evolves L (compileLambda compile args scope cont) s fun L' c s' =>
      Ready L' s' scope b st ctx c := by
  refine (inert_head hr.sound hargs).safe_bind hr.refl fun params hparams => ?_
  refine (inert_tail hr.sound hargs).safe_bind hr.refl fun body hbody => ?_
  refine (safe_compileFunction hc hr.sound hr.bounded (by simp) hparams hbody).bind fun L' f s' e hf => ?_
  obtain ⟨n, hshape⟩ := hf
  exact safe_emit_ldf (hr.evolves e) hshape

theorem Heap.second_benign {h : Heap} {v : Value} {e : Error} (he : h.second v = .error e) :
    (Failure.error e).Benign := by
  unfold Heap.second at he
  cases ht : h.tail v with
  | error e' =>
    obtain rfl : e' = e := by simpa [ht, bind, Except.bind] using he
    exact Heap.tail_benign ht
  | ok w =>
    rw [ht] at he
    exact Heap.head_benign he

/-- The number of arguments fits, so the call finds as many slots as the frame of the callee has. -/
theorem safe_compileLambdaCall (hc : Compiles compile) {lambda args : Value}
    (hr : Ready L s scope b (.value :: st) ctx cont) (hlambda : L.Visible lambda)
    (hargs : L.Visible args) :
    Safe Evolves L (compileLambdaCall compile lambda args scope cont) s fun L' c s' =>
      Ready L' s' scope b st ctx c := by
  refine (inert_arguments hr.sound hargs).safe_bind hr.refl fun argv hargv => ?_
  refine (inert_query fun _ => Heap.second_benign).safe_bind hr.refl fun params _ => ?_
  refine (inert_parseLambdaList fun _ => Nat.le_refl _).safe_bind hr.refl fun frame _ => ?_
  refine (inert_ofExcept fun _ => Arity.check_benign).safe_bind hr.refl fun _ _ => ?_
  refine (safe_emitApply hr hargv.1).bind fun L₁ code₁ s₁ e₁ hr₁ => ?_
  rw [List.replicate_succ', List.append_assoc] at hr₁
  refine (safe_compileArgs hc hr₁ fun v hv => e₁.visible (hargv.2 v hv)).bind
    fun L₂ code₂ s₂ e₂ hr₂ => ?_
  have hlambda₂ := (Evolution.trans e₁ e₂).visible hlambda
  refine (inert_tail hr₂.sound hlambda₂).safe_bind hr₂.refl fun rest hrest => ?_
  exact safe_compileLambda hc hr₂ hrest

/-- A frame without a rest parameter is regular. -/
theorem regular_names {names : List SymbolId} {bound : Nat} (h : names.length ≤ bound) :
    ({ names } : LexicalFrame).Regular bound :=
  ⟨Nat.le_trans h (Nat.le_succ _), nofun⟩

/-- The body becomes a function, and the code calls it on the values. -/
theorem safe_compileLet (hc : Compiles compile) {args : Value}
    (hr : Ready L s scope b (.value :: st) ctx cont) (hargs : L.Visible args) :
    Safe Evolves L (compileLet compile args scope cont) s fun L' c s' =>
      Ready L' s' scope b st ctx c := by
  refine (inert_head hr.sound hargs).safe_bind hr.refl fun bindings hbindings => ?_
  refine (inert_tail hr.sound hargs).safe_bind hr.refl fun body hbody => ?_
  refine (inert_parseBindings hr.sound hbindings).safe_bind hr.refl fun bs hbs => ?_
  split
  · exact safe_compileBody hc hr hbody
  -- The body becomes a function of the variables, which is called on the values.
  · have hframe : ({ names := bs.map (·.1) } : LexicalFrame).Regular s.image.heap.pairCount :=
      regular_names (by simpa using hbs.1)
    refine (safe_compileFunctionBody hc hr.sound hr.bounded hframe hbody).bind
      fun L₁ code₁ s₁ e₁ hr₁ => ?_
    -- The frame of the variables is the one of a function of as many parameters.
    have hcode : L₁.Code s₁.image.heap .function ((Arity.exactly bs.length).frame :: scope.shapes) [] []
        code₁ := by
      simpa [LexicalEnv.shapes, LexicalFrame.shape, frameArity, Arity.exactly, Arity.frame] using hr₁.code
    refine (safe_addAnonymous hr₁.sound hcode).bind fun L₂ f s₂ e₂ hf => ?_
    have e := Evolution.trans e₁ e₂
    refine (safe_emitApply (hr.evolves e) (Nat.le_trans hbs.1 e.grows.pairs)).bind
      fun L₃ code₃ s₃ e₃ hr₃ => ?_
    have e' := Evolution.trans e e₃
    rw [List.replicate_succ', List.append_assoc] at hr₃
    refine Safe.bind (safe_compileArgs hc (by simpa using hr₃) fun v hv => ?_)
      fun L₄ code₄ s₄ e₄ hr₄ => ?_
    · obtain ⟨p, hp, rfl⟩ := List.mem_map.1 hv
      exact e'.visible (hbs.2 p hp)
    · exact safe_emit_ldf hr₄ ((Evolution.trans e₃ e₄).grows.within.shape _ _ hf)

/-- The forms that are compiled instead are made of parts that programs can see. -/
theorem safe_compileLetStar (hc : Compiles compile) {args : Value}
    (hr : Ready L s scope b (.value :: st) ctx cont) (hargs : L.Visible args) :
    Safe Evolves L (compileLetStar compile args scope cont) s fun L' c s' =>
      Ready L' s' scope b st ctx c := by
  refine (inert_head hr.sound hargs).safe_bind hr.refl fun bindings hbindings => ?_
  refine (inert_tail hr.sound hargs).safe_bind hr.refl fun body hbody => ?_
  refine inert_elements.safe_bind hr.refl fun r hitems => ?_
  match r with
  | none => exact safe_raise hr.refl trivial
  -- some [_] => | With one binding at most, `let*` is `let`.
  | some [] | some [_] => exact safe_compileLet hc hr hargs
  | some (first :: _ :: _) =>
    -- Otherwise the first binding goes around a `let*` of the others, a form made of the given one.
    have hfirst := hr.sound.fits.elements? hbindings hitems first List.mem_cons_self
    refine (inert_tail hr.sound hbindings).safe_bind hr.refl fun others hothers => ?_
    refine (safe_heap hr.sound (safe_cons hr.sound.fits hothers hbody)).bind fun L₁ v₁ s₁ e₁ h₁ => ?_
    have hletStar := visible_symbol L₁ .letStar (by decide)
    refine (safe_heap e₁.sound (safe_cons e₁.sound.fits hletStar h₁)).bind
      fun L₂ inner s₂ e₂ h₂ => ?_
    have e := Evolution.trans e₁ e₂
    refine (safe_heap e₂.sound (safe_list e₂.sound.fits
      (by simpa using e.visible hfirst))).bind fun L₃ firsts s₃ e₃ h₃ => ?_
    refine (safe_heap e₃.sound (safe_list e₃.sound.fits
      (by simpa using e₃.visible h₂))).bind fun L₄ outerBody s₄ e₄ h₄ => ?_
    refine (safe_heap e₄.sound (safe_cons e₄.sound.fits (e₄.visible h₃) h₄)).bind
      fun L₅ outer s₅ e₅ h₅ => ?_
    have e' := Evolution.trans e (Evolution.trans e₃ (Evolution.trans e₄ e₅))
    exact safe_compileLet hc (hr.evolves e') h₅

/-- The values are computed under the dummy frame, which the code takes note of as a slot that is
    pending. -/
theorem safe_compileLetrec (hc : Compiles compile) {args : Value}
    (hr : Ready L s scope b (.value :: st) ctx cont) (hargs : L.Visible args) :
    Safe Evolves L (compileLetrec compile args scope cont) s fun L' c s' =>
      Ready L' s' scope b st ctx c := by
  refine (inert_head hr.sound hargs).safe_bind hr.refl fun bindings hbindings => ?_
  refine (inert_tail hr.sound hargs).safe_bind hr.refl fun body hbody => ?_
  refine (inert_parseBindings hr.sound hbindings).safe_bind hr.refl fun bs hbs => ?_
  split
  -- Without bindings this is only a body.
  · exact safe_compileBody hc hr hbody
  · refine safe_asks_bind.2 ?_
    split
    · exact safe_nameOf_bind.2 (safe_raise_bind hr.refl trivial)
    · have hlen : (bs.map (·.1)).length = bs.length := by simp
      -- The body and the values are compiled in a scope with one more frame, which has no rest
      -- parameter.
      have hframe : ({ names := bs.map (·.1) } : LexicalFrame).Regular s.image.heap.pairCount :=
        regular_names (by simpa using hbs.1)
      have hshapes : LexicalEnv.shapes ({ names := bs.map (·.1) } :: scope) =
          ⟨bs.length, false⟩ :: scope.shapes := by
        simp [LexicalEnv.shapes, LexicalFrame.shape, frameArity, Arity.exactly, Arity.frame]
      simp only [hlen]
      -- The body becomes a function of its own, which `RAP` enters.
      refine (safe_emitReturn hr.sound hr.bounded hframe).bind fun L₁ rtn s₁ e₁ hr₁ => ?_
      refine (safe_insideFunction (P := fun L' c s' =>
        Ready L' s' ({ names := bs.map (·.1) } :: scope) .function [] [] c) hr₁.sound
        (fun hs' => safe_compileBody hc (hr₁.scopes hs') (e₁.visible hbody))
        fun hr hs' => hr.scopes hs').bind fun L₂ code₂ s₂ e₂ hr₂ => ?_
      have hcode : L₂.Code s₂.image.heap .function ((Arity.exactly bs.length).frame :: scope.shapes)
          [] [] code₂ := hshapes ▸ hr₂.code
      refine (safe_addAnonymous hr₂.sound hcode).bind fun L₃ f s₃ e₃ hf => ?_
      have e := Evolution.trans e₁ (Evolution.trans e₂ e₃)
      have hr₃ := hr.evolves e
      -- The code is made from its end: `RAP` comes last, after the values, the function and the
      -- dummy frame that is to hold the values.
      have hcount : (Value.ofNat bs.length).count? = some bs.length :=
        Value.count?_ofNat (Nat.le_trans hbs.1 hr.sound.fits.addressable)
      have hplain : ∀ v ∈ [Value.ofNat bs.length], v.op? = none := by simp [Value.ofNat, Value.op?]
      refine (safe_emit_instr hr₃.sound hplain rfl).bind fun L₄ rap s₄ e₄ hrap => ?_
      have hr₄ : Ready L₄ s₄ ({ names := bs.map (·.1) } :: scope) b
          (List.replicate (bs.map (·.2)).length .value ++ .pending bs.length :: st) ctx rap := by
        refine ⟨e₄.sound, hr₂.bounded.mono (Evolution.trans e₃ e₄).grows.sizeBound, ?_⟩
        rw [hshapes, List.length_map]
        exact .rap hrap.1 hcount (hr₃.evolves e₄).code
      refine (safe_compileArgs hc hr₄ fun v hv => ?_).bind fun L₅ code₅ s₅ e₅ hr₅ => ?_
      · obtain ⟨p, hp, rfl⟩ := List.mem_map.1 hv
        exact (Evolution.trans e e₄).visible (hbs.2 p hp)
      · refine Safe.bind (safe_emit_instr hr₅.sound (by simp [Value.op?]) rfl)
          fun L₆ ldf s₆ e₆ hldf => ?_
        refine (safe_emit_instr e₆.sound hplain rfl).mono fun L₇ dum s₇ e₇ hdum => ?_
        -- All of this only adds to the heap, so what has been made before is still in order.
        have e₈ := Evolution.trans e₄ (Evolution.trans e₅ (Evolution.trans e₆ e₇))
        have hr₇ := hr₃.evolves e₈
        refine ⟨hr₇.sound, hr₇.bounded, .dum hdum.1 hcount (hldf.1.grows e₇.grows (by decide))
          (e₈.grows.within.shape _ _ hf) ?_⟩
        have hnext := (hr₅.evolves (Evolution.trans e₆ e₇)).code
        rwa [hshapes] at hnext

/-! ## Definitions -/

/-- A name is refused, or accepted without a change. -/
theorem inert_checkRedefinition {form : String} {name : SymbolId} :
    Inert (checkRedefinition form name) s fun _ => True := by
  unfold checkRedefinition
  cases name.isSpecialForm with
  | true => exact .inr ⟨_, rfl, trivial⟩
  | false =>
    refine inert_asks_bind.2 ?_
    cases s.image.symbols.cell name with
    | primitive id =>
      refine inert_asks_bind.2 ?_
      split
      · exact .inr ⟨_, rfl, trivial⟩
      · exact .pure trivial
    | _ => exact .pure trivial

/-- Compiling outside of all blocks and tagbodies. -/
theorem safe_outsideExits {x : LispM α} {post : Layout → α → Interpreter → Prop}
    (hs : Sound L s)
    (hx : ∀ {scopes : Scopes}, Sound L { s with scopes } →
      Safe Evolves L x { s with scopes } post)
    (hpost : ∀ {L' : Layout} {a : α} {s' : Interpreter} {scopes : Scopes}, post L' a s' →
      Sound L' { s' with scopes } → post L' a { s' with scopes }) :
    Safe Evolves L (outsideExits x) s post := by
  refine safe_get_bind.2 ?_
  refine safe_modifyScopes_bind hs ⟨hs.noted.tails, nofun⟩ fun hs' => ?_
  refine safe_finally_scopes (hx hs') (fun e => ⟨e.sound.noted.tails, ?_⟩) hpost
  exact (hs.noted.grows e.grows).tagbodies

/-- Giving a macro its expander. -/
theorem safe_addExpander {f : FunctionId} (hs : Sound L s)
    (hf : Entered [] .macroFunction L f s) :
    Safe Evolves L (addExpander f) s fun L' _ _ => L'.Visible (.function f) := by
  obtain ⟨hshape, hlt, hcode⟩ := hf
  refine safe_asks_bind.2 ?_
  refine Safe.bind (safe_addFunction [] hs rfl (fun _ => rfl) hcode) ?_
  rintro L₁ expander s₁ e₁ ⟨hexpander, hheap, hothers⟩
  obtain ⟨hshape₁, hlt₁, hf₁⟩ := hothers f hlt
  refine Safe.mono (safe_setExpander e₁.sound (hshape₁.trans hshape) hlt₁ hexpander ?_)
    fun _ _ _ _ hv => hv.1
  rw [hf₁]
  exact hcode.grows e₁.grows

/-- The body of a definition is what follows its name and its parameters. -/
theorem inert_tailTail {v : Value} (hs : Sound L s) (hv : L.Visible v) :
    Inert (query fun image => do image.heap.tail (← image.heap.tail v)) s L.Visible := by
  cases ht : s.image.heap.tail v with
  | error e => exact .inr ⟨_, by simp [query, ht, bind, Except.bind], Heap.tail_benign ht⟩
  | ok w =>
    have hw := hs.fits.tail hv ht
    cases ht' : s.image.heap.tail w with
    | error e =>
      exact .inr ⟨_, by simp [query, ht, ht', bind, Except.bind], Heap.tail_benign ht'⟩
    | ok x =>
      exact .inl ⟨x, by simp [query, ht, ht', bind, Except.bind], hs.fits.tail hw ht'⟩

/-- The end of a definition: its name stands for the function and is loaded. -/
theorem safe_finishDefinition {name : SymbolId} {f : FunctionId} {text : Image → String}
    (hr : Ready L s scope b (.value :: st) ctx cont) (hf : L.Visible (.function f)) :
    Safe Evolves L (do
      SymbolTable.setCell name (.function f)
      Image.record .debug text
      emit .ldc [.ofSymbol name] cont) s fun L' c s' => Ready L' s' scope b st ctx c := by
  refine Safe.bind (safe_setCell hr.sound fun g hg => by cases hg; exact hf) fun L₁ _ s₁ e₁ _ => ?_
  refine Safe.bind (safe_record e₁.sound nofun) fun L₂ _ s₂ e₂ _ => ?_
  exact safe_emit_ldc (hr.evolves (Evolution.trans e₁ e₂)) (visible_ofSymbol _ name)

/-- The cell of the name is pending while the function is compiled. If this fails, the cell is given
    back what it had. -/
theorem safe_compileDefinition (hc : Compiles compile) {kind : FunctionKind} {args : Value}
    (hr : Ready L s scope b (.value :: st) ctx cont) (hargs : L.Visible args) :
    Safe Evolves L (compileDefinition compile kind args cont) s fun L' c s' =>
      Ready L' s' scope b st ctx c := by
  refine (inert_arguments hr.sound hargs).safe_bind hr.refl fun argv hargv => ?_
  match argv with
  | [] | [_] => exact safe_raise hr.refl trivial
  | nameForm :: params :: _ =>
    simp only
    cases nameForm.symbol? with
    | none => exact safe_shown_bind.2 (safe_raise hr.refl trivial)
    | some name =>
      refine inert_checkRedefinition.safe_bind hr.refl fun _ _ => ?_
      refine (inert_parseLambdaList fun _ => Nat.le_refl _).safe_bind hr.refl fun frame _ => ?_
      refine safe_asks_bind.2 ?_
      -- While the body is compiled, the cell is pending, which promises nothing.
      refine Safe.bind (safe_setCell hr.sound fun f hf => by cases hf) ?_
      rintro L _ s₁ e₁ ⟨rfl, -⟩
      have hr₁ := hr.evolves e₁
      refine (inert_tailTail hr₁.sound hargs).safe_bind hr₁.refl fun body hbody => ?_
      refine (safe_heap hr₁.sound (safe_cons hr₁.sound.fits (visible_ofSymbol _ name) hbody)).bind
        fun L₂ v₂ s₂ e₂ h₂ => ?_
      -- The body is wrapped in a block of the name.
      have hblock := visible_symbol L₂ .block (by decide)
      refine (safe_heap e₂.sound (safe_cons e₂.sound.fits hblock h₂)).bind
        fun L₃ block s₃ e₃ h₃ => ?_
      refine (safe_heap e₃.sound (safe_list e₃.sound.fits (by simpa using h₃))).bind
        fun L₄ v₄ s₄ e₄ h₄ => ?_
      have hr₄ := hr₁.evolves (Evolution.trans e₂ (Evolution.trans e₃ e₄))
      have hparams := e₁.visible (hargv.2 params (by simp))
      have hparams₄ := e₄.visible (e₃.visible (e₂.visible hparams))
      refine safe_attempt_bind (safe_outsideExits hr₄.sound (fun hs' =>
        safe_compileFunction hc hs' ⟨Nat.zero_le _, List.forall_mem_nil _⟩ (fun _ => rfl) hparams₄ h₄) fun hf _ => hf)
        (fun L₅ f s₅ e₅ hf => ?_) fun L₅ failure s₅ e₅ hfailure => ?_
      -- Once it is compiled, the function is entered. A macro needs its expander before.
      · have hr₅ := hr₄.evolves e₅
        cases kind with
        | function => exact safe_finishDefinition hr₅ hf
        | macroFunction =>
          refine safe_pure_bind.2 ?_
          rw [if_pos rfl]
          refine (safe_addExpander hr₅.sound hf).bind fun L₆ _ s₆ e₆ hv => ?_
          exact safe_finishDefinition (hr₅.evolves e₆) hv
      -- Otherwise the cell is set back to what it was, which is in order as functions stay.
      · have e := Evolution.trans e₁ (Evolution.trans e₂ (Evolution.trans e₃ (Evolution.trans e₄ e₅)))
        refine Safe.bind (safe_setCell e₅.sound fun f hf =>
          e.visible (hr.sound.cells name f hf)) fun L₆ _ s₆ e₆ _ => ?_
        exact Safe.throw (Evolution.refl e₆) hfailure

end

end StackLisp
