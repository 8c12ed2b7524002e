import StackLisp.Proofs.Safety.Lambda
import StackLisp.Compiler.Operator

/-!
# Blocks and tagbodies in order

The rules of the compiler for the operators of compile time. The body of a block or a
tagbody is compiled inside of it, up to its end. Closing a block makes tail calls of
pending calls, which a return follows (`safe_closeBlock`). A tagbody brings its tags
into the layout before its forms are compiled, so that a `go` among them is in order
(`safe_compileTagbody`).
-/

namespace StackLisp

open Interpreter Layout Compiler

section

variable {L L' : Layout} {s s' : Interpreter} {scope : LexicalEnv} {b : Base} {st : List Slot}
  {ctx : List Item} {cont : Value} {compile : CompileRule} {α : Type}

/-! ## Functions -/

/-- A name is refused, or accepted without a change. -/
theorem inert_checkFunctionName {name : SymbolId} :
    Inert (checkFunctionName name) s fun _ => True := by
  unfold checkFunctionName
  cases name.isSpecialForm with
  | true => exact .inr ⟨_, rfl, trivial⟩
  | false =>
    refine inert_asks_bind.2 ?_
    cases s.image.symbols.cell name with
    | function f =>
      refine inert_asks_bind.2 ?_
      split
      · exact .inr ⟨_, rfl, trivial⟩
      · exact .pure trivial
    | pending _ kind =>
      cases kind with
      | function => exact .pure trivial
      | macroFunction => exact .inr ⟨_, rfl, trivial⟩
    | primitive id =>
      refine inert_asks_bind.2 ?_
      split
      · exact .inr ⟨_, rfl, trivial⟩
      · exact .pure trivial
    | unbound => exact .pure trivial

/-- A lambda expression is compiled as one, and the function of a name is loaded when the code
    runs. -/
theorem safe_compileFunctionForm (hc : Compiles compile) {args : Value}
    (hr : Ready L s scope b (.value :: st) ctx cont) (hargs : L.Visible args) :
    Safe Evolves L (compileFunctionForm compile args scope cont) s fun L' c s' =>
      Ready L' s' scope b st ctx c := by
  refine (inert_head hr.sound hargs).safe_bind hr.refl fun target htarget => ?_
  refine safe_asks_bind.2 ?_
  -- A `lambda` form is compiled as a function; anything else has to be a name that can be called.
  split
  · next args' heq =>
    cases target with
    | pair id =>
      simp only at heq
      split at heq
      · obtain rfl := Option.some.inj heq
        exact safe_compileLambda hc hr (hr.sound.fits.data id htarget).2.2
      · cases heq
    | _ => cases heq
  · cases target.symbol? with
    | none => exact safe_shown_bind.2 (safe_raise hr.refl trivial)
    | some name =>
      refine inert_checkFunctionName.safe_bind hr.refl fun _ _ => ?_
      exact safe_emit hr (by simp [Value.op?]) rfl fun _ instr hc => .gfn instr hc

/-! ## Blocks -/

/-- Where one element of an array is changed, any other one was there before. -/
theorem mem_modify {xs : Array α} {i : Nat} {f : α → α} {a : α} (ha : a ∈ xs.modify i f) :
    a ∈ xs ∨ ∃ x ∈ xs, a = f x := by
  obtain ⟨j, hj, rfl⟩ := Array.mem_iff_getElem.1 ha
  have hj' : j < xs.size := by simpa using hj
  rw [Array.getElem_modify]
  split
  · exact .inr ⟨xs[j], Array.getElem_mem hj', rfl⟩
  · exact .inl (Array.getElem_mem hj')

/-- Settling a pending tail call. -/
theorem safe_settle {index : Nat} {captured : Bool} (hs : Sound L s) :
    Safe Evolves L (do
      modifyScopes fun s =>
        { s with pendingTails := s.pendingTails.modify index (·.close captured) }
      if let some p := (← get).scopes.pendingTails[index]? then
        if p.openScopes = 0 ∧ ¬p.blocked then
          (modify (·.setCar p.pair (.op .tap)) : HeapM Unit)) s fun _ _ _ => True := by
  refine safe_modifyScopes_bind hs ⟨fun p hp => ?_, hs.noted.tagbodies⟩ fun hs' => ?_
  · rcases mem_modify (f := fun x : PendingTail => x.close captured) hp with hp | ⟨q, hq, rfl⟩
    · exact hs.noted.tails p hp
    · exact hs.noted.tails q hq
  · refine safe_get_bind.2 ?_
    -- Once the last scope is closed and none of them was captured, the call becomes `TAP`, which is
    -- in order because the code behind it returns.
    split
    · next p heq =>
      split
      · have htail := hs'.noted.tails p (Array.mem_of_getElem? heq)
        obtain ⟨v, k, hv, hk⟩ := htail.returns
        exact (safe_modifyHeap hs' (hs'.fits.patch htail.own htail.op hv hk)).mono
          fun _ _ _ _ _ => trivial
      · exact Safe.pure hs'.evolves trivial
    · exact Safe.pure hs'.evolves trivial

/-- Each of the pending calls that leave the block is settled, one after the other. -/
theorem safe_closeBlock (hs : Sound L s) :
    Safe Evolves L closeBlock s fun _ _ _ => True := by
  refine safe_get_bind.2 ?_
  simp only
  split
  · refine safe_modifyScopes_bind hs ⟨hs.noted.tails, hs.noted.tagbodies⟩ fun hs' => ?_
    exact Safe.forM hs'.evolves fun _ _ _ _ e => safe_settle e.sound
  · exact Safe.pure hs.evolves trivial

/-- The end of the block is part of the code that its body is compiled in front of. It is what the
    level of the block comes to. -/
theorem safe_compileInBlock (hc : Compiles compile) {name body : Value}
    (hr : Ready L s scope b (.value :: st) ctx cont) (hbody : L.Visible body) :
    Safe Evolves L (compileInBlock compile name body scope cont) s fun L' c s' =>
      Ready L' s' scope b st ctx c := by
  refine safe_modifyScopes_bind hr.sound ⟨hr.sound.noted.tails, hr.sound.noted.tagbodies⟩
    fun hs => ?_
  exact safe_finally (safe_compileBody hc (hr.scopes hs) hbody) (fun e => safe_closeBlock e.sound)
    fun hr e => hr.evolves e

/-- The name of a block is a symbol. So it is no opcode, and can stand in the code. -/
theorem inert_checkBlockName {form : String} {name : Value} :
    Inert (checkBlockName form name) s fun _ => name.isSymbol := by
  unfold checkBlockName
  split
  · next hsymbol => exact .pure hsymbol
  · exact .inr ⟨_, rfl, trivial⟩

/-- The block is entered in front of its body, whose code ends with `BLOCKEND`. -/
theorem safe_compileBlock (hc : Compiles compile) {args : Value}
    (hr : Ready L s scope b (.value :: st) ctx cont) (hargs : L.Visible args) :
    Safe Evolves L (compileBlock compile args scope cont) s fun L' c s' =>
      Ready L' s' scope b st ctx c := by
  refine (inert_head hr.sound hargs).safe_bind hr.refl fun name hname => ?_
  refine inert_checkBlockName.safe_bind hr.refl fun _ hsymbol => ?_
  refine (inert_tail hr.sound hargs).safe_bind hr.refl fun body hbody => ?_
  have hplain : ∀ v ∈ [name], v.op? = none := by simpa using hname.op?_eq_none
  refine (safe_emit_instr hr.sound hplain rfl).bind fun L₁ blockEnd s₁ e₁ hend => ?_
  have hr₁ : Ready L₁ s₁ scope b [.value] (⟨.block name, scope.shapes, st, cont⟩ :: ctx) blockEnd :=
    ⟨e₁.sound, hr.bounded.mono e₁.grows.sizeBound, .blockend hend.1 (hr.evolves e₁).code⟩
  refine (safe_compileInBlock hc hr₁ (e₁.visible hbody)).bind fun L₂ code s₂ e₂ hr₂ => ?_
  refine (safe_emit_instr hr₂.sound hplain rfl).mono fun L₃ c s₃ e₃ hblock => ?_
  have hr₃ := hr.evolves (Evolution.trans e₁ (Evolution.trans e₂ e₃))
  exact ⟨hr₃.sound, hr₃.bounded, .block hblock.1 hsymbol (hr₂.code.grows e₃.grows) hr₃.code⟩

/-- The code behind the return is what the machine walks, so it has to be in order as well. -/
theorem safe_compileReturn (hc : Compiles compile) {name form : Value}
    (hr : Ready L s scope b (.value :: st) ctx cont) (hsymbol : name.isSymbol)
    (hform : L.Visible form) :
    Safe Evolves L (compileReturn compile name form scope cont) s fun L' c s' =>
      Ready L' s' scope b st ctx c := by
  refine safe_get_bind.2 ?_
  -- No block of that name around the form is an error of the form, not of the interpreter.
  cases htarget : s.scopes.targetBlock name with
  | none => exact safe_shown_bind.2 (safe_raise hr.refl trivial)
  | some scopes =>
    obtain ⟨blocks, -, rfl⟩ := Option.map_eq_some_iff.1 htarget
    refine safe_modifyScopes_bind hr.sound ⟨hr.sound.noted.tails, hr.sound.noted.tagbodies⟩
      fun hs => ?_
    have hplain : name.op? = none := by
      cases name with
      | op _ => cases hsymbol
      | _ => rfl
    refine Safe.bind (P := fun L' c s' => Ready L' s' scope b (.value :: st) ctx c)
      (safe_emit (hr.scopes hs) (by simpa using hplain) rfl
        fun _ instr hcode => .retfrom instr hsymbol hcode)
      fun L₁ code s₁ e₁ hr₁ => hc hr₁ (e₁.visible hform)

theorem visible_headD {args : List Value} (hargs : ∀ v ∈ args, L.Visible v) :
    L.Visible (args.headD .nil) := by
  cases args with
  | nil => trivial
  | cons a _ => exact hargs a List.mem_cons_self

theorem visible_getD {args : List Value} (hargs : ∀ v ∈ args, L.Visible v) (i : Nat) :
    L.Visible ((args[i]?).getD .nil) := by
  cases h : args[i]? with
  | none => trivial
  | some a => exact hargs a (List.mem_of_getElem? h)

/-- Name and form are among the arguments. A form that is left out is `nil`. -/
theorem safe_compileReturnFrom (hc : Compiles compile) {args : List Value}
    (hr : Ready L s scope b (.value :: st) ctx cont) (hargs : ∀ v ∈ args, L.Visible v) :
    Safe Evolves L (compileReturnFrom compile args scope cont) s fun L' c s' =>
      Ready L' s' scope b st ctx c := by
  refine inert_checkBlockName.safe_bind hr.refl fun _ hsymbol => ?_
  exact safe_compileReturn hc hr hsymbol (visible_getD hargs 1)

/-! ## Tagbodies -/

/-- The tags of a tagbody are its items that are not pairs. -/
theorem inert_collectTags :
    ∀ {items before : List Value}, Inert (collectTags before items) s fun tags =>
      tags = before.reverse ++ items.filter (!·.isPair) ∧
        ∀ tag ∈ items.filter (!·.isPair), tag.isTag
  | [], _ => .pure (by simp)
  | item :: items, before => by
    unfold collectTags
    -- A pair is a form of the body; anything else has to be a tag that was not met before.
    cases hpair : item.isPair with
    | true =>
      simp only [if_true, List.filter_cons, hpair, Bool.not_true, Bool.false_eq_true, if_false]
      exact inert_collectTags
    | false =>
      cases htag : item.isSymbol || item.isInt with
      | false => exact .inr ⟨_, rfl, trivial⟩
      | true =>
        cases before.contains item with
        | true => exact .inr ⟨_, rfl, trivial⟩
        | false =>
          refine Inert.imp inert_collectTags ?_
          rintro tags ⟨rfl, htags⟩
          have hitem : item.isTag := htag
          simpa [hpair, hitem] using htags

/-- Compiling with the tags of a tagbody in scope. -/
theorem safe_withTags {id : SymbolId} {tags : List Value} {x : LispM α}
    {post : Layout → α → Interpreter → Prop} (hs : Sound L s) (htags : L.tags id = some tags)
    (htag : ∀ tag ∈ tags, tag.isTag)
    (hx : ∀ {scopes : Scopes}, Sound L { s with scopes } →
      Safe Evolves L x { s with scopes } post)
    (hpost : ∀ {L' : Layout} {a : α} {s' : Interpreter} {scopes : Scopes}, post L' a s' →
      Sound L' { s' with scopes } → post L' a { s' with scopes }) :
    Safe Evolves L (withTags (.symbol id) tags x) s post := by
  refine safe_modifyScopes_bind hs ⟨hs.noted.tails, fun t ht => ?_⟩ fun hs' => ?_
  · rcases List.mem_cons.1 ht with rfl | ht
    · exact ⟨id, rfl, htags, htag⟩
    · exact hs.noted.tagbodies t ht
  · refine safe_finally_scopes (hx hs') (fun e => ⟨e.sound.noted.tails, fun t ht => ?_⟩) hpost
    exact e.sound.noted.tagbodies t (List.mem_of_mem_tail ht)

/-- The entries of a table of tags, each a pair of a tag and the code after it, which is a
    tail of the code `c`. -/
def Targets (L : Layout) (h : Heap) (b : Base) (env : List FrameShape) (ctx : List Item)
    (tags entries : List Value) (c : Value) : Prop :=
  ∃ es : List PairId, entries = es.map Value.pair ∧ tags = es.map h.car ∧
    ∀ e ∈ es, L.own e ∧ (h.car e).op? = none ∧ L.Code h b env [] ctx (h.cdr e) ∧
      h.Suffix (h.cdr e) c

/-- The targets are code, and code stays in order where the heap grows. -/
theorem Targets.grows {n : Nat} {h h' : Heap} {env : List FrameShape} {tags entries : List Value}
    {c : Value} (ht : Targets L h b env ctx tags entries c) (hc : L.Chain h c)
    (g : Grows n L h L' h') : Targets L' h' b env ctx tags entries c := by
  obtain ⟨es, rfl, rfl, hes⟩ := ht
  have hcar : ∀ e ∈ es, h'.car e = h.car e := fun e he =>
    g.car_eq (hes e he).1 fun heq => by simpa [heq, Value.op?] using (hes e he).2.1
  refine ⟨es, rfl, List.map_congr_left fun e he => (hcar e he).symm, fun e he => ?_⟩
  obtain ⟨hown, hplain, hcode, hsuffix⟩ := hes e he
  rw [hcar e he, g.cdr e hown]
  exact ⟨g.within.own e hown, hplain, hcode.grows g, hc.suffix_keeps hsuffix g.keeps⟩

/-- More code may come in front. -/
theorem Targets.suffix {h : Heap} {env : List FrameShape} {tags entries : List Value}
    {c c' : Value} (ht : Targets L h b env ctx tags entries c) (hc : h.Suffix c c') :
    Targets L h b env ctx tags entries c' := by
  obtain ⟨es, hentries, htags, hes⟩ := ht
  refine ⟨es, hentries, htags, fun e he => ?_⟩
  obtain ⟨hown, hplain, hcode, hsuffix⟩ := hes e he
  exact ⟨hown, hplain, hcode, hsuffix.trans hc⟩

/-- A list of entries is a table. -/
theorem Layout.Operands.isTable {h : Heap} :
    ∀ {es : List PairId} {c : Value}, L.Operands h (es.map Value.pair) c .nil →
      (∀ e ∈ es, L.own e ∧ (h.car e).op? = none) →
      L.IsTable h (es.map fun e => (h.car e, h.cdr e)) c
  | [], _, ho, _ => by
    obtain rfl := ho.nil_inv
    exact .nil
  | e :: es, c, ho, hes => by
    generalize hvs : (e :: es).map Value.pair = vs at ho
    obtain _ | @⟨id, _, _, own, plain, rest⟩ := ho
    · cases hvs
    · obtain ⟨hcar, rfl⟩ := List.cons.inj hvs
      obtain ⟨hown, hplain⟩ := hes e List.mem_cons_self
      exact .cons own hcar.symm hown hplain
        (rest.isTable fun e' he' => hes e' (List.mem_cons_of_mem _ he'))

/-- A form in front of code that drops its value: that code is a tail of it. -/
theorem Compiles.suffix (hc : Compiles compile) {form k : Value}
    (hr : Ready L s scope b (.value :: st) ctx cont) (hpop : L.Instr s.image.heap .pop [] cont k)
    (hform : L.Visible form) :
    Safe Evolves L (compile form scope cont) s fun L' c s' =>
      Ready L' s' scope b st ctx c ∧ s'.image.heap.Suffix cont c := by
  -- The same code is judged twice: for what follows it, and up to there.
  have hupTo : Ready L s scope (.upTo cont) [.value] [] cont :=
    ⟨hr.sound, hr.bounded, .reached hr.code⟩
  refine Leads.mono (Leads.and (hc hr hform) (hc hupTo hform)) ?_ fun _ _ he => he.1
  rintro c s' ⟨⟨L₁, e₁, hr₁⟩, L₂, e₂, hr₂⟩
  refine ⟨L₁, e₁, hr₁, hr₂.code.suffix rfl (fun hfinishes => ?_) (by simp)⟩
  have hpop₂ := hpop.grows e₂.grows (by decide)
  obtain hinstr | hinstr | ⟨hinstr, -⟩ := hfinishes
  all_goals exact absurd (hpop₂.op_eq hinstr) (by decide)

/-- The items of a tagbody, in front of its end. -/
theorem safe_compileItems (hc : Compiles compile) :
    ∀ {items : List Value} {L : Layout} {s : Interpreter} {cont : Value},
      Ready L s scope b [] ctx cont → (∀ v ∈ items, L.Visible v) →
      Safe Evolves L (items.foldrM (fun item (entries, code) => do
        if item.isPair then
          let pop ← emit .pop [] code
          return (entries, ← compile item scope pop)
        else
          let entry ← Heap.cons item code
          return (entry :: entries, code)) (([] : List Value), cont)) s fun L' p s' =>
        Ready L' s' scope b [] ctx p.2 ∧
          Targets L' s'.image.heap b scope.shapes ctx (items.filter (!·.isPair)) p.1 p.2
  | [], _, _, _, hr, _ => Safe.pure hr.refl ⟨hr, [], rfl, rfl, nofun⟩
  | item :: items, L, s, cont, hr, hitems => by
    rw [List.foldrM_cons]
    refine (safe_compileItems hc hr fun v hv => hitems v (List.mem_cons_of_mem _ hv)).bind ?_
    rintro L₁ ⟨entries, code⟩ s₁ e₁ ⟨hr₁, ht₁⟩
    have hitem := hitems item List.mem_cons_self
    have hitem₁ := e₁.visible hitem
    -- A form is compiled, and its value dropped. A tag becomes an entry of the table, with the code
    -- from there on.
    cases hpair : item.isPair with
    | true =>
      simp only [if_true, List.filter_cons, hpair, Bool.not_true, Bool.false_eq_true, if_false]
      refine Safe.bind (safe_emit_instr hr₁.sound (by simp) rfl) ?_
      rintro L₂ pop s₂ e₂ ⟨hpop, -⟩
      have hr₂ : Ready L₂ s₂ scope b [.value] ctx pop :=
        ⟨e₂.sound, hr₁.bounded.mono e₂.grows.sizeBound, .pop hpop (hr₁.evolves e₂).code⟩
      refine Safe.bind (hc.suffix hr₂ hpop ((Evolution.trans e₁ e₂).visible hitem)) ?_
      rintro L₃ c s₃ e₃ ⟨hr₃, hsuffix⟩
      have ht₃ := ht₁.grows hr₁.code.chain (Evolution.trans e₂ e₃).grows
      have hpop₃ := hpop.grows e₃.grows (by decide)
      exact Safe.pure hr₃.refl ⟨hr₃, ht₃.suffix ((hpop₃.suffix .refl).trans hsuffix)⟩
    | false =>
      simp only [Bool.false_eq_true, if_false, List.filter_cons, hpair, Bool.not_false, if_true]
      refine Safe.bind (safe_heap hr₁.sound (safe_cons_own hr₁.sound.fits hitem₁.op?_eq_none)) ?_
      rintro L₂ _ s₂ e₂ ⟨e, rfl, hown, hcar, hcdr⟩
      have hr₂ := hr₁.evolves e₂
      obtain ⟨es, rfl, htags, hes⟩ := ht₁.grows hr₁.code.chain e₂.grows
      refine Safe.pure hr₂.refl ⟨hr₂, e :: es, rfl, by rw [htags, List.map_cons, hcar], ?_⟩
      intro e' he'
      rcases List.mem_cons.1 he' with rfl | he'
      · exact ⟨hown, hcar ▸ hitem.op?_eq_none, hcdr ▸ hr₂.code, hcdr ▸ .refl⟩
      · exact hes e' he'

/-- The table and the code of a tagbody are in order inside of it. -/
def Tagged (scope : LexicalEnv) (b : Base) (ctx : List Item) (tags : List Value) (L : Layout)
    (p : Value × Value) (s : Interpreter) : Prop :=
  Ready L s scope b [] ctx p.2 ∧ ∃ entries : List (Value × Value),
    L.IsTable s.image.heap entries p.1 ∧ tags = entries.map (·.1) ∧
      ∀ e ∈ entries, L.Code s.image.heap b scope.shapes [] ctx e.2 ∧ s.image.heap.Suffix e.2 p.2

/-- The table and the code of a tagbody. -/
theorem safe_compileTagged (id : SymbolId) (hc : Compiles compile) {items : List Value}
    (hr : Ready L s scope b (.value :: st) ctx cont) (hitems : ∀ v ∈ items, L.Visible v) :
    Safe Evolves L (do
      let tagEnd ← emit .tagend [] cont
      let (entries, code) ← items.foldrM (fun item (entries, code) => do
        if item.isPair then
          let pop ← emit .pop [] code
          return (entries, ← compile item scope pop)
        else
          let entry ← Heap.cons item code
          return (entry :: entries, code)) (([] : List Value), tagEnd)
      let table ← Heap.list entries
      return (table, code)) s
      (Tagged scope b (⟨.tagbody id, scope.shapes, st, cont⟩ :: ctx) (items.filter (!·.isPair))) := by
  refine Safe.bind (safe_emit_instr hr.sound (by simp) rfl) fun L₁ tagEnd s₁ e₁ hend => ?_
  have hr₁ : Ready L₁ s₁ scope b [] (⟨.tagbody id, scope.shapes, st, cont⟩ :: ctx) tagEnd :=
    ⟨e₁.sound, hr.bounded.mono e₁.grows.sizeBound, .tagend hend.1 (hr.evolves e₁).code⟩
  -- The items from the last to the first, in front of `TAGEND`; each tag stands for the code after
  -- it.
  refine (safe_compileItems hc hr₁ fun v hv => e₁.visible (hitems v hv)).bind ?_
  rintro L₂ ⟨entries, code⟩ s₂ e₂ ⟨hr₂, ht₂⟩
  have hplain : ∀ v ∈ entries, v.op? = none := by
    obtain ⟨es, rfl, -, -⟩ := ht₂
    simp [Value.op?]
  refine Safe.bind (safe_heap hr₂.sound (safe_operands hr₂.sound.fits hplain)) ?_
  intro L₃ table s₃ e₃ htable
  obtain ⟨es, rfl, htags, hes⟩ := ht₂.grows hr₂.code.chain e₃.grows
  refine Safe.pure e₃.sound.evolves ⟨hr₂.evolves e₃, _,
    htable.isTable fun e he => ⟨(hes e he).1, (hes e he).2.1⟩, by simpa [Function.comp_def] using htags, ?_⟩
  rintro _ hmem
  obtain ⟨e, he, rfl⟩ := List.mem_map.1 hmem
  exact (hes e he).2.2

/-- The tags come into the layout with the fresh symbol that stands for the tagbody. -/
theorem safe_compileTagbody (hc : Compiles compile) {items : List Value}
    (hr : Ready L s scope b (.value :: st) ctx cont) (hitems : ∀ v ∈ items, L.Visible v) :
    Safe Evolves L (compileTagbody compile items scope cont) s fun L' c s' =>
      Ready L' s' scope b st ctx c := by
  refine inert_collectTags.safe_bind hr.refl ?_
  rintro tags ⟨htags, htag⟩
  rw [List.reverse_nil, List.nil_append] at htags
  subst htags
  -- The `tagbody` is known by a fresh symbol, whose tags are noted in the layout.
  refine Safe.bind (safe_gensym hr.sound "tagbody") ?_
  rintro L id s₁ e₁ ⟨rfl, hid, hlt, -⟩
  have e₂ := e₁.sound.withTags hid hlt (items.filter (!·.isPair))
  have e := Evolution.trans e₁ e₂
  refine Safe.grow e₂ ?_
  have hr₂ := hr.evolves e
  -- From here on a `go` to one of these tags is in order.
  have htags : (L.withTags id (items.filter (!·.isPair))).tags id =
      some (items.filter (!·.isPair)) := by simp [Layout.withTags]
  refine Safe.bind (safe_withTags hr₂.sound htags htag
    (fun hs => safe_compileTagged id hc (hr₂.scopes hs) fun v hv => e.visible (hitems v hv))
    fun hp hs => ⟨hp.1.scopes hs, hp.2⟩) ?_
  rintro L₃ ⟨table, code⟩ s₃ e₃ ⟨hr₃, entries, htable, htags', htargets⟩
  have hplain : ∀ v ∈ [Value.symbol id, table], v.op? = none := by
    have htable' : table.op? = none := by cases htable <;> rfl
    simpa [Value.op?] using htable'
  refine (safe_emit_with hr₃.sound hplain rfl fun _ => ⟨_, _, entries, rfl, htable⟩).mono
    fun L₄ c s₄ e₄ hinstr => ?_
  have hr₄ := hr₂.evolves (Evolution.trans e₃ e₄)
  refine ⟨hr₄.sound, hr₄.bounded, .tagbody hinstr.1 ?_ (htable.grows e₄.grows) (fun x hx => ⟨?_, ?_⟩)
    (fun x hx => (htargets x hx).1.grows e₄.grows) (hr₃.code.grows e₄.grows) hr₄.code⟩
  · exact (Evolution.trans e₃ e₄).grows.within.tags _ _ (htags' ▸ htags)
  · exact htag x.1 (htags' ▸ List.mem_map_of_mem hx)
  · exact hr₃.code.chain.suffix_keeps (htargets x hx).2 e₄.grows.keeps

/-- Every tag in scope is in the layout, under the symbol of its tagbody. -/
theorem safe_compileGo {args : Value} (hr : Ready L s scope b (.value :: st) ctx cont)
    (hargs : L.Visible args) :
    Safe Evolves L (compileGo args cont) s fun L' c s' => Ready L' s' scope b st ctx c := by
  refine (inert_head hr.sound hargs).safe_bind hr.refl fun tag htag => ?_
  refine safe_get_bind.2 ?_
  cases htarget : s.scopes.targetTag tag with
  | none => exact safe_shown_bind.2 (safe_raise hr.refl trivial)
  | some target =>
    obtain ⟨t, hfind, rfl⟩ := Option.map_eq_some_iff.1 htarget
    obtain ⟨id, hid, htags, htag'⟩ := hr.sound.noted.tagbodies t (List.mem_of_find?_eq_some hfind)
    have hmem : tag ∈ t.tags := by simpa using List.find?_some hfind
    refine safe_emit hr ?_ rfl fun e instr hc => ?_
    · simpa [hid, Value.op?] using htag.op?_eq_none
    · rw [hid] at instr
      exact .go instr (e.grows.within.tags _ _ htags) hmem (htag' tag hmem) hc

/-! ## Declarations -/

/-- A variable may become special, which takes nothing away from what is in order. -/
theorem safe_declare {form : String} {var : Value} (hs : Sound L s) (hvar : L.Visible var) :
    Safe Evolves L (declare form var) s fun L' id _ => L'.Visible (.symbol id) := by
  cases var with
  | symbol id =>
    exact Safe.bind (safe_declareSpecial hs) fun _ _ _ e _ => Safe.pure (Evolution.refl e) hvar
  | _ => exact safe_shown_bind.2 (safe_raise hs.evolves trivial)

theorem visible_cons {v : Value} {vs : List Value} (hv : L.Visible v)
    (hvs : ∀ w ∈ vs, L.Visible w) : ∀ w ∈ v :: vs, L.Visible w := by
  simpa using ⟨hv, hvs⟩

/-- The form that is compiled instead is made of parts that programs can see. -/
theorem safe_compileDefvar (hc : Compiles compile) {args : List Value}
    (hr : Ready L s scope b (.value :: st) ctx cont) (hargs : ∀ v ∈ args, L.Visible v) :
    Safe Evolves L (compileDefvar compile args scope cont) s fun L' c s' =>
      Ready L' s' scope b st ctx c := by
  refine (safe_declare hr.sound (visible_headD hargs)).bind fun L₁ id s₁ e₁ hid => ?_
  have hr₁ := hr.evolves e₁
  have hname : ∀ L' : Layout, L'.Visible (.symbol id) := fun _ => hid
  refine (safe_emit_ldc hr₁ (hname L₁)).bind fun L₂ code s₂ e₂ hr₂ => ?_
  cases hinit : args[1]? with
  -- Without a value, the symbol is only declared.
  | none => exact Safe.pure hr₂.refl hr₂
  | some init =>
    -- With one, the form is as if it had been written: `(if (boundp 'name) nil (setq name init))`.
    have hinit := (Evolution.trans e₁ e₂).visible (hargs init (List.mem_of_getElem? hinit))
    refine Safe.bind (safe_heap hr₂.sound (safe_list hr₂.sound.fits ?_)) fun L₃ quoted s₃ e₃ h₃ => ?_
    · exact visible_cons (visible_symbol L₂ .quote (by decide)) (visible_cons (hname L₂) nofun)
    refine Safe.bind (safe_heap e₃.sound (safe_list e₃.sound.fits ?_)) fun L₄ test s₄ e₄ h₄ => ?_
    · exact visible_cons (visible_symbol L₃ .boundp (by decide)) (visible_cons h₃ nofun)
    refine Safe.bind (safe_heap e₄.sound (safe_list e₄.sound.fits ?_)) fun L₅ assign s₅ e₅ h₅ => ?_
    · exact visible_cons (visible_symbol L₄ .setq (by decide)) (visible_cons (hname L₄)
        (visible_cons ((Evolution.trans e₃ e₄).visible hinit) nofun))
    refine Safe.bind (safe_heap e₅.sound (safe_list e₅.sound.fits ?_)) fun L₆ form s₆ e₆ h₆ => ?_
    · exact visible_cons (visible_symbol L₅ .ifSymbol (by decide)) (visible_cons (e₅.visible h₄)
        (visible_cons trivial (visible_cons h₅ nofun)))
    have e := Evolution.trans e₃ (Evolution.trans e₄ (Evolution.trans e₅ e₆))
    refine (safe_emit_pop (hr₂.evolves e)).bind fun L₇ pop s₇ e₇ hr₇ => ?_
    exact hc hr₇ (e₇.visible h₆)

/-- So it is here. -/
theorem safe_compileDefparameter (hc : Compiles compile) {args : List Value}
    (hr : Ready L s scope b (.value :: st) ctx cont) (hargs : ∀ v ∈ args, L.Visible v) :
    Safe Evolves L (compileDefparameter compile args scope cont) s fun L' c s' =>
      Ready L' s' scope b st ctx c := by
  refine (safe_declare hr.sound (visible_headD hargs)).bind fun L₁ id s₁ e₁ hid => ?_
  have hr₁ := hr.evolves e₁
  have hname : ∀ L' : Layout, L'.Visible (.symbol id) := fun _ => hid
  refine (safe_emit_ldc hr₁ (hname L₁)).bind fun L₂ code s₂ e₂ hr₂ => ?_
  have hinit := (Evolution.trans e₁ e₂).visible (visible_getD hargs 1)
  refine Safe.bind (safe_heap hr₂.sound (safe_list hr₂.sound.fits ?_)) fun L₃ assign s₃ e₃ h₃ => ?_
  · exact visible_cons (visible_symbol L₂ .setq (by decide))
      (visible_cons (hname L₂) (visible_cons hinit nofun))
  refine (safe_emit_pop (hr₂.evolves e₃)).bind fun L₄ pop s₄ e₄ hr₄ => ?_
  exact hc hr₄ (e₄.visible h₃)

/-- One case for each of the operators. -/
theorem safe_compileOperator (hc : Compiles compile) {operator : Operator} {args : Value}
    {argv : List Value} (hr : Ready L s scope b (.value :: st) ctx cont) (hargs : L.Visible args)
    (hargv : ∀ v ∈ argv, L.Visible v) :
    Safe Evolves L (compileOperator compile operator args argv scope cont) s fun L' c s' =>
      Ready L' s' scope b st ctx c := by
  cases operator with
  | function => exact safe_compileFunctionForm hc hr hargs
  | block => exact safe_compileBlock hc hr hargs
  | returnFrom => exact safe_compileReturnFrom hc hr hargv
  | returnNil => exact safe_compileReturn hc hr rfl (visible_headD hargv)
  | tagbody => exact safe_compileTagbody hc hr hargv
  | go => exact safe_compileGo hr hargs
  | defvar => exact safe_compileDefvar hc hr hargv
  | defparameter => exact safe_compileDefparameter hc hr hargv

end

end StackLisp
