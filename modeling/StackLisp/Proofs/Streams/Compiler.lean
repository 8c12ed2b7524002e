import StackLisp.Proofs.Streams.Exits

/-!
# Pieces for all forms

Definitions are compiled outside of all exits, so nothing is noted of the blocks around them.
With them, the compiler makes pieces of all forms if the compiler for the forms inside does, and
if macros are expanded without a change of code (`tracks_compileForm`). A top-level form is a piece
in front of a stop (`leads_compileToplevel`).
-/

namespace StackLisp

open Interpreter Compiler

variable {α β : Type} {K : Interpreter → Interpreter → Prop} {cont : Value} {d : Nat} {compile : CompileRule}
  {expand : ExpandRule}

/-! ## Definitions -/

section

variable {s s' : Interpreter} {rs : List (Value × Nat)} {g : Piece} {f : FunctionId}

/-- The scopes outside of all exits. -/
def Scopes.outside (c : Scopes) : Scopes := { c with blocks := [], tagbodies := [] }

/-- What has happened outside of all exits is noted of none of them. -/
theorem Records.outsideExits (hK : Lasting K) (hr : Records K 0 rs [] (s.rescoped Scopes.outside) s') :
    Records K 0 [] [] s
      (s'.rescoped fun c => { c with blocks := s.scopes.blocks, tagbodies := s.scopes.tagbodies }) :=
  { hr with
    lasting := hK.trans (hK.trans (hK.rescoped s _) hr.lasting) (hK.rescoped s' _)
    tagbodies := rfl
    blocks := by
      obtain ⟨indices, -, -, -, hmap, hclosed⟩ := hr.blocks
      obtain rfl : indices = [] := by simpa using hmap
      exact ⟨[], by rw [noteReturns_nil, noteTails_nil]; rfl, List.nodup_nil, nofun, rfl, hclosed⟩ }

/-- No block is open around the function, so what is noted in it is noted of none. -/
theorem leads_outsideExits (hK : Lasting K) {x : LispM FunctionId} (hx : Adds K d x) (hs : s.Bodied) :
    Leads (outsideExits x) s
      (fun f s' => ∃ g, s'.image.Body s.pairCount s'.pairCount g f ∧ f.index < s'.image.functions.size ∧
        Records K 0 [] [] s s')
      fun _ s' => Records K 0 [] [] s s' := by
  unfold outsideExits
  rw [leads_bind, leads_get, leads_bind, leads_modifyScopes, leads_bind, leads_attempt]
  have hs' : (s.rescoped Scopes.outside).Compiling := ⟨hs, Scopes.counted_of_nil rfl⟩
  refine (hx _ hs').mono ?_ ?_
  · rintro f s' ⟨g, hb, hf, hr⟩
    rw [leads_bind, leads_modifyScopes]
    exact ⟨g, hb, hf, hr.outsideExits hK⟩
  · rintro e s' ⟨rs, ts, hr⟩
    rw [leads_bind, leads_modifyScopes]
    exact hr.waitless.outsideExits hK

/-- An expander shares its code with the macro. -/
theorem Image.code_withExpander (image : Image) (f : FunctionId) (hf : f.index < image.functions.size) :
    ((image.withExpander f).function ⟨image.functions.size⟩).code = (image.function f).code := by
  simp only [withExpander, function, Array.getD_eq_getD_getElem?, Array.getElem?_modify, Array.getElem?_push,
    Nat.ne_of_lt hf, if_false, if_true, Option.getD_some]

/-- A macro that has been added gets an expander. -/
theorem leads_addExpander (hK : Lasting K) (hr : Records K 0 [] [] s s')
    (hb : s'.image.Body s.pairCount s'.pairCount g f) (hf : f.index < s'.image.functions.size) :
    Leads (addExpander f) s' (fun _ s'' => Records K 0 [] [] s s'') fun _ _ => False := by
  have hkeeps := s'.image.keepsFunctions_withExpander f
  show Records K 0 [] [] s { s' with image := s'.image.withExpander f }
  exact
    { hr with
      lasting := hK.trans hr.lasting (hK.added (.refl _) hkeeps rfl)
      functions := hr.functions.trans hkeeps
      bodies := fun g' hg hg' => by
        by_cases hlt : g'.index < s'.image.functions.size
        · obtain ⟨lo, hi, p, hbody, hlo, hhi, hts⟩ := hr.bodies g' hg hlt
          exact ⟨lo, hi, p, hbody.keeps hlt (.refl _) hkeeps, hlo, hhi, hts⟩
        · -- the only new function is the expander, which has the code of the macro
          have hsize : (s'.image.withExpander f).functions.size = s'.image.functions.size + 1 := by
            simp [Image.withExpander]
          have heq : g' = ⟨s'.image.functions.size⟩ := FunctionId.eq_last hlt (hsize ▸ hg')
          refine ⟨_, _, g, ?_, Nat.le_refl _, Nat.le_refl _, by simp⟩
          unfold Image.Body
          rw [heq, Image.code_withExpander _ _ hf]
          exact Image.Whole.keeps hb (.refl _) hkeeps }

end

/-- The function is added first. The name and the instruction that loads it come after that, and a
    failure leaves no more than pairs and functions. -/
theorem codes_definitionBy (hK : Lasting K) {make : SymbolId → Value → Value → LispM FunctionId}
    (hmake : ∀ name params body, ∃ d x, Adds K d x ∧ make name params body = outsideExits x)
    (kind : FunctionKind) (args : Value) : Codes K 0 (definitionBy make kind args cont) cont := by
  refine .after hK (preserves_quiet hK (quiet_arguments args)) fun items => ?_
  split
  · next nameForm params _ =>
    split
    · next name _ =>
      refine .after hK (preserves_quiet hK (looks_checkRedefinition ..).quiet) fun _ => ?_
      refine .after hK (preserves_quiet hK (quiet_parseLambdaList ..)) fun frame => ?_
      refine .after hK (preserves_asks hK _) fun previous => ?_
      refine .after hK (preserves_update hK name _) fun _ => ?_
      refine .after hK (preserves_query hK _) fun body => ?_
      refine .after hK (preserves_quiet hK (quiet_heap _)) fun body => ?_
      refine .after hK (preserves_quiet hK (quiet_heap _)) fun block => ?_
      refine .after hK (preserves_quiet hK (quiet_heap _)) fun body => ?_
      -- what is done after the function has been compiled, with a message of either kind
      have hend (f : FunctionId) (text : Image → String) : Codes K 0 (do
          SymbolTable.setCell name (.function f)
          Image.record .debug text
          emit .ldc [.ofSymbol name] cont) cont :=
        .after hK (preserves_update hK name _) fun _ =>
          .after hK (preserves_quiet hK (quiet_record .debug _ (by simp))) fun _ => codes_ldc hK _
      intro s names ending ho
      obtain ⟨d, x, hx, heq⟩ := hmake name params body
      rw [heq, leads_bind, leads_attempt]
      refine (leads_outsideExits hK hx ho.bodied).mono ?_ ?_
      · rintro f s₁ ⟨g, hb, hf, hr⟩
        have hafter (s₂ : Interpreter) (text : Image → String) (hr : Records K 0 [] [] s s₂) :=
          (hend f text (ho.after hr)).mono (fun _ _ h => h.after hK hr) fun _ _ h => h.since hK hr.any (.inr rfl)
        dsimp only
        rw [pure_bind]
        split
        · rw [leads_bind]
          exact (leads_addExpander hK hr hb hf).mono (fun _ s₂ hr => hafter s₂ _ hr) fun _ _ h => h.elim
        · exact hafter s₁ _ hr
      · -- after a failure the earlier definition is put back
        rintro e s₁ hr
        refine ((preserves_update hK name _).since hK ho.bodied hr.any).bind fun _ s₂ hr₂ => ?_
        exact ⟨_, _, hr.any.trans hK hr₂.any⟩
    · exact .after hK (preserves_quiet hK (quiet_shown _)) fun _ => codes_invalid hK ..
  · exact codes_invalid hK ..

/-- The compiler compiles the functions of definitions in this way. -/
theorem codes_compileDefinition (hK : Lasting K) (hc : Tracks K compile) (kind : FunctionKind) (args : Value) :
    Codes K 0 (compileDefinition compile kind args cont) cont := by
  rw [compileDefinition_eq]
  exact codes_definitionBy hK (fun name params body =>
    ⟨1, _, adds_compileFunction hK hc name kind params body [], rfl⟩) kind args

/-! ## Forms -/

/-- One case for each of the special forms. -/
theorem codes_compileSpecialForm (hK : Lasting K) (hc : Tracks K compile) (form : SpecialForm) (args : Value)
    (env : LexicalEnv) : Codes K 0 (compileSpecialForm compile form args env cont) cont := by
  cases form with
  | quoteForm => exact codes_compileQuote hK args
  | ifForm => exact codes_compileIf hK hc ..
  | prognForm => exact codes_compileBody hK hc ..
  | setqForm => exact codes_compileSetq hK hc ..
  | lambdaForm => exact codes_compileLambda hK hc ..
  | letForm => exact codes_compileLet hK hc ..
  | letStarForm => exact codes_compileLetStar hK hc ..
  | letrecForm => exact codes_compileLetrec hK hc ..
  | andForm => exact codes_compileAnd hK hc ..
  | orForm => exact codes_compileOr hK hc ..
  | defunForm | defmacroForm => exact codes_compileDefinition hK hc ..

section

variable (hK : Lasting K) (hc : Tracks K compile) (he : ∀ f args, Preserves K (expand f args))
include hK hc he

/-- An expansion is compiled in place of the call, so it is a piece as any form. -/
theorem codes_compileSymbolCall (name : SymbolId) (args : Value) (env : LexicalEnv) :
    Codes K 0 (compileSymbolCall compile expand name args env cont) cont := by
  unfold compileSymbolCall
  split
  · exact codes_compileSpecialForm hK hc ..
  · refine .after hK (preserves_asks hK _) fun cell => ?_
    split
    · exact codes_compilePrimitiveCall hK hc ..
    · refine .after hK (preserves_asks hK _) fun function => ?_
      split
      · exact .after hK (he _ _) fun expansion => hc ..
      · exact codes_compileNamedCall hK hc ..
    · exact .after hK (preserves_quiet hK (quiet_nameOf _)) fun _ => codes_invalid hK ..
    · exact codes_compileNamedCall hK hc ..
    · exact .after hK (preserves_quiet hK (quiet_nameOf _)) fun _ => codes_throw hK _

/-- The head decides which rule applies. -/
theorem codes_compilePair (id : PairId) (env : LexicalEnv) :
    Codes K 0 (compilePair compile expand id env cont) cont := by
  refine .after hK (preserves_asks hK _) fun args => ?_
  refine .after hK (preserves_quiet hK (quiet_walk _ (fun _ _ => rfl) fun _ _ => Heap.isProperList_ordinary)) fun proper => ?_
  dsimp only
  split
  -- an improper list is an error, and the code after it is the same call
  case' isFalse =>
    refine .after hK (preserves_quiet hK (quiet_shown _)) fun _ => ?_
    refine .after hK (preserves_quiet hK (quiet_invalid ..)) fun _ => ?_
  all_goals
    refine .after hK (preserves_asks hK _) fun head => ?_
    split
    · exact codes_compileSymbolCall hK hc he ..
    · refine .after hK (preserves_asks hK _) fun isLambda => ?_
      split
      · exact codes_compileLambdaCall hK hc ..
      · exact .after hK (preserves_quiet hK (quiet_shown _)) fun _ => codes_invalid hK ..

/-- The compiler makes a piece of every form, if that for the forms inside does. -/
theorem tracks_compileForm : Tracks K (compileForm compile expand) := by
  intro form env cont
  unfold compileForm
  split
  · exact codes_compileSymbol hK _ env
  · exact codes_compilePair hK hc he ..
  · exact codes_ldc hK _

end

/-! ## Top-level forms -/

section

variable {s s' : Interpreter}

/-- Scopes in which nothing is noted. -/
def Scopes.fresh (c : Scopes) : Scopes := { c.clear with pendingTails := #[] }

/-- The code is a piece in front of a stop, and nothing else has happened since `s`. -/
def Toplevel (K : Interpreter → Interpreter → Prop) (s : Interpreter) (c : Value) (s' : Interpreter) : Prop :=
  ∃ stop g rs, s'.image.heap.Placed s.pairCount stop .stop [] .nil ∧
    s'.image.Makes (stop.index + 1) s'.pairCount [] .stop (.pair stop) g c ∧
    Records K 0 rs [] (s.rescoped Scopes.fresh) s'

/-- A top-level form is compiled in fresh scopes, which are forgotten after a failure. -/
theorem leads_compileToplevel (hK : Lasting K) (hc : Tracks K compile) (hs : s.Bodied) (form : Value) :
    Leads (compileToplevel compile form) s (Toplevel K s) fun _ s' =>
      ∃ rs s₁ f, Records K 0 rs [] (s.rescoped Scopes.fresh) s₁ ∧ s' = s₁.rescoped f := by
  unfold compileToplevel
  rw [leads_bind, leads_modifyScopes]
  have hs₁ : (s.rescoped Scopes.fresh).Compiling := ⟨hs, Scopes.counted_of_nil rfl⟩
  refine ((preserves_quiet hK (quiet_record .debug _ nofun) _ hs₁.bodied).mono (fun _ _ h => h) fun _ s' hr => ?_).bind ?_
  · exact ⟨_, s', id, hr, rfl⟩
  intro _ s₂ hr₂
  refine ((leads_emit_placed rfl).mono (fun _ _ h => h) fun _ s' h => ?_).bind ?_
  · exact ⟨_, s', id, hr₂.trans hK (.of_calm hK h), rfl⟩
  rintro _ s₃ ⟨hcalm, stop, rfl, hplaced, hlt⟩
  have hr₃ := hr₂.trans hK (Records.of_calm hK hcalm)
  -- In front of the `STOP` nothing is open: no block, no tagbody and no call to settle.
  have ho : s₃.Open (.pair stop) [] .stop := ⟨hr₃.compiling hs₁, .stop hplaced.op, List.nil_prefix⟩
  rw [leads_bind, leads_attempt]
  refine (hc form [] _ ho).mono ?_ ?_
  · rintro c s₄ ⟨g, hm, hr₄⟩
    have hr := hr₃.trans hK hr₄
    refine ⟨stop, g, _, (hplaced.keeps hr₄.keeps).mono hr₂.keeps.pairCount, hm.mono hlt (Nat.le_refl _), hr.waitless⟩
  · rintro e s₄ ⟨rs, ts, hr₄⟩
    rw [leads_bind, leads_modifyScopes]
    exact ⟨_, s₄, _, hr₃.trans hK hr₄.waitless, rfl⟩

/-- What has happened in scopes of their own is noted nowhere. -/
theorem Records.apart (hK : Lasting K) {rs : List (Value × Nat)} {f : Scopes → Scopes}
    (hr : Records K 0 rs [] (s.rescoped f) s') : Records K 0 [] [] s (s'.rescoped fun _ => s.scopes) where
  lasting := hK.trans (hK.trans (hK.rescoped s _) hr.lasting) (hK.rescoped s' _)
  keeps := hr.keeps
  functions := hr.functions
  tagbodies := rfl
  depth := rfl
  size := Nat.le_refl _
  earlier _ _ := rfl
  blocks := ⟨[], by rw [noteReturns_nil, noteTails_nil]; rfl, List.nodup_nil, nofun, rfl, fun j p hj hp _ =>
    absurd (Array.getElem?_eq_some_iff.1 hp).1 (Nat.not_lt.2 hj)⟩
  calls := nofun
  bodies := hr.bodies

/-- A form that is compiled while another one is leaves the scopes of that one alone. -/
theorem preserves_compileApart (hK : Lasting K) (hc : Tracks K compile) (form : Value) :
    Preserves K (compileApart compile form) := by
  intro s hs
  unfold compileApart
  rw [leads_bind, leads_get, leads_bind, leads_modifyScopes, leads_bind, leads_attempt]
  refine (leads_compileToplevel hK hc (s := s.rescoped fun _ => {}) hs form).mono ?_ ?_
  · rintro c s' ⟨stop, g, rs, -, -, hr⟩
    rw [leads_bind, leads_modifyScopes]
    exact Records.apart hK (f := fun _ => ({} : Scopes).fresh) hr
  · rintro e _ ⟨rs, s₁, f, hr, rfl⟩
    rw [leads_bind, leads_modifyScopes]
    show Records K 0 [] [] s (s₁.rescoped fun _ => s.scopes)
    exact Records.apart hK (f := fun _ => ({} : Scopes).fresh) hr

end

end StackLisp
