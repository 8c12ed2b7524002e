import StackLisp.Proofs.Streams.Forms

/-!
# Pieces for functions

The code of a function is a piece in front of a return (`Writes`), which then is the code of
an entry of the table (`Adds`). What stands for the function in the code around it is a
closure of the entry. One more function is around the forms in the body, so a return from
there is deeper by one.
-/

namespace StackLisp

open Interpreter Compiler

variable {α β : Type} {K : Interpreter → Interpreter → Prop} {cont : Value} {d : Nat} {compile : CompileRule}

/-- The action makes a piece in front of a return. -/
def Writes (K : Interpreter → Interpreter → Prop) (d : Nat) (x : LispM Value) : Prop :=
  ∀ s, s.Compiling → Leads x s
    (fun c s' => ∃ g, s'.image.Whole s.pairCount s'.pairCount g c ∧ Records K 0 (g.returnsUnder d) [] s s')
    fun _ s' => Fallen K 0 s s'

/-- The action adds a function, whose code it has made. -/
def Adds (K : Interpreter → Interpreter → Prop) (d : Nat) (x : LispM FunctionId) : Prop :=
  ∀ s, s.Compiling → Leads x s
    (fun f s' => ∃ g, s'.image.Body s.pairCount s'.pairCount g f ∧ f.index < s'.image.functions.size ∧
      Records K 0 (g.returnsUnder d) [] s s')
    fun _ s' => Fallen K 0 s s'

/-! ## One more function around -/

section

variable {s s' : Interpreter} {k : Nat} {rs : List (Value × Nat)} {ts : List (PairId × Bool)}

/-- The interpreter with other scopes. -/
def Interpreter.rescoped (s : Interpreter) (f : Scopes → Scopes) : Interpreter := { s with scopes := f s.scopes }

/-- A lasting relation does not look at the scopes. -/
theorem Lasting.rescoped (hK : Lasting K) (s : Interpreter) (f : Scopes → Scopes) : K s (s.rescoped f) :=
  hK.added (.refl _) (.refl _) rfl

/-- What has happened inside of one more function has happened outside. -/
theorem Records.insideFunction (hK : Lasting K)
    (hr : Records K k rs ts (s.rescoped fun c => { c with functionDepth := c.functionDepth + 1 }) s') :
    Records K k (rs.map fun r => (r.1, r.2 + 1)) ts s
      (s'.rescoped fun c => { c with functionDepth := c.functionDepth - 1 }) where
  lasting := hK.trans (hK.trans (hK.rescoped s _) hr.lasting) (hK.rescoped s' _)
  keeps := hr.keeps
  functions := hr.functions
  tagbodies := hr.tagbodies
  depth := congrArg (· - 1) hr.depth
  size := hr.size
  earlier := hr.earlier
  blocks := by
    obtain ⟨indices, hblocks, hrest⟩ := hr.blocks
    -- seen from outside, each return comes out of one function more
    exact ⟨indices, hblocks.trans (by rw [← noteReturns_succ]; rfl), hrest⟩
  calls := hr.calls
  bodies := hr.bodies

end

/-- A return in the body is one function deeper than the body itself. -/
theorem codes_insideFunction (hK : Lasting K) {x : LispM Value} (hx : Codes K 0 x cont) :
    Codes K 1 (insideFunction x) cont := by
  intro s names ending ho
  unfold insideFunction
  rw [leads_bind, leads_modifyScopes, leads_bind, leads_attempt]
  have ho' : (s.rescoped fun c => { c with functionDepth := c.functionDepth + 1 }).Open cont names ending :=
    ⟨⟨ho.bodied, ho.counted.congr rfl rfl⟩, ho.ends, ho.names⟩
  refine (hx ho').mono ?_ ?_
  · rintro c s' ⟨g, hm, hr⟩
    rw [leads_bind, leads_modifyScopes]
    rw [Piece.returnsUnder_zero] at hr
    exact ⟨g, hm, hr.insideFunction hK⟩
  · rintro e s' ⟨rs, ts, hr⟩
    rw [leads_bind, leads_modifyScopes]
    exact ⟨_, _, hr.insideFunction hK⟩

/-! ## The code of a function -/

/-- Code in front of a return. -/
theorem writes_rtn (hK : Lasting K) {f : Value → LispM Value} (hf : ∀ rtn, Codes K d (f rtn) rtn) :
    Writes K d (do let rtn ← emit .rtn [] .nil; f rtn) := by
  intro s hs
  refine (leads_emit_since hK (.refl hK s) rfl).bind ?_
  rintro _ s₁ ⟨hr₁, rtn, rfl, hplaced, hlt⟩
  have ho₁ : s₁.Open (.pair rtn) [] .rtn := ⟨hr₁.compiling hs, .rtn hplaced.op, List.nil_prefix⟩
  refine ((hf _).since hK ho₁ hr₁ (.inl rfl)).mono ?_ fun _ _ h => h
  rintro c s₂ ⟨g, hm, hr₂⟩
  -- in front of a return, the calls in tail position have been decided
  have hfinal : g.Final s₂.image.heap := by
    have := hm.settled
    rwa [Piece.Settled, if_pos ⟨rfl, rfl⟩] at this
  exact ⟨g, ⟨hplaced.keeps hr₂.keeps, hm.emits.mono hlt (Nat.le_refl _), hm.decided, hfinal⟩, hr₁.trans hK hr₂⟩

/-- Something else first, and then the code of a function. -/
theorem Writes.after (hK : Lasting K) {x : LispM α} {f : α → LispM Value} (hx : Preserves K x)
    (hf : ∀ a, Writes K d (f a)) : Writes K d (x >>= f) := by
  intro s hs
  refine (leads_bind f).2 ((hx s hs.bodied).mono (fun a s' hr => ?_) fun e s' hr => ⟨_, _, hr⟩)
  refine (hf a s' (hr.compiling hs)).mono ?_ fun _ _ h => h.since hK hr (.inl rfl)
  rintro c s'' ⟨g, ⟨ends, inside, decided, final⟩, hr'⟩
  exact ⟨g, ⟨ends.mono hr.keeps.pairCount, inside, decided, final⟩, hr.trans hK hr'⟩

/-- The ends of dynamic bindings and the return come first, then the body in front of them, and the
    bindings last. -/
theorem writes_compileFunctionBody (hK : Lasting K) (hc : Tracks K compile) (frame : LexicalFrame) (body : Value)
    (env : LexicalEnv) : Writes K 1 (compileFunctionBody compile frame body env) := by
  refine .after hK (preserves_asks hK _) fun specials => ?_
  refine writes_rtn hK fun rtn => ?_
  -- from back to front: the unbindings, the body, and each binding with the load of its argument
  refine Fronts.bind hK (fronts_foldlM hK ?_ specials rtn) fun tail => ?_
  · exact fun code special => codes_emit hK rfl nofun rfl
  refine .then hK (codes_insideFunction hK (codes_compileBody hK hc body _)) fun code => ?_
  refine fronts_foldrM hK (fun special code => ?_) specials code
  refine .bind hK (codes_emit hK rfl nofun rfl) fun code => ?_
  dsimp only
  split <;> exact codes_emit hK rfl nofun rfl

/-! ## Functions of the table -/

section

variable {s s' : Interpreter} {rs : List (Value × Nat)} {g : Piece} {f : CompiledFunction}

/-- The interpreter with one more function. -/
def Interpreter.withFunction (s : Interpreter) (f : CompiledFunction) : Interpreter :=
  { s with image.functions := s.image.functions.push f }

/-- There is one more function only, the last one. -/
theorem FunctionId.eq_last {f : FunctionId} {n : Nat} (hn : ¬f.index < n) (hf : f.index < n + 1) : f = ⟨n⟩ := by
  obtain ⟨index⟩ := f
  congr 1
  exact Nat.le_antisymm (Nat.le_of_lt_succ hf) (Nat.le_of_not_lt hn)

/-- The new function is the one with the last number. -/
theorem Interpreter.function_withFunction :
    (s.withFunction f).image.function ⟨s.image.functions.size⟩ = f := by
  simp [withFunction, Image.function]

/-- Its code was made by what has happened before, so each function still has a body. -/
theorem Records.withFunction (hK : Lasting K) (hr : Records K 0 rs [] s s')
    (hw : s'.image.Whole s.pairCount s'.pairCount g f.code) : Records K 0 rs [] s (s'.withFunction f) :=
  have hfunctions := s'.image.keepsFunctions_push f
  { hr with
    lasting := hK.trans hr.lasting (hK.added (.refl _) hfunctions rfl)
    functions := hr.functions.trans hfunctions
    bodies := fun g' hg hg' => by
      by_cases hlt : g'.index < s'.image.functions.size
      · obtain ⟨lo, hi, p, hb, hlo, hhi, hts⟩ := hr.bodies g' hg hlt
        exact ⟨lo, hi, p, hb.keeps hlt (.refl _) hfunctions, hlo, hhi, hts⟩
      · -- a new function is a later one or the function that is entered
        have hsize : (s'.withFunction f).image.functions.size = s'.image.functions.size + 1 := by
          simp [Interpreter.withFunction]
        have heq : g' = ⟨s'.image.functions.size⟩ := FunctionId.eq_last hlt (hsize ▸ hg')
        refine ⟨_, _, g, ?_, Nat.le_refl _, Nat.le_refl _, nofun⟩
        unfold Image.Body
        rw [heq, Interpreter.function_withFunction]
        exact Image.Whole.keeps hw (.refl _) hfunctions }

end

/-- What is written is entered into the table. -/
theorem Writes.adds (hK : Lasting K) {x : LispM Value} (hx : Writes K d x)
    (f : Value → Bool → CompiledFunction) (hf : ∀ code builtin, (f code builtin).code = code) :
    Adds K d (do
      let code ← x
      let builtin ← asks (·.definingBuiltins)
      Image.addFunction (f code builtin)) := by
  intro s hs
  refine (hx s hs).bind ?_
  rintro code s' ⟨g, hw, hr⟩
  rw [leads_bind, leads_asks, leads_image]
  have hw' : s'.image.Whole s.pairCount s'.pairCount g (f code s'.image.definingBuiltins).code := (hf ..).symm ▸ hw
  have hr' := hr.withFunction hK hw'
  refine ⟨g, ?_, by simp, hr'⟩
  show Image.Whole _ _ _ _ ((s'.withFunction (f code s'.image.definingBuiltins)).image.function _).code
  rw [Interpreter.function_withFunction]
  exact hw'.keeps (.refl _) (s'.image.keepsFunctions_push _)

/-- Something else first, and then a function. -/
theorem Adds.after (hK : Lasting K) {x : LispM α} {f : α → LispM FunctionId} (hx : Preserves K x)
    (hf : ∀ a, Adds K d (f a)) : Adds K d (x >>= f) := by
  intro s hs
  refine (leads_bind f).2 ((hx s hs.bodied).mono (fun a s' hr => ?_) fun e s' hr => ⟨_, _, hr⟩)
  refine (hf a s' (hr.compiling hs)).mono ?_ fun _ _ h => h.since hK hr (.inl rfl)
  rintro c s'' ⟨g, ⟨ends, inside, decided, final⟩, hf, hr'⟩
  exact ⟨g, ⟨ends.mono hr.keeps.pairCount, inside, decided, final⟩, hf, hr.trans hK hr'⟩

/-- The lambda list is parsed before the body is compiled. -/
theorem adds_compileFunction (hK : Lasting K) (hc : Tracks K compile) (name : Option SymbolId)
    (kind : FunctionKind) (params body : Value) (env : LexicalEnv) :
    Adds K 1 (compileFunction compile name kind params body env) :=
  .after hK (preserves_quiet hK (quiet_parseLambdaList ..)) fun frame =>
    (writes_compileFunctionBody hK hc frame body env).adds hK
      (fun code builtin => { name, kind, arity := frameArity frame, code, builtin }) fun _ _ => rfl

/-! ## Closures -/

namespace Image.Makes

variable {image : Image} {lo mid m hi : Nat} {names : List Value} {ending : Ending} {body rest : Piece}
  {f : FunctionId} {k : Value} {id : PairId}

/-- A closure. -/
theorem closure (hb : image.Body lo mid body f) (known : f.index < image.functions.size)
    (placed : image.heap.Placed mid id .ldf [.function f] cont) (below : id.index < hi) :
    image.Makes lo hi names ending cont (.enter f body .skip) (.pair id) := by
  obtain ⟨ends, inside, decided, final⟩ := hb
  refine ⟨.enter known ends inside (.skip (Nat.le_refl _)) placed below, rfl, ⟨decided, trivial, final⟩, ?_⟩
  unfold Piece.Settled
  split <;> exact nofun

/-- A closure in front of code made after its body. -/
theorem enter (hb : image.Body lo mid body f) (known : f.index < image.functions.size)
    (hm : image.Makes mid m names ending cont rest k)
    (placed : image.heap.Placed m id .ldf [.function f] k) (below : id.index < hi) :
    image.Makes lo hi names ending cont (.enter f body rest) (.pair id) := by
  obtain ⟨ends, inside, decided, final⟩ := hb
  exact ⟨.enter known ends inside hm.emits placed below, rfl, ⟨decided, hm.decided, final⟩, hm.settled⟩

end Image.Makes

/-- A closure of what is added. -/
theorem codes_closure (hK : Lasting K) {x : LispM FunctionId} (hx : Adds K 1 x) :
    Codes K 0 (do let f ← x; emit .ldf [.function f] cont) cont := by
  intro s names ending ho
  refine ((hx s ho.toCompiling).mono (fun _ _ h => h) fun _ _ h => ?_).bind ?_
  · exact h.since hK (.refl hK s) (.inl rfl)
  rintro f s₁ ⟨g, hb, hf, hr₁⟩
  refine (leads_emit_since hK hr₁.waitless rfl).mono ?_ fun _ _ h => h
  rintro _ s₂ ⟨hr₂, id, rfl, hplaced, hlt⟩
  refine ⟨_, .closure (hb.keeps hf hr₂.keeps hr₂.functions) (Nat.lt_of_lt_of_le hf hr₂.functions.size) hplaced hlt, ?_⟩
  rw [Piece.returnsUnder_zero]
  simpa [Piece.pending, Piece.tails, Piece.returns, Piece.returnsUnder] using (hr₁.trans hK hr₂).waitless

/-- A closure of what is added, in front of code made after it. -/
theorem codes_enter (hK : Lasting K) {x : LispM FunctionId} {y : LispM Value} (hx : Adds K 1 x)
    (hy : Codes K 0 y cont) :
    Codes K 0 (do let f ← x; let code ← y; emit .ldf [.function f] code) cont := by
  intro s names ending ho
  refine ((hx s ho.toCompiling).mono (fun _ _ h => h) fun _ _ h => ?_).bind ?_
  · exact h.since hK (.refl hK s) (.inl rfl)
  rintro f s₁ ⟨g, hb, hf, hr₁⟩
  refine (hy.since hK (ho.after hr₁) hr₁.waitless (.inr rfl)).bind ?_
  rintro code s₂ ⟨g', hm, hr₂⟩
  have hr := hr₁.waitless.trans hK hr₂
  refine (leads_emit_since hK hr rfl).mono ?_ fun _ _ h => h
  rintro _ s₃ ⟨hr₃, id, rfl, hplaced, hlt⟩
  have hf₂ := Nat.lt_of_lt_of_le hf hr₂.functions.size
  refine ⟨_, .enter ((hb.keeps hf hr₂.keeps hr₂.functions).keeps hf₂ hr₃.keeps hr₃.functions)
    (Nat.lt_of_lt_of_le hf₂ hr₃.functions.size) (hm.keeps hr₃.keeps hr₃.functions) hplaced hlt, ?_⟩
  rw [Piece.returnsUnder_zero]
  simpa [Piece.pending, Piece.tails, Piece.returns, Piece.returnsUnder] using hr.trans hK hr₃.any

/-! ## Forms with functions -/

theorem preserves_query (hK : Lasting K) (f : Image → Except Error α) : Preserves K (query f) := fun s _ => by
  rw [leads_query]
  split <;> exact .refl hK s

/-- The instruction that loads the closure comes after the function has been added. -/
theorem codes_compileLambda (hK : Lasting K) (hc : Tracks K compile) (args : Value) (env : LexicalEnv) :
    Codes K 0 (compileLambda compile args env cont) cont :=
  .after hK (preserves_query hK _) fun _ => .after hK (preserves_query hK _) fun _ =>
    codes_closure hK (adds_compileFunction hK hc _ _ _ _ env)

/-- The call and its arguments are compiled first, and then the function in front of them. -/
theorem codes_compileLambdaCall (hK : Lasting K) (hc : Tracks K compile) (lambda args : Value) (env : LexicalEnv) :
    Codes K 0 (compileLambdaCall compile lambda args env cont) cont := by
  refine .after hK (preserves_quiet hK (quiet_arguments args)) fun argv => ?_
  refine .after hK (preserves_query hK _) fun params => ?_
  refine .after hK (preserves_quiet hK (quiet_parseLambdaList ..)) fun frame => ?_
  refine .after hK (preserves_quiet hK (quiet_ofExcept _)) fun _ => ?_
  refine .bind hK (codes_emitApply hK _) fun code => ?_
  refine Fronts.bind hK (fronts_compileArgs hK hc argv env) fun code => ?_
  exact .after hK (preserves_query hK _) fun lambda => codes_compileLambda hK hc lambda env

/-- The function is added first. The call, the values and the closure are made after it. -/
theorem codes_compileLet (hK : Lasting K) (hc : Tracks K compile) (args : Value) (env : LexicalEnv) :
    Codes K 0 (compileLet compile args env cont) cont := by
  refine .after hK (preserves_query hK _) fun bindings => ?_
  refine .after hK (preserves_query hK _) fun body => ?_
  refine .after hK (preserves_quiet hK (quiet_parseBindings ..)) fun bindings => ?_
  split
  · exact codes_compileBody hK hc body env
  · have hbody : Adds K 1 (do
        let code ← compileFunctionBody compile { names := bindings.map (·.1) } body env
        addAnonymous (.exactly bindings.length) code) :=
      (writes_compileFunctionBody hK hc _ body env).adds hK
        (fun code builtin => { arity := .exactly bindings.length, code, builtin }) fun _ _ => rfl
    have hrest : Codes K 0 (do
        let code ← emitApply bindings.length cont
        compileArgs compile (bindings.map (·.2)) env code) cont :=
      .then hK (codes_emitApply hK _) fun code => fronts_compileArgs hK hc _ env
    simpa only [bind_assoc] using codes_enter hK hbody hrest

/-- A `let` of the first binding, with the rest in its body. -/
theorem codes_compileLetStar (hK : Lasting K) (hc : Tracks K compile) (args : Value) (env : LexicalEnv) :
    Codes K 0 (compileLetStar compile args env cont) cont := by
  refine .after hK (preserves_query hK _) fun bindings => ?_
  refine .after hK (preserves_query hK _) fun body => ?_
  refine .after hK (preserves_quiet hK (quiet_elements? _)) fun items => ?_
  split
  · exact codes_invalid hK ..
  · refine .after hK (preserves_query hK _) fun others => ?_
    refine .after hK (preserves_quiet hK (quiet_heap _)) fun inner => ?_
    refine .after hK (preserves_quiet hK (quiet_heap _)) fun inner => ?_
    refine .after hK (preserves_quiet hK (quiet_heap _)) fun first => ?_
    refine .after hK (preserves_quiet hK (quiet_heap _)) fun outerBody => ?_
    exact .after hK (preserves_quiet hK (quiet_heap _)) fun outer => codes_compileLet hK hc outer env
  · exact codes_compileLet hK hc args env

/-- Here the body belongs to a function as well, while the values are compiled around it. -/
theorem codes_compileLetrec (hK : Lasting K) (hc : Tracks K compile) (args : Value) (env : LexicalEnv) :
    Codes K 0 (compileLetrec compile args env cont) cont := by
  refine .after hK (preserves_query hK _) fun bindings => ?_
  refine .after hK (preserves_query hK _) fun body => ?_
  refine .after hK (preserves_quiet hK (quiet_parseBindings ..)) fun bindings => ?_
  split
  · exact codes_compileBody hK hc body env
  · refine .after hK (preserves_asks hK _) fun special => ?_
    -- The body is a function of its own.
    have hbody : Adds K 1 (do
        let rtn ← emit .rtn [] .nil
        let code ← insideFunction (compileBody compile body ({ names := bindings.map (·.1) } :: env) rtn)
        addAnonymous (.exactly (bindings.map (·.1)).length) code) := by
      have := (writes_rtn hK fun rtn => codes_insideFunction hK
        (codes_compileBody hK hc body ({ names := bindings.map (·.1) } :: env))).adds hK
        (fun code builtin => { arity := .exactly (bindings.map (·.1)).length, code, builtin }) fun _ _ => rfl
      simpa only [bind_assoc, addAnonymous] using this
    -- The values in front of `RAP`.
    have hrest : Codes K 0 (do
        let code ← emit .rap [.ofNat (bindings.map (·.1)).length] cont
        compileArgs compile (bindings.map (·.2)) ({ names := bindings.map (·.1) } :: env) code) cont :=
      .then hK (codes_emit hK rfl nofun rfl) fun code => fronts_compileArgs hK hc _ _
    -- All of it, in the order it is made in.
    have hdum : Codes K 0 (do
        let code ← (do
          let f ← (do
            let rtn ← emit .rtn [] .nil
            let code ← insideFunction (compileBody compile body ({ names := bindings.map (·.1) } :: env) rtn)
            addAnonymous (.exactly (bindings.map (·.1)).length) code)
          let code ← (do
            let code ← emit .rap [.ofNat (bindings.map (·.1)).length] cont
            compileArgs compile (bindings.map (·.2)) ({ names := bindings.map (·.1) } :: env) code)
          emit .ldf [.function f] code)
        emit .dum [.ofNat (bindings.map (·.1)).length] code) cont :=
      .bind hK (codes_enter hK hbody hrest) fun code => codes_emit hK rfl nofun rfl
    split
    · refine .after hK (preserves_quiet hK (quiet_nameOf _)) fun _ => ?_
      refine .after hK (preserves_quiet hK (quiet_invalid ..)) fun _ => ?_
      simpa only [bind_assoc] using hdum
    · simpa only [bind_assoc] using hdum

end StackLisp
