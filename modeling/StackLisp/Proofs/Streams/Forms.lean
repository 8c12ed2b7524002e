import StackLisp.Proofs.Streams.Emit

/-!
# Pieces for forms without functions

The rules of the compiler for variables, constants, branches, assignments, sequences and
calls make pieces in front of the continuation, if the compiler for the forms inside does.
-/

namespace StackLisp

open Interpreter Compiler

variable {α β : Type} {K : Interpreter → Interpreter → Prop} {cont : Value} {d : Nat} {compile : CompileRule}

/-- A form that is refused adds no code. -/
theorem codes_invalid (hK : Lasting K) (form : String) (f : FormFault) : Codes K d (invalid form f) cont :=
  codes_throw hK _

/-- Pieces put in front of each other along a list, each in front of the last. -/
theorem fronts_foldlM (hK : Lasting K) {f : Value → α → LispM Value} (hf : ∀ c a, Codes K d (f c a) c) :
    ∀ (l : List α) (c : Value), Fronts K d (l.foldlM f c) c
  | [], c => by
    rw [List.foldlM_nil]
    exact fronts_pure hK
  | a :: l, c => by
    rw [List.foldlM_cons]
    exact (hf c a).fronts.then hK fun c => fronts_foldlM hK hf l c

/-- The same from the end of a list on. -/
theorem fronts_foldrM (hK : Lasting K) {f : α → Value → LispM Value} (hf : ∀ a c, Codes K d (f a c) c) :
    ∀ (l : List α) (c : Value), Fronts K d (l.foldrM f c) c
  | [], c => by
    rw [List.foldrM_nil]
    exact fronts_pure hK
  | a :: l, c => by
    rw [List.foldrM_cons]
    exact (fronts_foldrM hK hf l c).then hK fun c => (hf a c).fronts

/-! ## Variables and constants -/

/-- A constant is a piece of one instruction. -/
theorem codes_ldc (hK : Lasting K) (v : Value) : Codes K d (emit .ldc [v] cont) cont :=
  codes_emit hK rfl nofun rfl

/-- So is throwing a value away. -/
theorem codes_pop (hK : Lasting K) : Codes K d (emit .pop [] cont) cont := codes_emit hK rfl nofun rfl

/-- A variable is loaded from its frame, from the end of a frame on, or by its name. -/
theorem codes_compileSymbol (hK : Lasting K) (id : SymbolId) (env : LexicalEnv) :
    Codes K d (compileSymbol id env cont) cont := by
  unfold compileSymbol
  refine .after hK (preserves_asks hK _) fun keyword => ?_
  split
  · exact codes_ldc hK _
  · refine .after hK (preserves_asks hK _) fun special => ?_
    split
    · exact codes_emit hK rfl nofun rfl
    · split
      · split <;> exact codes_emit hK rfl nofun rfl
      · exact .after hK (preserves_quiet hK (quiet_warnFree id)) fun _ => codes_emit hK rfl nofun rfl

/-- A quoted value is a constant. -/
theorem codes_compileQuote (hK : Lasting K) (args : Value) : Codes K d (compileQuote args cont) cont := by
  unfold compileQuote
  refine .after hK (preserves_quiet hK (quiet_elements? args)) fun items => ?_
  split
  · exact codes_ldc hK _
  · exact codes_invalid hK ..

/-! ## Sequences, branches and assignments -/

/-- Arguments are pieces in front of each other, evaluated from left to right. -/
theorem fronts_compileArgs (hK : Lasting K) (hc : Tracks K compile) (args : List Value) (env : LexicalEnv) :
    Fronts K 0 (compileArgs compile args env cont) cont :=
  fronts_foldrM hK (fun arg code => hc arg env code) args cont

/-- Forms in sequence: the value of each but the last is thrown away. -/
theorem codes_compileBody (hK : Lasting K) (hc : Tracks K compile) (forms : Value) (env : LexicalEnv) :
    Codes K 0 (compileBody compile forms env cont) cont := by
  refine .after hK (preserves_quiet hK (quiet_arguments forms)) fun items => ?_
  split
  · exact codes_ldc hK _
  · exact (hc ..).then hK fun code => fronts_foldlM hK (fun code form => (codes_pop hK).bind hK fun _ => hc ..) _ code

namespace Image.Makes

variable {image : Image} {lo m₁ m₂ hi : Nat} {names : List Value} {ending : Ending} {g g' : Piece}
  {x y : Value} {join id : PairId}

/-- Arms that join. -/
theorem sel (ends : image.heap.Placed lo join .join [] .nil)
    (yes : image.Makes (join.index + 1) m₁ [] .elsewhere (.pair join) g x)
    (no : image.Makes m₁ m₂ [] .elsewhere (.pair join) g' y)
    (placed : image.heap.Placed m₂ id .sel [x, y] cont) (below : id.index < hi) :
    image.Makes lo hi names ending cont (.branch false g g') (.pair id) where
  emits := .sel ends yes.emits no.emits placed below
  starts := rfl
  decided := ⟨yes.decided, no.decided, fun _ => ⟨yes.ordinary, no.ordinary⟩⟩
  settled := by
    unfold Piece.Settled
    split <;> exact nofun

/-- Arms that both go on to the end of the code. -/
theorem tsel (yes : image.Makes lo m₁ names ending cont g x) (no : image.Makes m₁ m₂ names ending cont g' y)
    (placed : image.heap.Placed m₂ id .tsel [x, y] .nil) (below : id.index < hi) :
    image.Makes lo hi names ending cont (.branch true g g') (.pair id) where
  emits := .tsel yes.emits no.emits placed below
  starts := rfl
  decided := ⟨yes.decided, no.decided, nofun⟩
  settled := by
    have hyes := yes.settled
    have hno := no.settled
    unfold Piece.Settled at *
    split at hyes
    · next h =>
      rw [if_pos h] at hno ⊢
      exact fun t ht => (List.mem_append.1 ht).elim (hno t) (hyes t)
    · next h =>
      rw [if_neg h] at hno ⊢
      exact fun t ht => (List.mem_append.1 ht).elim (hno t) (hyes t)

end Image.Makes

/-- Arms that join. -/
theorem codes_joining (hK : Lasting K) (hc : Tracks K compile) (thenForm elseForm : Value) (env : LexicalEnv)
    (cont : Value) :
    Codes K 0 (do
      let join ← emit .join [] .nil
      let thenCode ← compile thenForm env join
      let elseCode ← compile elseForm env join
      emit .sel [thenCode, elseCode] cont) cont := by
  intro s names ending ho
  refine (leads_emit_since hK (.refl hK s) rfl).bind ?_
  rintro _ s₁ ⟨hr₁, join, rfl, hplaced, hlt⟩
  -- Both arms end at the same join, which is no place to return from.
  have ho₁ : s₁.Open (.pair join) [] .elsewhere :=
    ⟨hr₁.compiling ho.toCompiling, .other hplaced.op nofun nofun nofun, List.nil_prefix⟩
  refine ((hc thenForm env _).since hK ho₁ hr₁.any (.inl rfl)).bind ?_
  rintro x s₂ ⟨g, hm, hr₂⟩
  refine ((hc elseForm env _).since hK (ho₁.after hr₂) (hr₁.trans hK hr₂).waitless (.inl rfl)).bind ?_
  rintro y s₃ ⟨g', hm', hr₃⟩
  have hr : Records K (ending.waits names) _ [] s s₃ := (hr₁.trans hK (hr₂.trans hK hr₃)).waitless
  refine (leads_emit_since hK hr rfl).mono ?_ fun _ _ h => h
  rintro _ s₄ ⟨hr₄, id, rfl, hsel, hbelow⟩
  -- What has been made first is kept by what is made later.
  have hkeep := hr₃.keeps.trans hr₄.keeps
  have hm₂ := hm.keeps hkeep (hr₃.functions.trans hr₄.functions)
  refine ⟨_, .sel (hplaced.keeps (hr₂.keeps.trans hkeep)) (hm₂.mono hlt (Nat.le_refl _))
    (hm'.keeps hr₄.keeps hr₄.functions) hsel hbelow, ?_⟩
  simpa [Piece.pending, Piece.tails, Piece.returns] using hr.trans hK hr₄.any

/-- The pending tail calls of a last branch are those of both its arms, the second arm first, as it
    is compiled later. -/
theorem Piece.pending_tsel (k : Nat) (g g' : Piece) :
    (Piece.branch true g g').pending k = g'.pending k ++ g.pending k := by
  unfold pending
  split <;> rfl

/-- Arms that both go on to the end of the code. -/
theorem codes_parting (hK : Lasting K) (hc : Tracks K compile) (thenForm elseForm : Value) (env : LexicalEnv)
    (cont : Value) :
    Codes K 0 (do
      let thenCode ← compile thenForm env cont
      let elseCode ← compile elseForm env cont
      emit .tsel [thenCode, elseCode] .nil) cont := by
  intro s names ending ho
  refine (hc thenForm env _ ho).bind ?_
  rintro x s₁ ⟨g, hm, hr₁⟩
  refine ((hc elseForm env _).since hK (ho.after hr₁) hr₁ (.inr rfl)).bind ?_
  rintro y s₂ ⟨g', hm', hr₂⟩
  have hr := hr₁.trans hK hr₂
  refine (leads_emit_since hK hr rfl).mono ?_ fun _ _ h => h
  rintro _ s₃ ⟨hr₃, id, rfl, hsel, hbelow⟩
  have hm₂ := hm.keeps (hr₂.keeps.trans hr₃.keeps) (hr₂.functions.trans hr₃.functions)
  refine ⟨_, .tsel hm₂ (hm'.keeps hr₃.keeps hr₃.functions) hsel hbelow, ?_⟩
  simpa [Piece.pending_tsel, Piece.returns] using hr.trans hK hr₃.any

/-- A branch at the end of the code runs to the end in both arms; otherwise, both arms join in front
    of the code that follows. -/
theorem codes_compileBranches (hK : Lasting K) (hc : Tracks K compile) (test thenForm elseForm : Value)
    (env : LexicalEnv) : Codes K 0 (compileBranches compile test thenForm elseForm env cont) cont := by
  refine .after hK (preserves_quiet hK (quiet_tailOf cont)) fun tail => ?_
  cases tail with
  | elsewhere =>
    simpa only [bind_assoc] using
      (codes_joining hK hc thenForm elseForm env cont).bind hK (hc test env)
  | toReturn | toStop =>
    simpa only [bind_assoc] using
      (codes_parting hK hc thenForm elseForm env cont).bind hK (hc test env)

/-- `if` is a branch, whose second arm may be missing. -/
theorem codes_compileIf (hK : Lasting K) (hc : Tracks K compile) (args : Value) (env : LexicalEnv) :
    Codes K 0 (compileIf compile args env cont) cont := by
  refine .after hK (preserves_quiet hK (quiet_arguments args)) fun items => ?_
  split
  · exact codes_compileBranches hK hc ..
  · exact codes_compileBranches hK hc ..
  · exact codes_invalid hK ..

/-- `and` is made of branches, one inside the other. -/
theorem codes_compileAnd (hK : Lasting K) (hc : Tracks K compile) (args : Value) (env : LexicalEnv) :
    Codes K 0 (compileAnd compile args env cont) cont := by
  refine .after hK (preserves_quiet hK (quiet_arguments args)) fun items => ?_
  split
  · exact codes_ldc hK _
  · exact .after hK (preserves_quiet hK (Quiet.foldlM (fun _ _ => quiet_heap _) _ _)) fun form => hc ..

/-- A new symbol changes no pair. -/
theorem preserves_gensym (hK : Lasting K) (stem : String) :
    Preserves K (liftM (SymbolTable.gensym stem) : LispM SymbolId) := fun _ _ =>
  leads_gensym.2 (.of_extended hK (.refl _) rfl rfl rfl)

/-- Changing a symbol changes no pair. -/
theorem preserves_update (hK : Lasting K) (id : SymbolId) (f : Symbol → Symbol) :
    Preserves K (liftM (SymbolTable.update id f) : LispM Unit) := fun s _ => by
  rw [leads_update]
  split
  · exact .refl hK s
  · exact .of_extended hK (.refl _) rfl rfl rfl

/-- Nor does declaring it special. -/
theorem preserves_declareSpecial (hK : Lasting K) (id : SymbolId) :
    Preserves K (liftM (SymbolTable.declareSpecial id) : LispM Unit) := preserves_update hK id _

/-- `or` keeps the value of each form in a fresh variable, to return it without a second
    evaluation. -/
theorem codes_compileOr (hK : Lasting K) (hc : Tracks K compile) (args : Value) (env : LexicalEnv) :
    Codes K 0 (compileOr compile args env cont) cont := by
  refine .after hK (preserves_quiet hK (quiet_arguments args)) fun items => ?_
  split
  · exact codes_ldc hK _
  · exact hc ..
  · refine .after hK (preserves_gensym hK "or") fun g => ?_
    refine .after hK (preserves_declareSpecial hK g) fun _ => ?_
    refine .after hK (preserves_quiet hK (quiet_query _ fun _ _ => rfl)) fun others => ?_
    refine .after hK (preserves_quiet hK (quiet_heap _)) fun otherwise => ?_
    refine .after hK (preserves_quiet hK (quiet_heap _)) fun test => ?_
    refine .bind hK (codes_emit hK rfl nofun rfl) fun unbind => ?_
    refine .bind hK (hc ..) fun _ => ?_
    exact .bind hK (codes_emit hK rfl nofun rfl) fun _ => hc ..

/-- An assignment stores into a frame, into the end of a frame, or under a name. -/
theorem codes_emitStore (hK : Lasting K) (var : SymbolId) (env : LexicalEnv) :
    Codes K d (emitStore var env cont) cont := by
  refine .after hK (preserves_asks hK _) fun special => ?_
  split
  · split <;> exact codes_emit hK rfl nofun rfl
  · exact codes_emit hK rfl nofun rfl

mutual

/-- Assignments in sequence, only the last of which leaves its value. -/
theorem codes_compileAssignments (hK : Lasting K) (hc : Tracks K compile) (var form : Value)
    (others : List Value) (env : LexicalEnv) :
    Codes K 0 (compileAssignments compile env cont (var :: form :: others)) cont := by
  unfold compileAssignments
  refine (fronts_compileAssignments hK hc env others).bind hK fun code => ?_
  have hend (code : Value) : Codes K 0 (do
      let var ← assignable "setq" var
      let code ← emitStore var env code
      compile form env code) code :=
    .after hK (preserves_quiet hK (quiet_assignable ..)) fun _ =>
      .bind hK (codes_emitStore hK _ env) fun _ => hc ..
  split
  · exact Fronts.bind hK (fronts_pure hK) fun code => hend code
  · exact .bind hK (codes_pop hK) fun code => hend code

/-- Also when there are none. -/
theorem fronts_compileAssignments (hK : Lasting K) (hc : Tracks K compile) (env : LexicalEnv) :
    ∀ items : List Value, Fronts K 0 (compileAssignments compile env cont items) cont
  | var :: form :: others => (codes_compileAssignments hK hc var form others env).fronts
  | [] | [_] => fronts_pure hK

end

/-- `setq` of any number of variables. -/
theorem codes_compileSetq (hK : Lasting K) (hc : Tracks K compile) (args : Value) (env : LexicalEnv) :
    Codes K 0 (compileSetq compile args env cont) cont := by
  refine .after hK (preserves_quiet hK (quiet_arguments args)) fun items => ?_
  split
  · exact codes_ldc hK _
  · next hempty =>
    split
    · exact codes_invalid hK ..
    · next heven =>
      match items, hempty, heven with
      | [], hempty, _ => exact absurd rfl hempty
      | [_], _, heven => exact absurd Nat.one_ne_zero heven
      | var :: form :: others, _, _ => exact codes_compileAssignments hK hc var form others env

/-! ## Calls -/

/-- A call by name: its arguments, the function, and the call. -/
theorem codes_compileNamedCall (hK : Lasting K) (hc : Tracks K compile) (name : SymbolId) (arity : Arity)
    (args : Value) (env : LexicalEnv) : Codes K 0 (compileNamedCall compile name arity args env cont) cont := by
  refine .after hK (preserves_quiet hK (quiet_arguments args)) fun argv => ?_
  refine .after hK (preserves_quiet hK (quiet_nameOf name)) fun _ => ?_
  refine .after hK (preserves_quiet hK (quiet_ofExcept _)) fun _ => ?_
  refine (codes_emitApply hK _).bind hK fun code => ?_
  refine (fronts_compileArgs hK hc argv env).bind hK fun code => ?_
  exact codes_emit hK rfl nofun rfl

end StackLisp
