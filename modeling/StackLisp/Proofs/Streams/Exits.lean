import Mathlib.Data.List.Forall2
import StackLisp.Proofs.Streams.Block

/-!
# Pieces for exits and operators

Returns and jumps are single instructions. The code of a tagbody is its items, made from the last
to the first: while they are being made, the entries of the table are pairs of their own
(`Heap.Entries`), each with a tag and the code after it.
-/

namespace StackLisp

open Interpreter Compiler

variable {α β : Type} {K : Interpreter → Interpreter → Prop} {cont : Value} {d : Nat} {compile : CompileRule}

/-! ## Returns -/

/-- Looking at the state makes no code. -/
theorem Codes.afterGet {f : Interpreter → LispM Value} (hf : ∀ s, Codes K d (f s) cont) :
    Codes K d (get >>= f) cont := fun s _ _ ho => (leads_bind f).2 (leads_get.2 (hf s ho))

section

variable {s : Interpreter} {name : Value} {blocks : List BlockScope}

/-- A return is noted. -/
theorem records_capture (hK : Lasting K)
    (h : Scopes.capture name s.scopes.functionDepth s.scopes.blocks = some blocks) (k : Nat) :
    Records K k [(name, 0)] [] s (s.rescoped fun c => { c with blocks }) where
  lasting := hK.rescoped s _
  keeps := .refl _
  functions := .refl _
  tagbodies := rfl
  depth := rfl
  size := Nat.le_refl _
  earlier _ _ := rfl
  blocks := ⟨[], by rw [noteTails_nil]; exact capture_eq h, List.nodup_nil, nofun, rfl, fun j p hj hp _ =>
    absurd (Array.getElem?_eq_some_iff.1 hp).1 (Nat.not_lt.2 hj)⟩
  calls := nofun
  bodies _ hf hf' := absurd hf' (Nat.not_lt.2 hf)

end

/-- The instruction comes in front of code that is not run after it. The form is in front of the
    instruction, so it is not in tail position. -/
theorem codes_compileReturn (hK : Lasting K) (hc : Tracks K compile) (name form : Value) (env : LexicalEnv) :
    Codes K 0 (compileReturn compile name form env cont) cont := by
  intro s names ending ho
  unfold compileReturn
  rw [leads_bind, leads_get]
  cases htarget : s.scopes.targetBlock name with
  | none => exact ⟨_, _, .refl hK s⟩
  | some scopes =>
    obtain ⟨blocks, hcapture, rfl⟩ := Option.map_eq_some_iff.1 htarget
    -- the return is noted before its instruction is made, and that before the form in front of it
    have hr₁ := records_capture hK hcapture (ending.waits names)
    dsimp only
    rw [leads_bind, leads_modifyScopes]
    refine (leads_emit_since hK hr₁ rfl).bind ?_
    rintro _ s₂ ⟨hr₂, id, rfl, hplaced, hlt⟩
    have hcoded : Coded K 0 names ending cont s (.pair id) s₂ :=
      coded_single rfl hplaced hlt ((records_capture hK hcapture 0).trans hK hr₂)
    exact (hc form env _ (hcoded.open ho)).mono (fun _ _ h => hcoded.seq hK h) fun _ _ h => hcoded.fallen hK h

/-- The name and the form are taken from the arguments. -/
theorem codes_compileReturnFrom (hK : Lasting K) (hc : Tracks K compile) (args : List Value) (env : LexicalEnv) :
    Codes K 0 (compileReturnFrom compile args env cont) cont :=
  .after hK (preserves_quiet hK (quiet_checkBlockName ..)) fun _ => codes_compileReturn hK hc ..

/-! ## Tagbodies -/

/-- The symbol of the tagbody is found in the scopes. -/
theorem codes_compileGo (hK : Lasting K) (args : Value) : Codes K d (compileGo args cont) cont := by
  refine .after hK (preserves_query hK _) fun tag => ?_
  refine .afterGet fun s => ?_
  split
  · exact codes_emit hK rfl (by simp) rfl
  · exact .after hK (preserves_quiet hK (quiet_shown _)) fun _ => codes_throw hK _

/-- The tags of a tagbody are symbols and integers. -/
theorem leads_collectTags {s : Interpreter} : ∀ {items before : List Value},
    Leads (collectTags before items) s
      (fun _ s' => s' = s ∧ ∀ item ∈ items, item.isPair = false → item.op? = none) fun _ s' => s' = s
  | [], before => ⟨rfl, nofun⟩
  | item :: items, before => by
    unfold collectTags
    split
    · next hpair =>
      refine leads_collectTags.mono (fun _ s' h => ⟨h.1, List.forall_mem_cons.2 ⟨fun hitem => ?_, h.2⟩⟩) fun _ _ h => h
      exact Bool.noConfusion (hpair.symm.trans hitem)
    -- A tag is a symbol or a number, so it is no instruction.
    · have hrest (hitem : item.op? = none) : Leads (collectTags (item :: before) items) s
          (fun _ s' => s' = s ∧ ∀ x ∈ item :: items, x.isPair = false → x.op? = none) fun _ s' => s' = s :=
        leads_collectTags.mono (fun _ s' h => ⟨h.1, List.forall_mem_cons.2 ⟨fun _ => hitem, h.2⟩⟩) fun _ _ h => h
      dsimp only
      split
      · next htag =>
        split
        · exact rfl
        · exact hrest (by cases item <;> first | rfl | cases htag)
      · exact rfl

/-- The values are pairs with the labels and the code after them. -/
def Heap.Entries (h : Heap) (values : List Value) (entries : List (Value × Value)) : Prop :=
  List.Forall₂ (fun v e => ∃ p, v = .pair p ∧ h.car p = e.1 ∧ h.cdr p = e.2 ∧ h.IsOp e.2) values entries

section

variable {h h' : Heap} {values : List Value} {entries : List (Value × Value)} {c : Value}

/-- An opcode is part of the code. -/
theorem Heap.IsOp.keeps (hc : h.IsOp c) (g : h.KeepsCode h') : h'.IsOp c := by
  obtain ⟨id, code, rfl, hop⟩ := hc
  exact ⟨id, code, rfl, (g.car id (lt_of_car_ne (by simp [hop])) (.instruction hop .here)).trans hop⟩

/-- So are the pairs that go on with an instruction, as entries do. -/
theorem Heap.Entries.keeps (he : h.Entries values entries) (g : h.KeepsCode h') : h'.Entries values entries :=
  he.imp fun v e ⟨p, hv, hcar, hcdr, hop⟩ => by
    obtain ⟨id, code, heq, hcode⟩ := id hop
    have hp : p.index < h.pairCount := lt_of_cdr_ne (by simp [hcdr, heq])
    have hentry : h.IsCode p := .entry (hcdr.trans heq) hcode
    exact ⟨p, hv, (g.car p hp hentry).trans hcar, (g.cdr p hp hentry).trans hcdr, hop.keeps g⟩

/-- A list of entries is a table. -/
theorem Heap.Entries.associates (he : h.Entries values entries)
    (hat : h.operandsAt values.length c = some (values, .nil)) : h.Associates entries c := by
  induction he generalizing c with
  | nil =>
    obtain rfl : c = .nil := by simpa [operandsAt] using hat
    exact .nil
  | @cons v e values entries hv _ ih =>
    cases c with
    | pair id =>
      obtain ⟨⟨vs, k⟩, hat', heq⟩ := Option.map_eq_some_iff.1 hat
      obtain ⟨⟨hcar, rfl⟩, rfl⟩ : (h.car id = v ∧ vs = values) ∧ k = .nil := by simpa using heq
      obtain ⟨p, rfl, hfst, hsnd, -⟩ := hv
      have := Associates.cons hcar (ih hat')
      rwa [hfst, hsnd] at this
    | _ => cases hat

end

/-- The items of a tagbody are being made in front of its end. -/
structure MakingItems (K : Interpreter → Interpreter → Prop) (last : PairId) (s : Interpreter)
    (values : List Value) (code : Value) (s' : Interpreter) (items : Piece) (entries : List (Value × Value)) :
    Prop where
  records : Records K 0 items.returns [] s s'
  emits : s'.image.Emits s.pairCount s'.pairCount entries items (.pair last) code
  decided : items.Decided s'.image.heap
  tails : items.tails = []
  isEntries : s'.image.heap.Entries values entries

section

variable {last : PairId} {s s' : Interpreter} {values : List Value} {code : Value} {items : Piece}
  {entries : List (Value × Value)}

/-- A new pair for an entry. -/
theorem leads_cons_placed (a c : Value) (s : Interpreter) :
    Leads (liftM (Heap.cons a c) : LispM Value) s
      (fun v s' => Calm s s' ∧ ∃ p, v = .pair p ∧ s'.image.heap.car p = a ∧ s'.image.heap.cdr p = c)
      fun _ s' => Calm s s' := by
  refine ((quiet_heap (Heap.cons a c)).calm s).and (?_ : Leads _ s _ fun _ _ => True) |>.mono
    (fun _ _ h => h) fun _ _ h => h.1
  exact leads_heap.2 ((Heap.leads_cons_pair ⟨_, rfl, Heap.car_push .., Heap.cdr_push ..⟩).mono
    (fun _ _ h => h) fun _ _ _ => trivial)

/-- A tag in front of items. -/
theorem MakingItems.label (hK : Lasting K) (hm : MakingItems K last s values code s' items entries)
    (hlast : s'.image.heap.IsOp (.pair last)) {tag : Value} (htag : tag.op? = none) :
    Leads (liftM (Heap.cons tag code) : LispM Value) s'
      (fun v s'' => MakingItems K last s (v :: values) code s'' (.label tag items) ((tag, code) :: entries))
      fun _ s'' => Fallen K 0 s s'' := by
  refine (leads_cons_placed tag code s').mono ?_ fun _ s'' h => .since hK hm.records (.inl rfl) ⟨_, _, .of_calm hK h⟩
  rintro v s'' ⟨hcalm, p, rfl, hcar, hcdr⟩
  have hr : Records K 0 [] [] s' s'' := .of_calm hK hcalm
  refine ⟨?_, .label htag ((hm.emits.keeps hr.keeps hr.functions).mono (Nat.le_refl _) hr.keeps.pairCount),
    ⟨hm.emits.decided_keeps hm.decided hr.keeps, hm.tails⟩, rfl,
    .cons ⟨p, rfl, hcar, hcdr, ?_⟩ (hm.isEntries.keeps hr.keeps)⟩
  · simpa [Piece.returns] using hm.records.trans hK hr
  · exact (hm.emits.isOp hlast).keeps hr.keeps

/-- A form in front of items. -/
theorem MakingItems.form (hK : Lasting K) (hc : Tracks K compile) (hs : s.Compiling)
    (hm : MakingItems K last s values code s' items entries) (item : Value) (env : LexicalEnv) :
    Leads (do let pop ← emit .pop [] code; compile item env pop) s'
      (fun c s'' => ∃ g, MakingItems K last s values c s'' (.form g items) entries)
      fun _ s'' => Fallen K 0 s s'' := by
  refine (leads_emit_since hK hm.records rfl).bind ?_
  rintro _ s₁ ⟨hr₁, pop, rfl, hplaced, hlt⟩
  have hr := hm.records.trans hK hr₁
  have ho₁ : s₁.Open (.pair pop) [] .elsewhere :=
    ⟨hr.compiling hs, .other hplaced.op nofun nofun nofun, List.nil_prefix⟩
  refine ((hc item env _).since hK ho₁ hr (.inl rfl)).mono ?_ fun _ _ h => h
  rintro c s₂ ⟨g, hg, hr₂⟩
  have hkeeps := hr₁.keeps.trans hr₂.keeps
  refine ⟨g, ?_, .form (hm.emits.keeps hkeeps (hr₁.functions.trans hr₂.functions)) (hplaced.keeps hr₂.keeps)
    (hg.emits.mono hlt (Nat.le_refl _)) hg.starts,
    ⟨hg.decided, hm.emits.decided_keeps hm.decided hkeeps, hg.ordinary, hm.tails⟩, rfl, hm.isEntries.keeps hkeeps⟩
  simpa [Piece.returns, Piece.pending, Ending.waits] using hr.trans hK hr₂

/-- The items, from the last to the first. -/
theorem leads_items (hK : Lasting K) (hc : Tracks K compile) (hs : s.Compiling)
    (hlast : s.image.heap.IsOp (.pair last)) {forms : List Value} (htags : ∀ item ∈ forms, item.isPair = false → item.op? = none)
    (env : LexicalEnv) :
    Leads (forms.foldrM (fun item (entries, code) => do
        if item.isPair then
          let pop ← emit .pop [] code
          return (entries, ← compile item env pop)
        else
          let entry ← Heap.cons item code
          return (entry :: entries, code)) (([] : List Value), .pair last)) s
      (fun r s' => ∃ items entries, MakingItems K last s r.1 r.2 s' items entries) fun _ s' => Fallen K 0 s s' := by
  -- the invariant goes from the last item to the first, as the items are compiled
  have hstart : ∃ items entries, MakingItems K last s [] (.pair last) s items entries :=
    ⟨.skip, [], .refl hK s, .skip (Nat.le_refl _), trivial, rfl, .nil⟩
  refine @Leads.foldrM _ _ _ _ _ _
    (fun _ (r : List Value × Value) s' => ∃ items entries, MakingItems K last s r.1 r.2 s' items entries) _ _ _ hstart ?_
  rintro item rest ⟨values, code⟩ s' hsuffix ⟨items, entries, hm⟩
  dsimp only
  split
  · rw [← bind_assoc]
    refine (hm.form hK hc hs item env).bind ?_
    rintro c s'' ⟨g, hm'⟩
    exact ⟨_, _, hm'⟩
  · next hpair =>
    have htag := htags item (hsuffix.subset List.mem_cons_self) (Bool.eq_false_iff.2 hpair)
    refine (hm.label hK (hlast.keeps hm.records.keeps) htag).bind ?_
    intro v s'' hm'
    exact ⟨_, _, hm'⟩

/-- A table is what it is while pairs are made. -/
theorem Heap.Associates.extended {h h' : Heap} {entries : List (Value × Value)} {table : Value}
    (ha : h.Associates entries table) (e : h.Extended h') (hentries : ∀ x ∈ entries, h.IsOp x.2) :
    h'.Associates entries table := by
  refine ha.congr (fun p hp => ?_) fun p entry hp hcar => ?_
  · have hlt := ha.lt hp
    exact ⟨e.car p hlt, e.cdr p hlt⟩
  · obtain ⟨hlt, -⟩ := ha.entry hentries hp hcar
    exact ⟨e.car entry hlt, e.cdr entry hlt⟩

/-- The table of a tagbody is made of its entries. -/
theorem leads_table (he : s.image.heap.Entries values entries) :
    Leads (liftM (Heap.list values) : LispM Value) s
      (fun table s' => Calm s s' ∧ s'.image.heap.Associates entries table) fun _ s' => Calm s s' := by
  refine ((quiet_heap (Heap.list values)).calm s).and (?_ : Leads _ s _ fun _ _ => True) |>.mono
    (fun _ _ h => h) fun _ _ h => h.1
  refine leads_heap.2 ((Heap.leads_listWithTail_placed values .nil s.image.heap).mono ?_ fun _ _ _ => trivial)
  rintro table h' ⟨e, hat, -⟩
  exact (he.keeps e.keepsCode).associates hat

/-- A tagbody. -/
theorem Image.Makes.tagbody {image : Image} {lo m hi : Nat} {names : List Value} {ending : Ending}
    {tag table k : Value} {id : PairId} (ends : image.heap.Placed lo last .tagend [] cont)
    (inside : image.Emits (last.index + 1) m entries items (.pair last) k)
    (decided : items.Decided image.heap ∧ items.tails = [])
    (isTable : image.heap.Associates entries table)
    (placed : image.heap.Placed m id .tagbody [tag, table] k) (below : id.index < hi) :
    image.Makes lo hi names ending cont (.tagbody tag items) (.pair id) := by
  refine ⟨.tagbody ends inside isTable placed below, rfl, decided, ?_⟩
  unfold Piece.Settled
  split <;> exact nofun

/-- What has happened under the tags of a tagbody has happened outside. -/
theorem Records.withTags (hK : Lasting K) {k : Nat} {rs : List (Value × Nat)} {ts : List (PairId × Bool)}
    {scope : TagScope} (hr : Records K k rs ts (s.rescoped fun c => { c with tagbodies := scope :: c.tagbodies }) s') :
    Records K k rs ts s (s'.rescoped fun c => { c with tagbodies := c.tagbodies.tail }) :=
  { hr with
    lasting := hK.trans (hK.trans (hK.rescoped s _) hr.lasting) (hK.rescoped s' _)
    tagbodies := congrArg List.tail hr.tagbodies }

/-- The items of a tagbody, with its end and its table. -/
theorem leads_tagged (hK : Lasting K) (hc : Tracks K compile) (hs : s.Compiling) {forms : List Value}
    (htags : ∀ item ∈ forms, item.isPair = false → item.op? = none) (env : LexicalEnv) :
    Leads (do
        let tagEnd ← emit .tagend [] cont
        let (entries, code) ← forms.foldrM (fun item (entries, code) => do
          if item.isPair then
            let pop ← emit .pop [] code
            return (entries, ← compile item env pop)
          else
            let entry ← Heap.cons item code
            return (entry :: entries, code)) (([] : List Value), tagEnd)
        let table ← Heap.list entries
        return (table, code)) s
      (fun r s' => ∃ last items entries, Records K 0 items.returns [] s s' ∧
        s'.image.heap.Placed s.pairCount last .tagend [] cont ∧
        s'.image.Emits (last.index + 1) s'.pairCount entries items (.pair last) r.2 ∧
        (items.Decided s'.image.heap ∧ items.tails = []) ∧ s'.image.heap.Associates entries r.1)
      fun _ s' => Fallen K 0 s s' := by
  refine (leads_emit_since hK (.refl hK s) rfl).bind ?_
  -- The code is made from its end: `TAGEND`, the items, and last the table of the tags.
  rintro _ s₁ ⟨hr₁, last, rfl, hplaced, hlt⟩
  refine ((leads_items hK hc (hr₁.compiling hs) ⟨_, _, rfl, hplaced.op⟩ htags env).mono (fun _ _ h => h) fun _ _ h => ?_).bind ?_
  · exact h.since hK hr₁ (.inl rfl)
  rintro ⟨values, code⟩ s₂ ⟨items, entries, hm⟩
  have hr₂ := hr₁.trans hK hm.records
  refine ((leads_table hm.isEntries).mono (fun _ _ h => h) fun _ _ h => ?_).bind ?_
  · exact .since hK hr₂ (.inl rfl) ⟨_, _, .of_calm hK h⟩
  rintro table s₃ ⟨hcalm, htable⟩
  have hr₃ : Records K 0 [] [] s₂ s₃ := .of_calm hK hcalm
  refine ⟨last, items, entries, by simpa using hr₂.trans hK hr₃, hplaced.keeps (hm.records.keeps.trans hr₃.keeps),
    (hm.emits.keeps hr₃.keeps hr₃.functions).mono hlt hr₃.keeps.pairCount,
    ⟨hm.emits.decided_keeps hm.decided hr₃.keeps, hm.tails⟩, htable⟩

/-- Its end comes first, then the items from the last one on, and then the table. -/
theorem codes_compileTagbody (hK : Lasting K) (hc : Tracks K compile) (items : List Value) (env : LexicalEnv) :
    Codes K 0 (compileTagbody compile items env cont) cont := by
  intro s names ending ho
  unfold compileTagbody
  refine (leads_collectTags.mono (fun _ _ h => h) fun e s' (h : s' = s) => ?_).bind ?_
  · rw [h]
    exact ⟨[], [], .refl hK s⟩
  rintro tags _ ⟨rfl, htags⟩
  refine ((preserves_gensym hK "tagbody").since hK ho.bodied (.refl hK _)).bind ?_
  intro id s₁ hr₁
  have hs₁ := hr₁.compiling ho.toCompiling
  unfold withTags
  rw [bind_assoc, leads_bind, leads_modifyScopes, bind_assoc, leads_bind, leads_attempt]
  refine (leads_tagged hK hc (s := s₁.rescoped fun c => { c with tagbodies := ⟨.symbol id, tags⟩ :: c.tagbodies })
    ⟨hs₁.bodied, hs₁.counted.congr rfl rfl⟩ htags env).mono ?_ ?_
  · rintro ⟨table, code⟩ s₂ ⟨last, items, entries, hr₂, hplaced, hemits, hdecided, htable⟩
    rw [bind_assoc, leads_bind, leads_modifyScopes]
    -- the items have been made under the tags of the tagbody, which are gone again
    have hr : Records K (ending.waits names) _ [] _ _ := (hr₁.trans hK (hr₂.withTags hK)).waitless
    refine (leads_emit_placed rfl).mono ?_ fun _ _ h => .since hK hr (.inl rfl) ⟨_, _, .of_calm hK h⟩
    rintro _ s₃ ⟨hcalm, id, rfl, htagbody, hbelow⟩
    have hr₃ : Records K 0 [] [] _ s₃ := .of_calm hK hcalm
    have hentries := hemits.entries_spec ⟨_, _, rfl, hplaced.op⟩
    refine ⟨_, .tagbody ((hplaced.keeps hr₃.keeps).mono hr₁.keeps.pairCount)
      (hemits.keeps hr₃.keeps hr₃.functions) ⟨hemits.decided_keeps hdecided.1 hr₃.keeps, hdecided.2⟩
      (htable.extended hcalm.heap fun x hx => (hentries x hx).2) htagbody hbelow, ?_⟩
    simpa [Piece.pending, Piece.tails, Piece.returns] using hr.trans hK hr₃.any
  · rintro e s₂ ⟨rs, ts, hr₂⟩
    rw [bind_assoc, leads_bind, leads_modifyScopes]
    exact ⟨_, _, (hr₁.trans hK (hr₂.withTags hK)).waitless⟩

end

/-! ## Operators -/

/-- A lambda expression makes a closure, and a name an instruction. -/
theorem codes_compileFunctionForm (hK : Lasting K) (hc : Tracks K compile) (args : Value) (env : LexicalEnv) :
    Codes K 0 (compileFunctionForm compile args env cont) cont := by
  refine .after hK (preserves_query hK _) fun target => .after hK (preserves_asks hK _) fun lambda? => ?_
  split
  · exact codes_compileLambda hK hc _ env
  · split
    · refine .after hK (preserves_quiet hK (quiet_checkFunctionName _)) fun _ => ?_
      exact codes_emit hK rfl nofun rfl
    · exact .after hK (preserves_quiet hK (quiet_shown _)) fun _ => codes_invalid hK ..

/-- A symbol is made special, which is no change of pairs or functions. -/
theorem preserves_declare (hK : Lasting K) (form : String) (var : Value) : Preserves K (declare form var) := by
  unfold declare
  split
  · exact .bind hK (preserves_declareSpecial hK _) fun _ => preserves_pure hK _
  · exact preserves_quiet hK ((quiet_shown _).bind fun _ => quiet_invalid ..)

/-- A form is compiled in front of the instructions that drop its value and load the name. -/
theorem codes_compileDefvar (hK : Lasting K) (hc : Tracks K compile) (args : List Value) (env : LexicalEnv) :
    Codes K 0 (compileDefvar compile args env cont) cont := by
  refine .after hK (preserves_declare hK _ _) fun id => ?_
  refine .then hK (codes_ldc hK _) fun code => ?_
  split
  · exact fronts_pure hK
  · refine .after hK (preserves_quiet hK (quiet_heap _)) fun quoted => ?_
    refine .after hK (preserves_quiet hK (quiet_heap _)) fun test => ?_
    refine .after hK (preserves_quiet hK (quiet_heap _)) fun assign => ?_
    refine .after hK (preserves_quiet hK (quiet_heap _)) fun form => Codes.fronts ?_
    exact .bind hK (codes_pop hK) fun pop => hc ..

/-- The same with another form. -/
theorem codes_compileDefparameter (hK : Lasting K) (hc : Tracks K compile) (args : List Value) (env : LexicalEnv) :
    Codes K 0 (compileDefparameter compile args env cont) cont := by
  refine .after hK (preserves_declare hK _ _) fun id => ?_
  refine .then hK (codes_ldc hK _) fun code => ?_
  refine .after hK (preserves_quiet hK (quiet_heap _)) fun assign => Codes.fronts ?_
  exact .bind hK (codes_pop hK) fun pop => hc ..

/-- One case for each of the operators. -/
theorem codes_compileOperator (hK : Lasting K) (hc : Tracks K compile) (operator : Operator) (args : Value)
    (argv : List Value) (env : LexicalEnv) : Codes K 0 (compileOperator compile operator args argv env cont) cont := by
  cases operator with
  | function => exact codes_compileFunctionForm hK hc ..
  | block => exact codes_compileBlock hK hc ..
  | returnFrom => exact codes_compileReturnFrom hK hc ..
  | returnNil => exact codes_compileReturn hK hc ..
  | tagbody => exact codes_compileTagbody hK hc ..
  | go => exact codes_compileGo hK args
  | defvar => exact codes_compileDefvar hK hc ..
  | defparameter => exact codes_compileDefparameter hK hc ..

/-- The call of a primitive is an instruction of its own, or a call like any other. -/
theorem codes_compilePrimitiveCall (hK : Lasting K) (hc : Tracks K compile) (id : PrimitiveId) (args : Value)
    (env : LexicalEnv) : Codes K 0 (compilePrimitiveCall compile id args env cont) cont := by
  refine .after hK (preserves_asks hK _) fun p => ?_
  refine .after hK (preserves_quiet hK (quiet_arguments args)) fun argv => ?_
  refine .after hK (preserves_quiet hK (quiet_nameOf _)) fun _ => ?_
  refine .after hK (preserves_quiet hK (quiet_ofExcept _)) fun _ => ?_
  split
  · exact codes_compileOperator hK hc ..
  · split
    · exact .then hK (codes_emit hK rfl nofun rfl) fun code => fronts_compileArgs hK hc argv env
    · refine .bind hK (codes_emitApply hK _) fun code => ?_
      refine Fronts.bind hK (fronts_compileArgs hK hc argv env) fun code => ?_
      exact codes_ldc hK _

end StackLisp
