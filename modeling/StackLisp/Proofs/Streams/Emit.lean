import StackLisp.Proofs.Streams.Records

/-!
# Making pieces of code

`Front K d names ending cont s c s'` says that code in front of a continuation is being made
since `s`, and that it starts with `c` at `s'`: it is a piece (`Made`), and nothing else has
happened (`Records`). The compiler goes on in front of it by an instruction
(`Front.emit`), by the code of a form (`Front.compile`), or by a call (`leads_emitApply`).

`Tracks K compile` says that the compiler for the forms inside makes such pieces, whatever
the continuation. A form in front of more code of the same piece is not in tail position.
-/

namespace StackLisp

open Interpreter Compiler

variable {α β : Type}

/-- What the first action leads to is handed to the second one. -/
theorem Leads.bind {ε σ : Type} {x : EStateM ε σ α} {s : σ} {f : α → EStateM ε σ β} {mid : α → σ → Prop}
    {ok : β → σ → Prop} {err : ε → σ → Prop} (hx : Leads x s mid err)
    (hf : ∀ a s', mid a s' → Leads (f a) s' ok err) : Leads (x >>= f) s ok err :=
  (leads_bind f).2 (hx.mono hf fun _ _ h => h)

/-! ## Instructions -/

namespace Heap

variable {h : Heap} {a d c v k : Value} {vs : List Value} {n : Nat} {p : PairId}

/-- One more pair in front of operands. -/
theorem operandsAt_push (hat : h.operandsAt n c = some (vs, k))
    (hamong : ∀ p, h.Among p n c → p.index < h.pairCount) :
    (h.push v c).operandsAt (n + 1) (.pair ⟨h.pairCount⟩) = some (v :: vs, k) := by
  have hrest : (h.push v c).operandsAt n c = some (vs, k) := operandsAt_congr hat fun p hp =>
    ⟨(h.extended_push v c).car p (hamong p hp), (h.extended_push v c).cdr p (hamong p hp)⟩
  simp [operandsAt, hrest]

/-- Pairs that were there are among the same values as before. -/
theorem Among.of_extended {h' : Heap} (e : h.Extended h')
    (hlt : ∀ p, h.Among p n c → p.index < h.pairCount) (hp : h'.Among p n c) : h.Among p n c := by
  induction hp with
  | here => exact .here
  | @there n id rest ih =>
    have hcdr := e.cdr id (hlt id .here)
    rw [hcdr] at ih
    exact .there (ih fun q hq => hlt q (.there hq))

/-- The pairs of an instruction, with a new one in front. -/
theorem among_push (hamong : ∀ p, h.Among p n c → p.index < h.pairCount)
    (hp : (h.push v c).Among p (n + 1) (.pair ⟨h.pairCount⟩)) :
    p = ⟨h.pairCount⟩ ∨ h.Among p n c := by
  cases hp with
  | here => exact .inl rfl
  | there hp =>
    rw [cdr_push] at hp
    exact .inr (hp.of_extended (h.extended_push v c) hamong)

/-- The failure leaves the heap as it was. -/
theorem leads_cons_pair {ok : Value → Heap → Prop} (hok : ok (.pair ⟨h.pairCount⟩) (h.push a d)) :
    Leads (Heap.cons a d) h ok fun e h' => e = .error .heapOverflow ∧ h' = h := by
  rw [leads_cons_iff]
  split
  · exact hok
  · exact ⟨rfl, rfl⟩

/-- A list is made of new pairs. -/
theorem leads_listWithTail_placed (vs : List Value) (k : Value) (h : Heap) :
    Leads (listWithTail vs k) h
      (fun c h' => h.Extended h' ∧ h'.operandsAt vs.length c = some (vs, k) ∧
        ∀ p, h'.Among p vs.length c → h.pairCount ≤ p.index ∧ p.index < h'.pairCount)
      fun _ _ => True := by
  induction vs with
  | nil =>
    unfold listWithTail
    rw [List.foldrM_nil]
    exact ⟨.refl h, rfl, nofun⟩
  | cons v vs ih =>
    unfold listWithTail at ih ⊢
    rw [List.foldrM_cons]
    refine ih.bind fun c h₁ ⟨e, hat, hamong⟩ => (leads_cons_pair ?_).mono (fun _ _ h => h) fun _ _ _ => trivial
    have hlt (p : PairId) (hp : h₁.Among p vs.length c) : p.index < h₁.pairCount := (hamong p hp).2
    refine ⟨e.trans (h₁.extended_push v c), operandsAt_push hat hlt, fun p hp => ?_⟩
    have hcount : (h₁.push v c).pairCount = h₁.pairCount + 1 := by simp [pairCount, push]
    rw [hcount]
    -- The pair made last is the new one, and all others are among those made before it.
    rcases among_push hlt hp with rfl | hp
    · exact ⟨e.pairCount, Nat.lt_succ_self _⟩
    · exact ⟨(hamong p hp).1, Nat.lt_succ_of_lt (hamong p hp).2⟩

end Heap

/-- The number of pairs. -/
def Interpreter.pairCount (s : Interpreter) : Nat := s.image.heap.pairCount

/-- What is emitted is an instruction of new pairs. -/
theorem leads_emit_placed {code : Opcode} {vs : List Value} {cont : Value} {s : Interpreter}
    (hlength : vs.length = code.operandCount) :
    Leads (emit code vs cont) s
      (fun c s' => Calm s s' ∧ ∃ id, c = .pair id ∧ s'.image.heap.Placed s.pairCount id code vs cont ∧
        id.index < s'.pairCount)
      fun _ s' => Calm s s' := by
  refine ((quiet_emit code vs cont).calm s).and (?_ : Leads _ s _ fun _ _ => True) |>.mono
    (fun _ _ h => h) fun _ _ h => h.1
  -- The operands are allocated from the last one, and then the operation code in front of them.
  have hlist : Leads (liftM (Heap.listWithTail vs cont) : LispM Value) s
      (fun c s₁ => s.image.heap.Extended s₁.image.heap ∧
        s₁.image.heap.operandsAt vs.length c = some (vs, cont) ∧
        ∀ p, s₁.image.heap.Among p vs.length c →
          s.image.heap.pairCount ≤ p.index ∧ p.index < s₁.image.heap.pairCount)
      fun _ _ => True :=
    leads_heap.2 (Heap.leads_listWithTail_placed vs cont s.image.heap)
  refine hlist.bind fun c s₁ ⟨e, hat, hamong⟩ => ?_
  refine leads_heap.2 ((Heap.leads_cons_pair ?_).mono (fun _ _ h => h) fun _ _ _ => trivial)
  -- All of these pairs are new, and in between.
  have hlt (p : PairId) (hp : s₁.image.heap.Among p vs.length c) : p.index < s₁.image.heap.pairCount :=
    (hamong p hp).2
  have hrest (p : PairId) (hp : s₁.image.heap.Among p vs.length c) :
      (s₁.image.heap.push (.op code) c).car p = s₁.image.heap.car p ∧
        (s₁.image.heap.push (.op code) c).cdr p = s₁.image.heap.cdr p :=
    have e' := s₁.image.heap.extended_push (.op code) c
    ⟨e'.car p (hlt p hp), e'.cdr p (hlt p hp)⟩
  refine ⟨_, rfl, ⟨Heap.instruction?_of_car (Heap.car_push ..) ?_, e.pairCount, fun p hp => ?_⟩, ?_⟩
  · rw [Heap.cdr_push, ← hlength]
    exact Heap.operandsAt_congr hat hrest
  · rw [Heap.cdr_push, ← hlength] at hp
    exact hamong p (hp.of_extended (s₁.image.heap.extended_push _ _) hlt)
  · simp [Interpreter.pairCount, Heap.pairCount, Heap.push]

/-! ## Pieces in front of a continuation -/

/-- What is known of a continuation in an interpreter: how its code ends, after the ends of which
    blocks, which are the innermost ones around. -/
structure Interpreter.Open (s : Interpreter) (cont : Value) (names : List Value) (ending : Ending) : Prop
    extends s.Compiling where
  ends : s.image.heap.Ends cont names ending
  names : names <+: s.scopes.blocks.map (·.name)

/-- The calls in tail position are what they are when the piece has been made: tail calls only if
    they leave no block that is not in the piece itself. -/
def Piece.Settled (h : Heap) (names : List Value) (ending : Ending) (g : Piece) : Prop :=
  if ending = .rtn ∧ names = [] then g.Final h else g.Ordinary h

/-- The calls of a piece that wait for blocks around it. -/
def Piece.pending (k : Nat) (g : Piece) : List (PairId × Bool) := if 0 < k then g.tails else []

/-- The returns of a piece that is made as `d` functions deeper. -/
def Piece.returnsUnder (d : Nat) (g : Piece) : List (Value × Nat) := g.returns.map fun r => (r.1, r.2 + d)

@[simp]
theorem Piece.returnsUnder_zero (g : Piece) : g.returnsUnder 0 = g.returns := List.map_id _

/-- The returns of two pieces, those of the later code first. -/
theorem Piece.returnsUnder_seq (d : Nat) (first second : Piece) :
    (seq first second).returnsUnder d = second.returnsUnder d ++ first.returnsUnder d := List.map_append

/-- The code is a piece in front of the continuation, made of pairs in a range, in which every call
    is what it is when the piece has been made. -/
structure Image.Makes (image : Image) (lo hi : Nat) (names : List Value) (ending : Ending) (cont : Value)
    (g : Piece) (c : Value) : Prop where
  emits : image.Emits lo hi [] g cont c
  starts : g.starts = true
  decided : g.Decided image.heap
  settled : g.Settled image.heap names ending

/-- The code has been made since `s` as a piece in front of the continuation, and nothing else has
    happened. -/
def Coded (K : Interpreter → Interpreter → Prop) (d : Nat) (names : List Value) (ending : Ending)
    (cont : Value) (s : Interpreter) (c : Value) (s' : Interpreter) : Prop :=
  ∃ g, s'.image.Makes s.pairCount s'.pairCount names ending cont g c ∧
    Records K (ending.waits names) (g.returnsUnder d) (g.pending (ending.waits names)) s s'

/-- The code is being made; possibly there is none yet. -/
inductive Front (K : Interpreter → Interpreter → Prop) (d : Nat) (names : List Value) (ending : Ending)
    (cont : Value) (s : Interpreter) : Value → Interpreter → Prop
  | start {s'} (records : Records K (ending.waits names) [] [] s s') : Front K d names ending cont s cont s'
  | coded {c s'} (coded : Coded K d names ending cont s c s') : Front K d names ending cont s c s'

/-- What has happened before a failure. -/
def Fallen (K : Interpreter → Interpreter → Prop) (k : Nat) (s s' : Interpreter) : Prop :=
  ∃ rs ts, Records K k rs ts s s'

/-- The action adds pairs and functions, and calls to none of the blocks around. -/
def Preserves (K : Interpreter → Interpreter → Prop) (x : LispM α) : Prop :=
  ∀ s, s.Bodied → Leads x s (fun _ s' => Records K 0 [] [] s s') fun _ s' => Records K 0 [] [] s s'

/-- The action makes a piece in front of a continuation. -/
def Codes (K : Interpreter → Interpreter → Prop) (d : Nat) (x : LispM Value) (cont : Value) : Prop :=
  ∀ ⦃s names ending⦄, s.Open cont names ending →
    Leads x s (Coded K d names ending cont s) fun _ s' => Fallen K (ending.waits names) s s'

/-- The action makes a piece in front of a continuation, or none. -/
def Fronts (K : Interpreter → Interpreter → Prop) (d : Nat) (x : LispM Value) (cont : Value) : Prop :=
  ∀ ⦃s names ending⦄, s.Open cont names ending →
    Leads x s (Front K d names ending cont s) fun _ s' => Fallen K (ending.waits names) s s'

/-- The compiler makes pieces of all forms, in front of any continuation. -/
def Tracks (K : Interpreter → Interpreter → Prop) (compile : CompileRule) : Prop :=
  ∀ form env cont, Codes K 0 (compile form env cont) cont

section

variable {K : Interpreter → Interpreter → Prop} {names : List Value} {ending : Ending} {cont c : Value}
  {s s' s'' : Interpreter} {d k : Nat} {rs : List (Value × Nat)} {ts : List (PairId × Bool)}

/-- Calls that wait for no block are not pending. -/
theorem Records.waitless (hr : Records K 0 rs ts s s') : Records K k rs [] s s' :=
  { hr with
    blocks := by
      obtain ⟨indices, hblocks, -, hge, hmap, hclosed⟩ := hr.blocks
      have hzero : noteTails 0 indices (noteReturns s.scopes.functionDepth rs s.scopes.blocks) =
          noteReturns s.scopes.functionDepth rs s.scopes.blocks := by simp [noteTails]
      refine ⟨[], by rw [noteTails_nil, hblocks, hzero], List.nodup_nil, by simp, rfl, fun j p hj hp _ => ?_⟩
      by_cases hmem : j ∈ indices
      · exact openScopes_of_map_getElem? hmap hmem hp
      · exact hclosed j p hj hp hmem
    calls := by simp
    bodies := fun f hf hf' => by
      obtain ⟨lo, hi, g, hb, hlo, hhi, -⟩ := hr.bodies f hf hf'
      exact ⟨lo, hi, g, hb, hlo, hhi, by simp⟩ }

/-- Whatever has been made since, the continuation ends as it did, and the same blocks are
    around. -/
theorem Interpreter.Open.after (ho : s.Open cont names ending) (hr : Records K k rs ts s s') :
    s'.Open cont names ending :=
  ⟨hr.compiling ho.toCompiling, ho.ends.keeps hr.keeps, hr.names ▸ ho.names⟩

/-- In front of code that goes on, no call is in tail position. -/
theorem Piece.settled_elsewhere {h : Heap} {g : Piece} : g.Settled h names .elsewhere ↔ g.Ordinary h := by
  simp [Piece.Settled]

/-- The calls are read as before, since their pairs are code. -/
theorem Image.Emits.settled_keeps {image image' : Image} {lo hi : Nat} {entries : List (Value × Value)}
    {g : Piece} (he : image.Emits lo hi entries g cont c) (hg : g.Settled image.heap names ending)
    (hkeeps : image.heap.KeepsCode image'.heap) : g.Settled image'.heap names ending := by
  unfold Piece.Settled at *
  by_cases h : ending = .rtn ∧ names = []
  · rw [if_pos h] at hg ⊢
    exact he.final_keeps hg hkeeps
  · rw [if_neg h] at hg ⊢
    exact he.ordinary_keeps hg hkeeps

namespace Image.Makes

variable {image image' : Image} {lo mid hi lo' hi' : Nat} {g g' : Piece}

/-- A piece stays one where its code and its functions are kept. -/
theorem keeps (hm : image.Makes lo hi names ending cont g c) (hcode : image.heap.KeepsCode image'.heap)
    (hfunctions : image.KeepsFunctions image') : image'.Makes lo hi names ending cont g c :=
  ⟨hm.emits.keeps hcode hfunctions, hm.starts, hm.emits.decided_keeps hm.decided hcode,
    hm.emits.settled_keeps hm.settled hcode⟩

/-- The range of its pairs may be widened. -/
theorem mono (hm : image.Makes lo hi names ending cont g c) (hlo : lo' ≤ lo) (hhi : hi ≤ hi') :
    image.Makes lo' hi' names ending cont g c := ⟨hm.emits.mono hlo hhi, hm.starts, hm.decided, hm.settled⟩

theorem ordinary (hm : image.Makes lo hi names .elsewhere cont g c) : g.Ordinary image.heap :=
  Piece.settled_elsewhere.1 hm.settled

/-- A piece in front of a piece. -/
theorem seq {k : Value} (hm : image.Makes lo mid names ending cont g k)
    (hm' : image.Makes mid hi [] .elsewhere k g' c) : image.Makes lo hi names ending cont (.seq g' g) c :=
  ⟨.seq hm.emits hm'.emits ⟨hm'.starts, hm.starts⟩, hm'.starts, ⟨hm'.decided, hm.decided, hm'.ordinary⟩,
    hm.settled⟩

end Image.Makes

/-- The pieces make one, in a range that goes from the start of the first to the end of the
    second. -/
theorem Coded.seq (hK : Lasting K) {c' : Value} (h : Coded K d names ending cont s c s')
    (h' : Coded K d [] .elsewhere c s' c' s'') : Coded K d names ending cont s c' s'' := by
  obtain ⟨g, hm, hr⟩ := h
  obtain ⟨g', hm', hr'⟩ := h'
  exact ⟨.seq g' g, (hm.keeps hr'.keeps hr'.functions).seq hm',
    Piece.returnsUnder_seq d g' g ▸ hr.trans hK hr'.waitless⟩

/-- Something else before a piece. -/
theorem Coded.after (hK : Lasting K) (hr : Records K 0 [] [] s s')
    (h : Coded K d names ending cont s' c s'') : Coded K d names ending cont s c s'' := by
  obtain ⟨g, hm, hr'⟩ := h
  exact ⟨g, hm.mono hr.keeps.pairCount (Nat.le_refl _), by simpa using hr.waitless.trans hK hr'⟩

/-- Before a failure, several things may have happened. -/
theorem Fallen.after (hK : Lasting K) (hr : Records K k rs ts s s') (h : Fallen K k s' s'') :
    Fallen K k s s'' := by
  obtain ⟨rs', ts', hr'⟩ := h
  exact ⟨_, _, hr.trans hK hr'⟩

/-- More code may come in front of a piece, and is not in tail position there. -/
theorem Coded.open (h : Coded K d names ending cont s c s') (ho : s.Open cont names ending) :
    s'.Open c [] .elsewhere := by
  obtain ⟨g, hm, hr⟩ := h
  exact ⟨hr.compiling ho.toCompiling, hm.emits.ends hm.starts, List.nil_prefix⟩

/-- Something else after a piece. -/
theorem Coded.records (hK : Lasting K) (h : Coded K d names ending cont s c s') {k : Nat}
    (hr : Records K k [] [] s' s'') : Coded K d names ending cont s c s'' := by
  obtain ⟨g, hm, hr'⟩ := h
  exact ⟨g, (hm.keeps hr.keeps hr.functions).mono (Nat.le_refl _) hr.keeps.pairCount,
    by simpa using hr'.trans hK hr.any⟩

/-- Possibly a piece in front of a piece. -/
theorem Coded.front (hK : Lasting K) {c' : Value} (h : Coded K d names ending cont s c s')
    (h' : Front K d [] .elsewhere c s' c' s'') : Coded K d names ending cont s c' s'' := by
  cases h' with
  | start records => exact h.records hK records
  | coded coded => exact h.seq hK coded

/-- What was made before a failure stays as it is. -/
theorem Coded.fallen (hK : Lasting K) (h : Coded K d names ending cont s c s') (h' : Fallen K 0 s' s'') :
    Fallen K (ending.waits names) s s'' := by
  obtain ⟨g, hm, hr⟩ := h
  obtain ⟨rs, ts, hr'⟩ := h'
  exact ⟨_, _, hr.trans hK hr'.waitless⟩

/-- Something else may come first, and wait for no block. -/
theorem Front.after (hK : Lasting K) {k : Nat} (hr : Records K k [] [] s s')
    (h : Front K d names ending cont s' c s'') : Front K d names ending cont s c s'' := by
  cases h with
  | start records => exact .start (by simpa using hr.any.trans hK records)
  | coded coded => exact .coded (coded.after hK hr.any)

/-! ## Actions -/

/-- A piece is more than possibly none. -/
theorem Codes.fronts {x : LispM Value} (hx : Codes K d x cont) : Fronts K d x cont :=
  fun _ _ _ ho => (hx ho).mono (fun _ _ h => .coded h) fun _ _ h => h

/-- A piece in front of what has been made. -/
theorem Fronts.bind (hK : Lasting K) {x : LispM Value} {f : Value → LispM Value} (hx : Fronts K d x cont)
    (hf : ∀ c, Codes K d (f c) c) : Codes K d (x >>= f) cont := by
  intro s names ending ho
  refine (hx ho).bind fun c s' hfront => ?_
  cases hfront with
  | start records =>
    exact (hf cont (ho.after records)).mono (fun c' s'' h => h.after hK records.any) fun e s'' h =>
      h.after hK records
  | coded coded =>
    exact (hf c (coded.open ho)).mono (fun c' s'' h => coded.seq hK h) fun e s'' h => coded.fallen hK h

/-- What has been made, and possibly more in front of it. -/
theorem Codes.then (hK : Lasting K) {x : LispM Value} {f : Value → LispM Value} (hx : Codes K d x cont)
    (hf : ∀ c, Fronts K d (f c) c) : Codes K d (x >>= f) cont := by
  intro s names ending ho
  refine (hx ho).bind fun c s' coded => ?_
  exact (hf c (coded.open ho)).mono (fun c' s'' h => coded.front hK h) fun e s'' h => coded.fallen hK h

/-- Possibly a piece, and possibly another one in front of it. -/
theorem Fronts.then (hK : Lasting K) {x : LispM Value} {f : Value → LispM Value} (hx : Fronts K d x cont)
    (hf : ∀ c, Fronts K d (f c) c) : Fronts K d (x >>= f) cont := by
  intro s names ending ho
  refine (hx ho).bind fun c s' hfront => ?_
  cases hfront with
  | start records =>
    exact (hf cont (ho.after records)).mono (fun c' s'' h => h.after hK records) fun e s'' h => h.after hK records
  | coded coded =>
    exact (hf c (coded.open ho)).mono (fun c' s'' h => .coded (coded.front hK h)) fun e s'' h =>
      coded.fallen hK h

theorem Codes.bind (hK : Lasting K) {x : LispM Value} {f : Value → LispM Value} (hx : Codes K d x cont)
    (hf : ∀ c, Codes K d (f c) c) : Codes K d (x >>= f) cont := hx.fronts.bind hK hf

/-- Something else first. -/
theorem Codes.after (hK : Lasting K) {x : LispM α} {f : α → LispM Value} (hx : Preserves K x)
    (hf : ∀ a, Codes K d (f a) cont) : Codes K d (x >>= f) cont := by
  intro s names ending ho
  refine (leads_bind f).2 ((hx s ho.bodied).mono (fun a s' hr => ?_) fun e s' hr => ⟨_, _, hr.any⟩)
  exact (hf a (ho.after hr)).mono (fun c s'' h => h.after hK hr) fun e s'' h => h.after hK hr.any

/-- Something else first, and then possibly a piece. -/
theorem Fronts.after (hK : Lasting K) {x : LispM α} {f : α → LispM Value} (hx : Preserves K x)
    (hf : ∀ a, Fronts K d (f a) cont) : Fronts K d (x >>= f) cont := by
  intro s names ending ho
  refine (leads_bind f).2 ((hx s ho.bodied).mono (fun a s' hr => ?_) fun e s' hr => ⟨_, _, hr.any⟩)
  exact (hf a (ho.after hr)).mono (fun c s'' h => h.after hK hr) fun e s'' h => h.after hK hr.any

theorem fronts_pure (hK : Lasting K) : Fronts K d (pure cont) cont :=
  fun s _ _ _ => .start (.refl hK s)

theorem codes_throw (hK : Lasting K) (e : Failure) : Codes K d (throw e) cont :=
  fun s _ _ _ => ⟨[], [], .refl hK s⟩

end

/-! ## Actions that preserve -/

section

variable {K : Interpreter → Interpreter → Prop} {x : LispM α}

/-- A calm action adds pairs at most. -/
theorem preserves_of_calms (hK : Lasting K) (hx : Calms x) : Preserves K x :=
  fun s _ => (hx.calm s).mono (fun _ _ h => .of_calm hK h) fun _ _ h => .of_calm hK h

/-- Two such actions, one after the other. -/
theorem Preserves.bind (hK : Lasting K) {f : α → LispM β} (hx : Preserves K x)
    (hf : ∀ a, Preserves K (f a)) : Preserves K (x >>= f) := by
  intro s hs
  refine (leads_bind f).2 ((hx s hs).mono (fun a s' hr => ?_) fun _ _ hr => hr)
  refine (hf a s' (hr.bodied hs)).mono (fun _ _ hr' => ?_) fun _ _ hr' => ?_ <;>
  simpa using hr.trans hK hr'

theorem preserves_quiet (hK : Lasting K) (hx : Quiet x) : Preserves K x := preserves_of_calms hK hx.toCalms

theorem preserves_asks (hK : Lasting K) (f : Image → α) : Preserves K (asks f) := fun s _ => .refl hK s

theorem preserves_pure (hK : Lasting K) (a : α) : Preserves K (pure a) := fun s _ => .refl hK s

end

/-! ## Instructions and calls -/

section

variable {K : Interpreter → Interpreter → Prop} {cont : Value} {s s' : Interpreter} {d : Nat}

/-- An instruction by itself is a piece. -/
theorem coded_single {names : List Value} {ending : Ending} {code : Opcode} {vs : List Value} {id : PairId}
    (isSingle : code.isSingle = true) (placed : s'.image.heap.Placed s.pairCount id code vs cont)
    (below : id.index < s'.pairCount) (hr : Records K 0 ((Piece.single code vs).returnsUnder d) [] s s') :
    Coded K d names ending cont s (.pair id) s' := by
  refine ⟨_, ⟨.single placed below isSingle, rfl, trivial, ?_⟩, ?_⟩
  · unfold Piece.Settled
    split <;> exact nofun
  · rw [show (Piece.single code vs).pending (ending.waits names) = [] by simp [Piece.pending, Piece.tails]]
    exact hr.waitless

theorem Piece.returns_single {code : Opcode} {vs : List Value} (hcode : code ≠ .retfrom) :
    (single code vs).returns = [] := by
  unfold returns
  split <;> simp_all

/-- An instruction that belongs to no other. -/
theorem codes_emit (hK : Lasting K) {code : Opcode} {vs : List Value} (isSingle : code.isSingle = true)
    (hcode : code ≠ .retfrom) (hlength : vs.length = code.operandCount) : Codes K d (emit code vs cont) cont := by
  intro s names ending ho
  refine (leads_emit_placed hlength).mono ?_ fun e s' h => ⟨_, _, .of_calm hK h⟩
  rintro c s' ⟨h, id, rfl, placed, below⟩
  refine coded_single isSingle placed below ?_
  rw [Piece.returnsUnder, Piece.returns_single hcode]
  exact .of_calm hK h

/-- A tail call is noted as pending. -/
theorem records_addPendingTail (hK : Lasting K) (h : Calm s s') {id : PairId} {k : Nat}
    (hid : s.pairCount ≤ id.index) (hcall : s'.image.heap.IsCall id) :
    Records K k [] [(id, false)] s { s' with scopes := s'.scopes.addPendingTail id k } where
  lasting := hK.added h.heap (.of_eq h.functions) h.marks
  keeps := h.heap.keepsCode
  functions := .of_eq h.functions
  tagbodies := congrArg (·.tagbodies) h.scopes
  depth := congrArg (·.functionDepth) h.scopes
  size := by
    have hsize : s'.scopes.pendingTails.size = s.scopes.pendingTails.size :=
      congrArg (·.pendingTails.size) h.scopes
    simp [Scopes.addPendingTail, hsize]
  earlier j hj := by
    have hpending : s'.scopes.pendingTails = s.scopes.pendingTails := congrArg (·.pendingTails) h.scopes
    simp [Scopes.addPendingTail, hpending, Array.getElem?_push, Nat.ne_of_lt hj]
  blocks := by
    have hpending : s'.scopes.pendingTails = s.scopes.pendingTails := congrArg (·.pendingTails) h.scopes
    have hblocks : s'.scopes.blocks = s.scopes.blocks := congrArg (·.blocks) h.scopes
    -- the only new call is the last one of all
    refine ⟨[s.scopes.pendingTails.size], ?_, by simp, ?_, ?_, fun j p hj hp hmem => ?_⟩
    · simp [Scopes.addPendingTail, noteTails, hblocks, hpending]
    · simp
    · simp [Scopes.addPendingTail, hpending]
    · simp only [Scopes.addPendingTail, hpending, Array.getElem?_push] at hp
      split at hp
      · next heq => exact absurd heq (by simpa using hmem)
      · exact absurd (Array.getElem?_eq_some_iff.1 hp).1 (Nat.not_lt.2 hj)
  calls t ht := by
    obtain rfl := List.mem_singleton.1 ht
    exact ⟨hid, hcall⟩
  bodies f hf hf' := absurd hf' (Nat.not_lt.2 (h.functions ▸ hf))

/-- So is a call. It is a tail call at once if a return comes next. -/
theorem coded_call {names : List Value} {ending : Ending} {code : Opcode} {argc : Value} {id : PairId}
    (isCall : code = .ap ∨ code = .tap) (placed : s'.image.heap.Placed s.pairCount id code [argc] cont)
    (below : id.index < s'.pairCount) (htap : code = .tap ↔ ending = .rtn ∧ names = [])
    (hr : Records K (ending.waits names) [] ((Piece.call id argc).pending (ending.waits names)) s s') :
    Coded K d names ending cont s (.pair id) s' := by
  refine ⟨_, ⟨.call placed below isCall, rfl, trivial, ?_⟩, hr⟩
  unfold Piece.Settled
  by_cases h : ending = .rtn ∧ names = []
  · rw [if_pos h]
    intro t ht
    obtain rfl := List.mem_singleton.1 ht
    exact htap.2 h ▸ placed.op
  · rw [if_neg h]
    intro t ht
    obtain rfl := List.mem_singleton.1 ht
    exact (isCall.resolve_right fun heq => h (htap.1 heq)) ▸ placed.op

/-- A call in front of a continuation. -/
theorem codes_emitApply (hK : Lasting K) (argc : Nat) : Codes K d (emitApply argc cont) cont := by
  intro s names ending ho
  unfold emitApply
  refine (leads_bind _).2 ?_
  unfold tailOf
  rw [leads_walk]
  split
  · next t heq =>
    have ht := tailFrom_of_ends ho.ends heq
    rw [Nat.zero_add] at ht
    -- a call that is decided at once, and waits for no block
    have hplain (code : Opcode) (hcode : code = .ap ∨ code = .tap) (htap : code = .tap ↔ ending = .rtn ∧ names = [])
        (hwaits : ending.waits names = 0) :
        Leads (emit code [.ofNat argc] cont) s (Coded K d names ending cont s) fun _ s' =>
          Fallen K (ending.waits names) s s' := by
      refine (leads_emit_placed (by rcases hcode with rfl | rfl <;> rfl)).mono ?_ fun e s' h => ⟨_, _, .of_calm hK h⟩
      rintro c s' ⟨h, id, rfl, placed, below⟩
      refine coded_call hcode placed below htap ?_
      rw [show (Piece.call id (.ofNat argc)).pending (ending.waits names) = [] by simp [Piece.pending, hwaits]]
      exact Records.of_calm hK h
    match ending, names, ht with
    | .elsewhere, names, ht => exact ht ▸ hplain .ap (.inl rfl) (by simp) rfl
    | .stop, names, ht => exact ht ▸ hplain .ap (.inl rfl) (by simp) rfl
    | .rtn, [], ht => exact ht ▸ hplain .tap (.inr rfl) (by simp) rfl
    | .rtn, name :: names, ht =>
      subst ht
      refine ((leads_emit_placed rfl).mono (fun _ _ h => h) fun e s' h => ⟨_, _, .of_calm hK h⟩).bind ?_
      rintro c s' ⟨h, id, rfl, placed, below⟩
      -- the ends that the continuation starts with are those of blocks around, so the call can wait for them
      have hblocks : s'.scopes.blocks = s.scopes.blocks := congrArg (·.blocks) h.scopes
      have hle : names.length + 1 ≤ s'.scopes.blocks.length := by
        have := ho.names.length_le
        rwa [List.length_map, ← hblocks] at this
      dsimp only
      rw [leads_bind, leads_modifyScopes, List.length_cons, if_pos hle]
      exact coded_call (.inl rfl) placed below (by simp)
        (records_addPendingTail hK h placed.above (.inl placed.op))
  · next e heq => exact ⟨_, _, .refl hK s⟩

end

/-! ## Actions after others -/

section

variable {K : Interpreter → Interpreter → Prop} {names : List Value} {ending : Ending} {cont : Value}
  {s s' : Interpreter} {d k : Nat} {rs : List (Value × Nat)} {ts : List (PairId × Bool)}

/-- A failure after something has happened, with calls that wait for the same blocks. -/
theorem Fallen.since (hK : Lasting K) (hr : Records K k rs ts s s') {s'' : Interpreter} {k' : Nat}
    (hk : k' = 0 ∨ k' = k) (h : Fallen K k' s' s'') : Fallen K k s s'' := by
  obtain ⟨rs', ts', hr'⟩ := h
  rcases hk with rfl | rfl
  · exact ⟨_, _, hr.trans hK hr'.waitless⟩
  · exact ⟨_, _, hr.trans hK hr'⟩

/-- A piece after something else, in terms of what has happened since the start. -/
theorem Codes.since (hK : Lasting K) {x : LispM Value} (hx : Codes K d x cont) (ho : s'.Open cont names ending)
    (hr : Records K k rs ts s s') (hk : ending.waits names = 0 ∨ ending.waits names = k) :
    Leads x s' (Coded K d names ending cont s') fun _ s'' => Fallen K k s s'' :=
  (hx ho).mono (fun _ _ h => h) fun _ _ h => h.since hK hr hk

/-- The same for what makes no piece. -/
theorem Preserves.since (hK : Lasting K) {x : LispM α} (hx : Preserves K x) (hs : s.Bodied)
    (hr : Records K k rs ts s s') :
    Leads x s' (fun _ s'' => Records K 0 [] [] s' s'') fun _ s'' => Fallen K k s s'' :=
  (hx s' (hr.bodied hs)).mono (fun _ _ h => h) fun _ _ h => .since hK hr (.inl rfl) ⟨_, _, h⟩

/-- An instruction that is put in front of what has been made. -/
theorem leads_emit_since (hK : Lasting K) (hr : Records K k rs ts s s') {code : Opcode} {vs : List Value}
    (hlength : vs.length = code.operandCount) :
    Leads (emit code vs cont) s'
      (fun c s'' => Records K 0 [] [] s' s'' ∧ ∃ id, c = .pair id ∧
        s''.image.heap.Placed s'.pairCount id code vs cont ∧ id.index < s''.pairCount)
      fun _ s'' => Fallen K k s s'' :=
  (leads_emit_placed hlength).mono (fun _ _ h => ⟨.of_calm hK h.1, h.2⟩) fun _ _ h =>
    .since hK hr (.inl rfl) ⟨_, _, .of_calm hK h⟩

end

end StackLisp
