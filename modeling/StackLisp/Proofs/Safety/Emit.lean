import StackLisp.Proofs.Safety.Sound
import StackLisp.Compiler.LambdaList

/-!
# Emitting code in order

Code is made from back to front, so the compiler is in order if it keeps the code
so far in order: `Ready L s scope b st ctx c` says that the code `c` may run where
the variables of `scope` are, with the operands `st` and inside the constructs
`ctx`. A rule of the compiler, given code that takes the value of its form, gives
code that does not (`Compiles`).

* `safe_emit`: an instruction in front;
* `safe_emitApply`: a call in front, which is a tail call or pending only if a return
  follows;
* `safe_compileArgs`, `safe_compileBody`: forms one after the other.
-/

namespace StackLisp

open Interpreter Layout Compiler

/-! ## Scopes -/

/-- The shape of frames with these variables. -/
def LexicalFrame.shape (frame : LexicalFrame) : FrameShape := (frameArity frame).frame

/-- The shapes of the frames of a lexical environment. -/
def LexicalEnv.shapes (scope : LexicalEnv) : List FrameShape := scope.map LexicalFrame.shape

/-- A bound for what grows with the number of pairs: it leaves room for those still to come. -/
def Heap.sizeBound (h : Heap) : Nat := h.pairCount + (Heap.addressable - h.capacity)

/-- The bound on sizes is one on pairs. -/
theorem Heap.pairCount_le_sizeBound (h : Heap) : h.pairCount ≤ h.sizeBound := Nat.le_add_right _ _

/-- The bound on sizes only grows. -/
theorem Layout.Grows.sizeBound {n : Nat} {L L' : Layout} {h h' : Heap} (g : Grows n L h L' h') :
    h.sizeBound ≤ h'.sizeBound := by
  unfold Heap.sizeBound
  rw [g.capacity]
  exact Nat.add_le_add_right g.pairs _

/-- The rest parameter of a frame is the last of its names, of which there are at most
    `bound` and the rest parameter. -/
structure LexicalFrame.Regular (bound : Nat) (frame : LexicalFrame) : Prop where
  names : frame.names.length ≤ bound + 1
  rest : ∀ i, frame.rest = some i → i + 1 = frame.names.length

/-- The frames of a lexical environment are regular, and there are at most `bound`. -/
structure LexicalEnv.Bounded (bound : Nat) (scope : LexicalEnv) : Prop where
  depth : scope.length ≤ bound
  frames : ∀ frame ∈ scope, frame.Regular bound

/-- A frame within a bound is within a larger one. -/
theorem LexicalFrame.Regular.mono {bound bound' : Nat} {frame : LexicalFrame}
    (hf : frame.Regular bound) (h : bound ≤ bound') : frame.Regular bound' :=
  ⟨Nat.le_trans hf.names (Nat.succ_le_succ h), hf.rest⟩

/-- A scope within a bound is within a larger one. -/
theorem LexicalEnv.Bounded.mono {bound bound' : Nat} {scope : LexicalEnv}
    (hb : scope.Bounded bound) (h : bound ≤ bound') : scope.Bounded bound' :=
  ⟨Nat.le_trans hb.depth h, fun frame hf => (hb.frames frame hf).mono h⟩

/-- An index that has been found is one of the list. -/
theorem lastIndex?_lt {α : Type} [DecidableEq α] {a : α} :
    ∀ {xs : List α} {i : Nat}, lastIndex? a xs = some i → i < xs.length
  | [], _, h => by cases h
  | x :: xs, i, h => by
    unfold lastIndex? at h
    cases hxs : lastIndex? a xs with
    | some j =>
      simp only [hxs, Option.some.injEq] at h
      subst h
      exact Nat.succ_lt_succ (lastIndex?_lt hxs)
    | none =>
      simp only [hxs] at h
      split at h
      · cases h
        exact Nat.zero_lt_succ _
      · cases h

/-- The address of a variable leads to a frame with its name. -/
theorem LexicalEnv.resolve_eq_some {name : SymbolId} :
    ∀ {scope : LexicalEnv} {a : LexicalAddress}, scope.resolve name = some a →
      ∃ frame, scope[a.frame]? = some frame ∧ a.slot < frame.names.length ∧
        a.rest = (frame.rest == some a.slot)
  | [], _, h => by cases h
  | frame :: outer, a, h => by
    unfold resolve at h
    cases hi : lastIndex? name frame.names with
    | some i =>
      simp only [hi, Option.some.injEq] at h
      subst h
      exact ⟨frame, rfl, lastIndex?_lt hi, rfl⟩
    | none =>
      simp only [hi] at h
      obtain ⟨a', ha', rfl⟩ := Option.map_eq_some_iff.1 h
      obtain ⟨frame', hframe, hlt, hrest⟩ := resolve_eq_some ha'
      exact ⟨frame', by simpa using hframe, hlt, hrest⟩

/-- A variable of a frame is its rest parameter or one of the others. -/
theorem LexicalFrame.Regular.shape {bound slot : Nat} {frame : LexicalFrame}
    (hf : frame.Regular bound) (hslot : slot < frame.names.length) :
    if frame.rest = some slot then slot = frame.shape.params ∧ frame.shape.rest
    else slot < frame.shape.params := by
  cases hr : frame.rest with
  | none => simpa [LexicalFrame.shape, frameArity, hr, Arity.exactly, Arity.frame] using hslot
  | some i =>
    have hi := hf.rest i hr
    by_cases heq : i = slot
    · simp [heq, LexicalFrame.shape, frameArity, hr, Arity.atLeast, Arity.frame]
      omega
    · simp [heq, LexicalFrame.shape, frameArity, hr, Arity.atLeast, Arity.frame]
      omega

/-- An address fits the shapes of the frames. -/
theorem LexicalEnv.Bounded.resolve {bound : Nat} {scope : LexicalEnv} {name : SymbolId}
    {a : LexicalAddress} (hb : scope.Bounded bound) (ha : scope.resolve name = some a) :
    a.frame ≤ bound ∧ a.slot ≤ bound ∧ ∃ n, scope.shapes[a.frame]? = some n ∧
      if a.rest then a.slot = n.params ∧ n.rest else a.slot < n.params := by
  obtain ⟨frame, hframe, hlt, hrest⟩ := resolve_eq_some ha
  have hregular := hb.frames frame (List.mem_of_getElem? hframe)
  have hnames := hregular.names
  have hdepth : a.frame < scope.length := (List.getElem?_eq_some_iff.1 hframe).1
  refine ⟨Nat.le_trans (Nat.le_of_lt hdepth) hb.depth, by omega, frame.shape, ?_, ?_⟩
  · simp [shapes, hframe]
  · simpa only [hrest, beq_iff_eq] using hregular.shape hlt

/-! ## Counts -/

/-- A count that a heap can have is an operand. -/
theorem Value.count?_ofNat {n : Nat} (hn : n ≤ Heap.addressable) :
    (Value.ofNat n).count? = some n := by
  have hlt : n < 2 ^ 63 := Nat.lt_of_le_of_lt hn (by decide)
  have hint : (Int64.ofNat n).toInt = n := Int64.toInt_ofNat_of_lt hlt
  have hle : 0 ≤ Int64.ofNat n := by
    rw [Int64.le_iff_toInt_le, hint]
    exact Int.natCast_nonneg n
  simp [Value.count?, Value.ofNat, hle, Int64.toNatClampNeg, hint]

/-- On a heap in order, all sizes are addressable. -/
theorem Layout.Fits.sizeBound {L : Layout} {h : Heap} (hL : L.Fits h) :
    h.sizeBound ≤ Heap.addressable := by
  have hroom : h.pairCount + h.frames.size ≤ h.capacity := hL.room
  have hcapacity := hL.capacity
  unfold Heap.sizeBound
  omega

/-- On a heap in order, all pairs are addressable. -/
theorem Layout.Fits.addressable {L : Layout} {h : Heap} (hL : L.Fits h) :
    h.pairCount ≤ Heap.addressable :=
  Nat.le_trans h.pairCount_le_sizeBound hL.sizeBound

/-- A list that a program sees is not longer than the heap. -/
theorem Layout.Fits.length_elements? {L : Layout} {h : Heap} (hL : L.Fits h) {v : Value} {items : List Value}
    (hv : L.Visible v) (hitems : h.elements? v = .ok (some items)) : items.length ≤ h.pairCount := by
  have hspine := hL.closed.length_spine hv.data
  unfold Heap.elements? at hitems
  split at hitems
  · next heq =>
    obtain rfl : _ = items := by simpa using hitems
    rw [heq] at hspine
    exact hspine nofun
  · cases hitems
  · cases hitems

/-! ## Code under construction -/

/-- The interpreter is in order, and so is the code `c`, in a scope. -/
structure Ready (L : Layout) (s : Interpreter) (scope : LexicalEnv) (b : Base) (st : List Slot)
    (ctx : List Item) (c : Value) : Prop where
  sound : Sound L s
  bounded : scope.Bounded s.image.heap.sizeBound
  code : L.Code s.image.heap b scope.shapes st ctx c

/-- The rule puts the code of a form in front of code that takes its value. -/
def Compiles (compile : CompileRule) : Prop :=
  ∀ {L : Layout} {s : Interpreter} {scope : LexicalEnv} {b : Base} {st : List Slot}
    {ctx : List Item} {form cont : Value}, Ready L s scope b (.value :: st) ctx cont →
    L.Visible form →
    Safe Evolves L (compile form scope cont) s fun L' c s' => Ready L' s' scope b st ctx c

section

variable {L L' : Layout} {s s' : Interpreter} {scope : LexicalEnv} {b : Base} {st st' : List Slot}
  {ctx : List Item} {cont : Value} {compile : CompileRule} {α : Type}

/-- What is ready stays so. -/
theorem Ready.evolves (hr : Ready L s scope b st ctx cont) (e : Evolves L s L' s') :
    Ready L' s' scope b st ctx cont :=
  ⟨e.sound, hr.bounded.mono e.grows.sizeBound, hr.code.grows e.grows⟩

/-- Nothing has changed yet. -/
theorem Ready.refl (hr : Ready L s scope b st ctx cont) : Evolves L s L s := hr.sound.evolves

/-- Whether an instruction has as many operands as it takes, and no table among them. -/
def Opcode.isPlain (code : Opcode) (vs : List Value) : Bool :=
  vs.length = code.operandCount && code ≠ .tagbody

/-- Plain instructions have their number of operands, and are not the entry of a `tagbody`. -/
theorem Opcode.isPlain_iff {code : Opcode} {vs : List Value} :
    code.isPlain vs ↔ vs.length = code.operandCount ∧ code ≠ .tagbody := by
  simp [isPlain]

/-- Making an instruction, whose table is in order if it is a `TAGBODY`. -/
theorem safe_emit_with (hs : Sound L s) {code : Opcode} {vs : List Value} {k : Value}
    (hvs : ∀ v ∈ vs, v.op? = none) (hlen : vs.length = code.operandCount)
    (htable : code = .tagbody → ∃ tag table entries, vs = [tag, table] ∧
      L.IsTable s.image.heap entries table) :
    Safe Evolves L (emit code vs k) s fun L' c s' => L'.Instr s'.image.heap code vs c k ∧
      s.image.heap.pairCount < s'.image.heap.pairCount := by
  refine (safe_heap hs (safe_operands hs.fits hvs)).bind fun L₁ tail s₁ e₁ htail => ?_
  refine Safe.mono (safe_heap e₁.sound (safe_cons_instr e₁.sound.fits htail hlen fun hcode => ?_)) ?_
  · obtain ⟨tag, table, entries, hvs, hentries⟩ := htable hcode
    exact ⟨tag, table, entries, hvs, hentries.grows e₁.grows⟩
  · rintro L' c s' e ⟨instr, hlt⟩
    exact ⟨instr, Nat.lt_of_le_of_lt e₁.grows.pairs hlt⟩

/-- Making an instruction. -/
theorem safe_emit_instr (hs : Sound L s) {code : Opcode} {vs : List Value} {k : Value}
    (hvs : ∀ v ∈ vs, v.op? = none) (hcode : code.isPlain vs) :
    Safe Evolves L (emit code vs k) s fun L' c s' => L'.Instr s'.image.heap code vs c k ∧
      s.image.heap.pairCount < s'.image.heap.pairCount := by
  obtain ⟨hlen, htag⟩ := Opcode.isPlain_iff.1 hcode
  exact safe_emit_with hs hvs hlen (absurd · htag)

/-- An instruction in front of code. -/
theorem safe_emit (hr : Ready L s scope b st ctx cont) {code : Opcode} {vs : List Value}
    (hvs : ∀ v ∈ vs, v.op? = none) (hcode : code.isPlain vs)
    (hnext : ∀ {L' : Layout} {s' : Interpreter} {c : Value}, Evolves L s L' s' →
      L'.Instr s'.image.heap code vs c cont → L'.Code s'.image.heap b scope.shapes st ctx cont →
      L'.Code s'.image.heap b scope.shapes st' ctx c) :
    Safe Evolves L (emit code vs cont) s fun L' c s' => Ready L' s' scope b st' ctx c := by
  refine (safe_emit_instr hr.sound hvs hcode).mono fun L' c s' e hc => ?_
  have hr' := hr.evolves e
  exact ⟨hr'.sound, hr'.bounded, hnext e hc.1 hr'.code⟩

/-- A constant in front of code. -/
theorem safe_emit_ldc (hr : Ready L s scope b (.value :: st) ctx cont) {v : Value}
    (hv : L.Visible v) :
    Safe Evolves L (emit .ldc [v] cont) s fun L' c s' => Ready L' s' scope b st ctx c :=
  safe_emit hr (by simpa using hv.op?_eq_none) rfl fun e instr hc => .ldc instr (e.visible hv) hc

/-- Dropping a value in front of code. -/
theorem safe_emit_pop (hr : Ready L s scope b st ctx cont) :
    Safe Evolves L (emit .pop [] cont) s fun L' c s' =>
      Ready L' s' scope b (.value :: st) ctx c :=
  safe_emit hr nofun rfl fun _ instr hc => .pop instr hc

/-! ## Calls -/

/-- A continuation leads elsewhere if it starts with another instruction than those that
    are followed. -/
theorem Layout.Instr.tailFrom_eq {h : Heap} {code : Opcode} {vs : List Value} {c k : Value}
    (hc : L.Instr h code vs c k) (hcode : code ≠ .blockend ∧ code ≠ .rtn ∧ code ≠ .stop)
    {crossed fuel : Nat} {tail : Tail} (ht : tailFrom h crossed fuel c = .ok tail) :
    tail = .elsewhere := by
  obtain ⟨-, op, -⟩ := hc
  cases fuel with
  | zero => cases ht
  | succ fuel =>
    simp only [tailFrom, op] at ht
    cases code <;> simp_all

/-- What does not lead elsewhere is an end, after the ends of blocks, and a return if it
    leads to one. -/
theorem finishes_of_tailFrom {h : Heap} {env : List FrameShape} {b : Base} {st : List Slot}
    {ctx : List Item} {c : Value} (hc : L.Code h b env st ctx c) :
    ∀ {fuel crossed : Nat} {tail : Tail}, tailFrom h crossed fuel c = .ok tail →
      tail = .elsewhere ∨ L.Finishes h c ∧ ∀ n, tail = .toReturn n → L.Returns h c := by
  -- The search stops at the first instruction that is not the end of a block.
  induction hc with
  | reached _ ih => exact ih
  | rtn instr => exact fun _ => .inr ⟨.rtn instr, fun _ _ => .rtn instr⟩
  | stop instr =>
    intro fuel crossed tail ht
    refine .inr ⟨.stop instr, fun n hn => ?_⟩
    obtain ⟨-, op, -⟩ := instr
    cases fuel with
    | zero => cases ht
    | succ fuel =>
      simp only [tailFrom, op, Except.ok.injEq] at ht
      cases ht.trans hn
  | blockend instr _ ih =>
    intro fuel crossed tail ht
    obtain @⟨id, _, own, op, operands⟩ := instr
    cases fuel with
    | zero => cases ht
    | succ fuel =>
      simp only [tailFrom, op] at ht
      have instr := Instr.mk own op operands
      generalize h.cdr id = d at operands ht
      obtain _ | ⟨-, -, operands⟩ := operands
      obtain rfl := operands.nil_inv
      rcases ih ht with helse | ⟨hends, hreturns⟩
      · exact .inl helse
      · exact .inr ⟨.blockend instr hends, fun n hn => .blockend instr (hreturns n hn)⟩
  | _ => exact fun ht => .inl (Instr.tailFrom_eq ‹_› (by decide) ht)

/-- Looking for the end of a continuation breaks no rule. -/
theorem tailFrom_benign {h : Heap} {crossed fuel : Nat} {c : Value} {e : Failure}
    (he : tailFrom h crossed fuel c = .error e) : e.Benign := by
  rw [tailFrom_error he]
  trivial

/-- One more tail call can be pending. -/
theorem Layout.Noted.addPendingTail {h : Heap} {scopes : Scopes} (hn : L.Noted h scopes)
    {id : PairId} (hid : L.TailCall h id) (crossed : Nat) :
    L.Noted h (scopes.addPendingTail id crossed) where
  tails p hp := by
    rcases Array.mem_push.1 hp with hp | rfl
    · exact hn.tails p hp
    · exact hid
  tagbodies := hn.tagbodies

/-- A call in front of code. -/
theorem safe_emitApply {argc : Nat} (hr : Ready L s scope b (.value :: st) ctx cont)
    (hargc : argc ≤ s.image.heap.pairCount) :
    Safe Evolves L (emitApply argc cont) s fun L' c s' =>
      Ready L' s' scope b (List.replicate (argc + 1) .value ++ st) ctx c := by
  have hcount : (Value.ofNat argc).count? = some argc :=
    Value.count?_ofNat (Nat.le_trans hargc hr.sound.fits.addressable)
  have hplain : ∀ v ∈ [Value.ofNat argc], v.op? = none := by simp [Value.ofNat, Value.op?]
  -- An ordinary call is in order in front of any continuation.
  have hap : Safe Evolves L (emit .ap [.ofNat argc] cont) s fun L' c s' =>
      Ready L' s' scope b (List.replicate (argc + 1) .value ++ st) ctx c :=
    safe_emit hr hplain rfl fun _ instr hc => .ap instr hcount hc
  refine safe_walk_bind hr.refl (fun e he => ?_) fun tail htail => ?_
  · exact tailFrom_benign he
  · cases tail with
    | elsewhere | toStop _ => exact hap
    | toReturn crossed =>
      -- The search has found a return at the end of the continuation.
      have hreturns : L.Returns s.image.heap cont := by
        rcases finishes_of_tailFrom hr.code htail with helse | ⟨-, hreturns⟩
        · cases helse
        · exact hreturns crossed rfl
      -- Without blocks in between this is a tail call already. Otherwise it may become one, and is
      -- noted.
      cases crossed with
      | zero =>
        exact safe_emit hr hplain rfl fun e instr hc => .tap instr hcount (hreturns.grows e.grows) hc
      | succ crossed =>
        refine (safe_emit_instr hr.sound hplain rfl).bind fun L' c s' e hc => ?_
        have hr' := hr.evolves e
        have hcode : L'.Code s'.image.heap b scope.shapes
            (List.replicate (argc + 1) .value ++ st) ctx c := .ap hc.1 hcount hr'.code
        obtain @⟨id, _, own, op, operands⟩ := hc.1
        have htail : L'.TailCall s'.image.heap id :=
          ⟨own, .inl op, _, _, operands, hreturns.grows e.grows⟩
        refine (safe_modifyScopes hr'.sound ?_).bind ?_
        · split
          · exact hr'.sound.noted.addPendingTail htail _
          · exact hr'.sound.noted
        · rintro L'' _ _ e' ⟨rfl, rfl⟩
          exact Safe.pure e'.sound.evolves ⟨e'.sound, hr'.bounded, hcode⟩

/-! ## Forms in sequence -/

/-- Arguments are no more than there are pairs. -/
theorem inert_arguments {args : Value} (hs : Sound L s) (hargs : L.Visible args) :
    Inert (arguments args) s fun items =>
      items.length ≤ s.image.heap.pairCount ∧ ∀ v ∈ items, L.Visible v := by
  refine inert_elements.bind fun r hr => ?_
  cases r with
  | some items => exact .pure ⟨hs.fits.length_elements? hargs hr, hs.fits.elements? hargs hr⟩
  | none => exact .raise trivial

theorem inert_head {v : Value} (hs : Sound L s) (hv : L.Visible v) :
    Inert (query (·.heap.head v)) s L.Visible := by
  rcases inert_query (s := s) (f := (·.heap.head v)) (fun _ => Heap.head_benign) with ⟨w, hw, h⟩ | h
  · exact .inl ⟨w, hw, hs.fits.head hv h⟩
  · exact .inr h

theorem inert_tail {v : Value} (hs : Sound L s) (hv : L.Visible v) :
    Inert (query (·.heap.tail v)) s L.Visible := by
  rcases inert_query (s := s) (f := (·.heap.tail v)) (fun _ => Heap.tail_benign) with ⟨w, hw, h⟩ | h
  · exact .inl ⟨w, hw, hs.fits.tail hv h⟩
  · exact .inr h

/-- The arguments of a call. -/
theorem safe_compileArgs (hc : Compiles compile) :
    ∀ {args : List Value} {st : List Slot} {L : Layout} {s : Interpreter} {cont : Value},
      Ready L s scope b (List.replicate args.length .value ++ st) ctx cont →
      (∀ v ∈ args, L.Visible v) →
      Safe Evolves L (compileArgs compile args scope cont) s fun L' c s' =>
        Ready L' s' scope b st ctx c
  | [], _, _, _, _, hr, _ => Safe.pure hr.refl hr
  | a :: args, st, L, s, cont, hr, hargs => by
    unfold compileArgs
    rw [List.foldrM_cons]
    rw [List.length_cons, List.replicate_succ', List.append_assoc] at hr
    refine (safe_compileArgs hc hr fun v hv => hargs v (List.mem_cons_of_mem _ hv)).bind ?_
    intro L' c s' e hr'
    exact hc hr' (e.visible (hargs a List.mem_cons_self))

/-- Forms in sequence. -/
theorem safe_compileBody (hc : Compiles compile) {forms : Value}
    (hr : Ready L s scope b (.value :: st) ctx cont) (hforms : L.Visible forms) :
    Safe Evolves L (compileBody compile forms scope cont) s fun L' c s' =>
      Ready L' s' scope b st ctx c := by
  refine (inert_arguments hr.sound hforms).safe_bind hr.refl fun items hitems => ?_
  have hvisible : ∀ v ∈ items.reverse, L.Visible v := by simpa using hitems.2
  cases hrev : items.reverse with
  | nil => exact safe_emit_ldc hr trivial
  | cons last before =>
    rw [hrev] at hvisible
    refine (hc hr (hvisible last List.mem_cons_self)).bind fun L' c s' e hr' => ?_
    refine Safe.foldlM (I := fun L' c s' => Ready L' s' scope b st ctx c) hr'.refl hr' ?_
    intro form hform L'' c' s'' e' hr''
    refine (safe_emit_pop hr'').bind fun L₃ c₃ s₃ e₃ hr₃ => hc hr₃ ?_
    exact (Evolution.trans (Evolution.trans e e') e₃).visible
      (hvisible form (List.mem_cons_of_mem _ hform))

/-! ## What is done in any case -/

/-- An action whose failure is looked at, before another. -/
theorem safe_attempt_bind {β : Type} {x : LispM α} {f : Except Failure α → LispM β}
    {mid : Layout → α → Interpreter → Prop} {post : Layout → β → Interpreter → Prop}
    (hx : Safe Evolves L x s mid)
    (hok : ∀ L' a s', Evolves L s L' s' → mid L' a s' → Safe Evolves L' (f (.ok a)) s' post)
    (herr : ∀ L' e s', Evolves L s L' s' → e.Benign → Safe Evolves L' (f (.error e)) s' post) :
    Safe Evolves L (attempt x >>= f) s post := by
  -- Caught, the result says what a success keeps, and that a failure breaks no rule.
  have hattempt : Safe Evolves L (attempt x) s fun L' r s' =>
      (∀ a, r = .ok a → mid L' a s') ∧ ∀ e, r = .error e → e.Benign := by
    unfold Safe
    rw [leads_attempt]
    refine Leads.mono hx ?_ ?_
    · rintro a s' ⟨L', ev, ha⟩
      exact ⟨L', ev, by simpa using ha, by simp⟩
    · rintro e s' ⟨he, L', ev⟩
      exact ⟨L', ev, by simp, by simpa using he⟩
  refine hattempt.bind fun L' r s' e hr => ?_
  cases r with
  | ok a => exact hok L' a s' e (hr.1 a rfl)
  | error f => exact herr L' f s' e (hr.2 f rfl)

/-- An action and another that follows it whether or not it fails. -/
theorem safe_finally {x : LispM α} {cleanup : LispM Unit} {post : Layout → α → Interpreter → Prop}
    (hx : Safe Evolves L x s post)
    (hcleanup : ∀ {L' : Layout} {s' : Interpreter}, Evolves L s L' s' →
      Safe Evolves L' cleanup s' fun _ _ _ => True)
    (hpost : ∀ {L' : Layout} {a : α} {s' : Interpreter} {L'' : Layout} {s'' : Interpreter},
      post L' a s' → Evolves L' s' L'' s'' → post L'' a s'') :
    Safe Evolves L (do
      let result ← attempt x
      cleanup
      resume result) s post := by
  refine safe_attempt_bind hx (fun L' a s' e hp => ?_) fun L' f s' e hf => ?_
  · exact (hcleanup e).bind fun L'' _ s'' e' _ => Safe.pure (Evolution.refl e') (hpost hp e')
  · exact (hcleanup e).bind fun L'' _ s'' e' _ => Safe.throw (Evolution.refl e') hf

/-- A change of the notes of the compiler, before another action. -/
theorem safe_modifyScopes_bind {f : Scopes → Scopes} {x : LispM α}
    {post : Layout → α → Interpreter → Prop} (hs : Sound L s)
    (hf : L.Noted s.image.heap (f s.scopes))
    (hx : Sound L { s with scopes := f s.scopes } →
      Safe Evolves L x { s with scopes := f s.scopes } post) :
    Safe Evolves L (modifyScopes f >>= fun _ => x) s post := by
  refine (safe_modifyScopes hs hf).bind ?_
  rintro L' _ _ e ⟨rfl, rfl⟩
  exact hx e.sound

/-- The code stays in order when the notes of the compiler change. -/
theorem Ready.scopes (hr : Ready L s scope b st ctx cont) {scopes : Scopes}
    (hs : Sound L { s with scopes }) : Ready L { s with scopes } scope b st ctx cont :=
  ⟨hs, hr.bounded, hr.code⟩

end

end StackLisp
