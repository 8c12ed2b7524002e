import StackLisp.Proofs.Actions.Steady
import StackLisp.Proofs.Streams.Tail

/-!
# What compiling leaves behind

`Records K k rs ts s s'` says what may have happened on the way from `s` to `s'` while a
piece of code was made:

* code that was there before is there still, and so are all functions;
* the code of every new function is a piece in front of a return, in which every call is what
  it has to be (`Image.Body`);
* of the blocks around, the returns `rs` are noted, and each of the innermost `k` waits for
  the pending tail calls `ts`, which all wait for `k` blocks; no other new call waits for any.

It goes from actions to one after the other (`Records.trans`).

`K` stands for anything else that is kept by code that is added, and by calls in no function
that become tail calls (`Lasting`).
-/

namespace StackLisp

open Interpreter Compiler

variable {α β : Type}

/-! ## Functions -/

/-- The code is a piece in front of a return, made of pairs in a range, in which every call is what
    it has to be. -/
inductive Image.Whole (image : Image) (lo hi : Nat) (g : Piece) (c : Value) : Prop
  | intro {rtn : PairId} (ends : image.heap.Placed lo rtn .rtn [] .nil)
      (inside : image.Emits (rtn.index + 1) hi [] g (.pair rtn) c)
      (decided : g.Decided image.heap) (final : g.Final image.heap)

/-- The code of a function is such a piece. -/
def Image.Body (image : Image) (lo hi : Nat) (g : Piece) (f : FunctionId) : Prop :=
  image.Whole lo hi g (image.function f).code

section

variable {image image' : Image} {lo hi : Nat} {g : Piece} {f : FunctionId} {c : Value} {q : PairId}

/-- The code is read as before. -/
theorem Image.Whole.keeps (hb : image.Whole lo hi g c) (hcode : image.heap.KeepsCode image'.heap)
    (hfunctions : image.KeepsFunctions image') : image'.Whole lo hi g c := by
  obtain ⟨ends, inside, decided, final⟩ := hb
  exact ⟨ends.keeps hcode, inside.keeps hcode hfunctions, inside.decided_keeps decided hcode,
    inside.final_keeps final hcode⟩

/-- A call that becomes a tail call elsewhere does not matter. -/
theorem Image.Whole.tapped (hb : image.Whole lo hi g c) (hcall : image.heap.IsCall q)
    (hq : q.index < lo ∨ hi ≤ q.index) :
    ({ image with heap := image.heap.tapped q } : Image).Whole lo hi g c := by
  obtain ⟨ends, inside, decided, final⟩ := hb
  have := ends.above
  have := inside.le
  exact ⟨ends.tapped (by omega), inside.tapped hcall (by omega), inside.decided_tapped decided (by omega),
    inside.final_tapped final (by omega)⟩

/-- A function has the code it had. -/
theorem Image.Body.keeps (hb : image.Body lo hi g f) (hf : f.index < image.functions.size)
    (hcode : image.heap.KeepsCode image'.heap) (hfunctions : image.KeepsFunctions image') :
    image'.Body lo hi g f := by
  have hkept := Image.Whole.keeps hb hcode hfunctions
  rwa [← hfunctions.code f hf] at hkept

end

/-- Every function has a body, within the heap. -/
def Interpreter.Bodied (s : Interpreter) : Prop :=
  ∀ f : FunctionId, f.index < s.image.functions.size →
    ∃ lo hi g, s.image.Body lo hi g f ∧ hi ≤ s.image.heap.pairCount

/-- The interpreter after a call has become a tail call. -/
def Interpreter.tapped (s : Interpreter) (q : PairId) : Interpreter :=
  { s with image.heap := s.image.heap.tapped q }

/-- The call is in no function. -/
def Interpreter.Unentered (s : Interpreter) (q : PairId) : Prop :=
  ∀ f : FunctionId, f.index < s.image.functions.size →
    ∃ lo hi g, s.image.Body lo hi g f ∧ (q.index < lo ∨ hi ≤ q.index)

/-- A relation between interpreters that lets pairs and functions be added, and new calls become
    tail calls that are in no function. -/
structure Lasting (K : Interpreter → Interpreter → Prop) : Prop where
  trans : ∀ {s s' s''}, K s s' → K s' s'' → K s s''
  added : ∀ {s s' : Interpreter}, s.image.heap.Extended s'.image.heap → s.image.KeepsFunctions s'.image →
    s'.image.log.marks = s.image.log.marks → K s s'
  tapped : ∀ {s s' : Interpreter} {q : PairId}, K s s' → s.image.heap.pairCount ≤ q.index →
    s'.image.heap.IsCall q → s'.Unentered q → K s (s'.tapped q)

/-- Nothing has to happen. -/
theorem Lasting.refl {K : Interpreter → Interpreter → Prop} (hK : Lasting K) (s : Interpreter) : K s s :=
  hK.added (.refl _) (.refl _) rfl

/-! ## Records -/

/-- What may have happened while a piece of code was made, or was not. -/
structure Records (K : Interpreter → Interpreter → Prop) (k : Nat) (rs : List (Value × Nat))
    (ts : List (PairId × Bool)) (s s' : Interpreter) : Prop where
  lasting : K s s'
  keeps : s.image.heap.KeepsCode s'.image.heap
  functions : s.image.KeepsFunctions s'.image
  tagbodies : s'.scopes.tagbodies = s.scopes.tagbodies
  depth : s'.scopes.functionDepth = s.scopes.functionDepth
  size : s.scopes.pendingTails.size ≤ s'.scopes.pendingTails.size
  earlier : ∀ j < s.scopes.pendingTails.size, s'.scopes.pendingTails[j]? = s.scopes.pendingTails[j]?
  blocks : ∃ indices : List Nat,
    s'.scopes.blocks = noteTails k indices (noteReturns s.scopes.functionDepth rs s.scopes.blocks) ∧
    indices.Nodup ∧ (∀ j ∈ indices, s.scopes.pendingTails.size ≤ j) ∧
    indices.map (s'.scopes.pendingTails[·]?) = ts.map (fun t => some ⟨t.1, k, t.2⟩) ∧
    ∀ j p, s.scopes.pendingTails.size ≤ j → s'.scopes.pendingTails[j]? = some p → j ∉ indices →
      p.openScopes = 0
  calls : ∀ t ∈ ts, s.image.heap.pairCount ≤ t.1.index ∧ s'.image.heap.IsCall t.1
  bodies : ∀ f : FunctionId, s.image.functions.size ≤ f.index → f.index < s'.image.functions.size →
    ∃ lo hi g, s'.image.Body lo hi g f ∧ s.image.heap.pairCount ≤ lo ∧ hi ≤ s'.image.heap.pairCount ∧
      ∀ t ∈ ts, t.1.index < lo ∨ hi ≤ t.1.index

/-- What is there of an array is found in it. -/
theorem lt_of_map_getElem? {β γ : Type} {a : Array β} {indices : List Nat} {l : List γ} {f : γ → β}
    (h : indices.map (a[·]?) = l.map (fun x => some (f x))) {j : Nat} (hj : j ∈ indices) : j < a.size := by
  have hmem : a[j]? ∈ l.map (fun x => some (f x)) := h ▸ List.mem_map_of_mem hj
  obtain ⟨x, -, hx⟩ := List.mem_map.1 hmem
  exact (Array.getElem?_eq_some_iff.1 hx.symm).1

/-- The pending tail calls that are noted together wait for the same number of blocks. -/
theorem openScopes_of_map_getElem? {a : Array PendingTail} {indices : List Nat} {ts : List (PairId × Bool)} {k : Nat}
    (h : indices.map (a[·]?) = ts.map (fun t => some ⟨t.1, k, t.2⟩)) {j : Nat} (hj : j ∈ indices) {p : PendingTail}
    (hp : a[j]? = some p) : p.openScopes = k := by
  have hmem : a[j]? ∈ ts.map fun t => some (⟨t.1, k, t.2⟩ : PendingTail) := h ▸ List.mem_map_of_mem hj
  obtain ⟨t, -, ht⟩ := List.mem_map.1 hmem
  rw [hp] at ht
  exact (Option.some.inj ht) ▸ rfl

/-- Calls are code. -/
theorem Heap.IsCall.keeps {h h' : Heap} {q : PairId} (hq : h.IsCall q) (g : h.KeepsCode h') : h'.IsCall q := by
  rcases hq with hq | hq
  · exact .inl ((g.car q (lt_of_car_ne (by simp [hq])) (.instruction hq .here)).trans hq)
  · exact .inr ((g.car q (lt_of_car_ne (by simp [hq])) (.instruction hq .here)).trans hq)

namespace Records

variable {K : Interpreter → Interpreter → Prop} {k k' : Nat} {rs rs' : List (Value × Nat)}
  {ts ts' : List (PairId × Bool)} {s s' s'' : Interpreter}

/-- Keeping code and leaving functions and scopes alone. -/
theorem of_kept (lasting : K s s') (keeps : s.image.heap.KeepsCode s'.image.heap)
    (functions : s'.image.functions = s.image.functions) (scopes : s'.scopes.unwarned = s.scopes.unwarned) :
    Records K k [] [] s s' where
  lasting := lasting
  keeps := keeps
  functions := .of_eq functions
  tagbodies := congrArg (·.tagbodies) scopes
  depth := congrArg (·.functionDepth) scopes
  size := Nat.le_of_eq (congrArg (·.pendingTails.size) scopes).symm
  earlier j _ := congrArg (·.pendingTails[j]?) scopes
  -- No call was noted, so every block has the tails and the returns it had.
  blocks := by
    have hpending : s'.scopes.pendingTails = s.scopes.pendingTails := congrArg (·.pendingTails) scopes
    refine ⟨[], ?_, List.nodup_nil, nofun, rfl, fun j p hj hp _ => ?_⟩
    · rw [noteReturns_nil, noteTails_nil]
      exact congrArg (·.blocks) scopes
    · rw [hpending] at hp
      exact absurd (Array.getElem?_eq_some_iff.1 hp).1 (Nat.not_lt.2 hj)
  calls := nofun
  bodies f hf hf' := absurd hf' (Nat.not_lt.2 (functions ▸ hf))

/-- Adding pairs and leaving functions and scopes alone. -/
theorem of_extended (hK : Lasting K) (heap : s.image.heap.Extended s'.image.heap)
    (functions : s'.image.functions = s.image.functions) (marks : s'.image.log.marks = s.image.log.marks)
    (scopes : s'.scopes.unwarned = s.scopes.unwarned) : Records K k [] [] s s' :=
  .of_kept (hK.added heap (.of_eq functions) marks) heap.keepsCode functions scopes

/-- A calm change adds pairs at most. -/
theorem of_calm (hK : Lasting K) (h : Calm s s') : Records K k [] [] s s' :=
  .of_extended hK h.heap h.functions h.marks h.scopes

theorem refl (hK : Lasting K) (s : Interpreter) : Records K k [] [] s s := .of_calm hK (.refl s)

/-- Without pending tail calls, it does not matter how many blocks they would wait for. -/
theorem any (hr : Records K k rs [] s s') : Records K k' rs [] s s' :=
  { hr with
    blocks := by
      obtain ⟨indices, hblocks, -, -, hmap, hclosed⟩ := hr.blocks
      obtain rfl : indices = [] := by simpa using hmap
      rw [noteTails_nil] at hblocks
      exact ⟨[], by rw [noteTails_nil, hblocks], List.nodup_nil, nofun, rfl, hclosed⟩
    calls := nofun }

/-- What has been noted in two steps is noted together, that of the later step first. -/
theorem trans (hK : Lasting K) (hr : Records K k rs ts s s') (hr' : Records K k rs' ts' s' s'') :
    Records K k (rs ++ rs') (ts' ++ ts) s s'' where
  lasting := hK.trans hr.lasting hr'.lasting
  keeps := hr.keeps.trans hr'.keeps
  functions := hr.functions.trans hr'.functions
  tagbodies := hr'.tagbodies.trans hr.tagbodies
  depth := hr'.depth.trans hr.depth
  size := Nat.le_trans hr.size hr'.size
  earlier j hj := (hr'.earlier j (Nat.lt_of_lt_of_le hj hr.size)).trans (hr.earlier j hj)
  blocks := by
    obtain ⟨indices, hblocks, hnodup, hge, hmap, hclosed⟩ := hr.blocks
    obtain ⟨indices', hblocks', hnodup', hge', hmap', hclosed'⟩ := hr'.blocks
    have hlt (j : Nat) (hj : j ∈ indices) : j < s'.scopes.pendingTails.size := lt_of_map_getElem? hmap hj
    -- the later calls have been noted in front of the earlier ones
    refine ⟨indices' ++ indices, ?_, ?_, ?_, ?_, fun j p hj hp hmem => ?_⟩
    · rw [hblocks', hblocks, hr.depth, noteReturns_noteTails, noteTails_append, noteReturns_append]
    · refine List.nodup_append.2 ⟨hnodup', hnodup, fun j hj' j' hj heq => ?_⟩
      have := hge' j hj'
      have := hlt j' hj
      omega
    · intro j hj
      rcases List.mem_append.1 hj with hj | hj
      · exact Nat.le_trans hr.size (hge' j hj)
      · exact hge j hj
    · rw [List.map_append, List.map_append, hmap', ← hmap]
      congr 1
      exact List.map_congr_left fun j hj => hr'.earlier j (hlt j hj)
    · -- a call that is noted in neither part was added by the one or the other
      rw [List.mem_append, not_or] at hmem
      by_cases hj' : s'.scopes.pendingTails.size ≤ j
      · exact hclosed' j p hj' hp hmem.1
      · rw [hr'.earlier j (Nat.lt_of_not_le hj')] at hp
        exact hclosed j p hj hp hmem.2
  calls t ht := by
    rcases List.mem_append.1 ht with ht | ht
    · exact ⟨Nat.le_trans hr.keeps.pairCount (hr'.calls t ht).1, (hr'.calls t ht).2⟩
    · exact ⟨(hr.calls t ht).1, (hr.calls t ht).2.keeps hr'.keeps⟩
  bodies f hf hf' := by
    by_cases hlt : f.index < s'.image.functions.size
    · -- a function of the first part is made of earlier pairs than the calls of the second part
      obtain ⟨lo, hi, g, hb, hlo, hhi, hts⟩ := hr.bodies f hf hlt
      refine ⟨lo, hi, g, hb.keeps hlt hr'.keeps hr'.functions, hlo, Nat.le_trans hhi hr'.keeps.pairCount, ?_⟩
      intro t ht
      rcases List.mem_append.1 ht with ht | ht
      · exact .inr (Nat.le_trans hhi (hr'.calls t ht).1)
      · exact hts t ht
    · obtain ⟨lo, hi, g, hb, hlo, hhi, hts⟩ := hr'.bodies f (Nat.le_of_not_lt hlt) hf'
      -- and one of the second part of later pairs than the calls of the first part
      refine ⟨lo, hi, g, hb, Nat.le_trans hr.keeps.pairCount hlo, hhi, fun t ht => ?_⟩
      rcases List.mem_append.1 ht with ht | ht
      · exact hts t ht
      · exact .inl (Nat.lt_of_lt_of_le (hr.calls t ht).2.lt hlo)

/-- The functions of before have their bodies, and the new ones have been made with theirs. -/
theorem bodied (hr : Records K k rs ts s s') (hs : s.Bodied) : s'.Bodied := by
  intro f hf
  by_cases hlt : f.index < s.image.functions.size
  · obtain ⟨lo, hi, g, hb, hhi⟩ := hs f hlt
    exact ⟨lo, hi, g, hb.keeps hlt hr.keeps hr.functions, Nat.le_trans hhi hr.keeps.pairCount⟩
  · obtain ⟨lo, hi, g, hb, -, hhi, -⟩ := hr.bodies f (Nat.le_of_not_lt hlt) hf
    exact ⟨lo, hi, g, hb, hhi⟩

/-- The pending tail calls of a piece are in no function. -/
theorem unentered (hr : Records K k rs ts s s') (hs : s.Bodied) {t : PairId × Bool} (ht : t ∈ ts) :
    s'.Unentered t.1 := by
  intro f hf
  by_cases hlt : f.index < s.image.functions.size
  · obtain ⟨lo, hi, g, hb, hhi⟩ := hs f hlt
    exact ⟨lo, hi, g, hb.keeps hlt hr.keeps hr.functions, .inr (Nat.le_trans hhi (hr.calls t ht).1)⟩
  · obtain ⟨lo, hi, g, hb, -, -, hts⟩ := hr.bodies f (Nat.le_of_not_lt hlt) hf
    exact ⟨lo, hi, g, hb, hts t ht⟩

/-- The blocks around stay the same, whatever is noted of them. -/
theorem names (hr : Records K k rs ts s s') :
    s'.scopes.blocks.map (·.name) = s.scopes.blocks.map (·.name) := by
  obtain ⟨indices, hblocks, -⟩ := hr.blocks
  rw [hblocks, map_name_noteTails, map_name_noteReturns]

end Records

/-! ## Pending tail calls that are counted -/

/-- The pending tail calls that each of the blocks around holds. -/
def Scopes.held (c : Scopes) : List (List Nat) := c.blocks.map (·.tailCalls)

/-- The blocks around hold pending tail calls that there are, each of them once, and such a call
    waits for at least as many blocks as hold it. -/
structure Scopes.Counted (c : Scopes) : Prop where
  nodup : ∀ indices ∈ c.held, indices.Nodup
  valid : ∀ indices ∈ c.held, ∀ j ∈ indices, j < c.pendingTails.size
  waits : ∀ j p, c.pendingTails[j]? = some p → c.held.countP (j ∈ ·) ≤ p.openScopes

section

variable {c c' : Scopes} {depth k : Nat} {rs : List (Value × Nat)} {indices : List Nat} {bs : List BlockScope}

/-- Only blocks and pending calls matter. -/
theorem Scopes.Counted.congr (hc : c.Counted) (hblocks : c'.blocks = c.blocks)
    (hpending : c'.pendingTails = c.pendingTails) : c'.Counted := by
  have hheld : c'.held = c.held := congrArg (·.map (·.tailCalls)) hblocks
  exact ⟨hheld ▸ hc.nodup, hheld ▸ hpending ▸ hc.valid, hheld ▸ hpending ▸ hc.waits⟩

/-- Where no block is open, nothing is held. -/
theorem Scopes.counted_of_nil (hblocks : c.blocks = []) : c.Counted := by
  have hheld : c.held = [] := congrArg (·.map (·.tailCalls)) hblocks
  exact ⟨by simp [hheld], by simp [hheld], fun _ _ _ => by simp [hheld]⟩

/-- A block that holds no calls yet. -/
theorem Scopes.Counted.cons (hc : c.Counted) {b : BlockScope} (hb : b.tailCalls = []) :
    ({ c with blocks := b :: c.blocks } : Scopes).Counted := by
  have hheld : ({ c with blocks := b :: c.blocks } : Scopes).held = [] :: c.held := by simp [held, hb]
  refine ⟨?_, ?_, fun j p hp => ?_⟩
  · exact hheld ▸ List.forall_mem_cons.2 ⟨List.nodup_nil, hc.nodup⟩
  · exact hheld ▸ List.forall_mem_cons.2 ⟨nofun, hc.valid⟩
  · rw [hheld]
    simpa using hc.waits j p hp

/-- Returns are noted apart from tail calls. -/
theorem map_tailCalls_noteReturns : (noteReturns depth rs bs).map (·.tailCalls) = bs.map (·.tailCalls) := by
  induction bs generalizing rs with
  | nil => rfl
  | cons b bs ih => simp [noteReturns, ih]

/-- The calls go to each of the innermost blocks. -/
theorem map_tailCalls_noteTails :
    (noteTails k indices bs).map (·.tailCalls) =
      ((bs.map (·.tailCalls)).take k).map (indices ++ ·) ++ (bs.map (·.tailCalls)).drop k := by
  simp [noteTails, List.map_take, List.map_drop, Function.comp_def]

end

/-- The pending tail calls that have been noted are counted. -/
theorem Records.counted {K : Interpreter → Interpreter → Prop} {k : Nat} {rs : List (Value × Nat)}
    {ts : List (PairId × Bool)} {s s' : Interpreter} (hr : Records K k rs ts s s') (hs : s.scopes.Counted) :
    s'.scopes.Counted := by
  obtain ⟨indices, hblocks, hnodup, hge, hmap, hclosed⟩ := hr.blocks
  have hheld : s'.scopes.held =
      (s.scopes.held.take k).map (indices ++ ·) ++ s.scopes.held.drop k := by
    unfold Scopes.held
    rw [hblocks, map_tailCalls_noteTails, map_tailCalls_noteReturns]
  -- a list of the later scopes is an earlier one, possibly with the new calls
  have hmem (l : List Nat) (hl : l ∈ s'.scopes.held) : l ∈ s.scopes.held ∨ ∃ l' ∈ s.scopes.held, l = indices ++ l' := by
    rw [hheld, List.mem_append, List.mem_map] at hl
    rcases hl with ⟨l', hl', rfl⟩ | hl
    · exact .inr ⟨l', List.mem_of_mem_take hl', rfl⟩
    · exact .inl (List.mem_of_mem_drop hl)
  refine ⟨fun l hl => ?_, fun l hl j hj => ?_, fun j p hp => ?_⟩
  · rcases hmem l hl with hl | ⟨l', hl', rfl⟩
    · exact hs.nodup l hl
    · refine List.nodup_append.2 ⟨hnodup, hs.nodup l' hl', fun i hi i' hi' heq => ?_⟩
      have := hge i hi
      have := hs.valid l' hl' i' hi'
      omega
  · rcases hmem l hl with hl | ⟨l', hl', rfl⟩
    · exact Nat.lt_of_lt_of_le (hs.valid l hl j hj) hr.size
    · rcases List.mem_append.1 hj with hj | hj
      · exact lt_of_map_getElem? hmap hj
      · exact Nat.lt_of_lt_of_le (hs.valid l' hl' j hj) hr.size
  · rw [hheld, List.countP_append, List.countP_map]
    by_cases hj : j ∈ indices
    · -- a new call is held by the innermost blocks that it waits for
      have hopen : p.openScopes = k := openScopes_of_map_getElem? hmap hj hp
      have hdrop : (s.scopes.held.drop k).countP (j ∈ ·) = 0 := List.countP_eq_zero.2 fun l hl hjl =>
        Nat.not_lt.2 (hge j hj) (hs.valid l (List.mem_of_mem_drop hl) j (of_decide_eq_true hjl))
      have htake := List.countP_le_length (p := (fun l => decide (j ∈ l)) ∘ (indices ++ ·)) (l := s.scopes.held.take k)
      rw [List.length_take] at htake
      omega
    · -- any other call is held by the same blocks as before
      have hsame : (s.scopes.held.take k).countP ((fun l => decide (j ∈ l)) ∘ (indices ++ ·)) =
          (s.scopes.held.take k).countP (j ∈ ·) := List.countP_congr fun l _ => by simp [hj]
      rw [hsame, ← List.countP_append, List.take_append_drop]
      by_cases hlt : j < s.scopes.pendingTails.size
      · exact hs.waits j p ((hr.earlier j hlt).symm.trans hp)
      · have hnone : s.scopes.held.countP (j ∈ ·) = 0 := List.countP_eq_zero.2 fun l hl hjl =>
          hlt (hs.valid l hl j (of_decide_eq_true hjl))
        omega

/-- The interpreter is in the middle of compiling: its functions have bodies, and the pending tail
    calls are counted. -/
structure Interpreter.Compiling (s : Interpreter) : Prop where
  bodied : s.Bodied
  counted : s.scopes.Counted

/-- Whatever has been made, the compiler can go on. -/
theorem Records.compiling {K : Interpreter → Interpreter → Prop} {k : Nat} {rs : List (Value × Nat)}
    {ts : List (PairId × Bool)} {s s' : Interpreter} (hr : Records K k rs ts s s') (hs : s.Compiling) :
    s'.Compiling := ⟨hr.bodied hs.bodied, hr.counted hs.counted⟩

end StackLisp
