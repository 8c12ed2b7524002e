import Mathlib.Data.List.Nodup
import StackLisp.Proofs.Streams.Function

/-!
# Pieces for blocks

When a block is closed, the calls that wait for it are settled: each of them waits for one block
less, and where it has waited for no other, it becomes a tail call unless a block that it leaves is
captured. By then the piece tells the same, so a block around a piece is a piece again
(`codes_compileBlock`), and what is noted is noted of the blocks around (`Records.close`).
-/

namespace StackLisp

open Interpreter Compiler

variable {α β : Type} {K : Interpreter → Interpreter → Prop} {cont : Value} {d : Nat} {compile : CompileRule}

/-! ## Closing a block -/

/-- The heap after calls have become tail calls. -/
def Heap.tapAll (h : Heap) (qs : List PairId) : Heap := qs.foldl Heap.tapped h

/-- The interpreter after calls have become tail calls. -/
def Interpreter.tapAll (s : Interpreter) (qs : List PairId) : Interpreter :=
  { s with image.heap := s.image.heap.tapAll qs }

namespace Scopes

/-- The calls that become tail calls when a block is closed, of those that wait for it. -/
def ripe (c : Scopes) (captured : Bool) (indices : List Nat) : List PairId :=
  indices.filterMap fun j => (c.pendingTails[j]?).bind fun p =>
    if p.openScopes - 1 = 0 ∧ (p.blocked || captured) = false then some p.pair else none

/-- The scopes after calls wait for one block less. -/
def released (c : Scopes) (captured : Bool) (indices : List Nat) : Scopes :=
  { c with pendingTails := indices.foldl (fun a j => a.modify j (·.close captured)) c.pendingTails }

variable {c : Scopes} {captured : Bool} {indices : List Nat} {i j : Nat}

/-- No call is forgotten. -/
theorem size_released : (c.released captured indices).pendingTails.size = c.pendingTails.size := by
  unfold released
  induction indices generalizing c with
  | nil => rfl
  | cons j indices ih =>
    have := ih (c := { c with pendingTails := c.pendingTails.modify j (·.close captured) })
    simpa using this

/-- Those that waited for the block wait for one less, and the others as before. -/
theorem getElem?_released (hnodup : indices.Nodup) :
    (c.released captured indices).pendingTails[i]? =
      if i ∈ indices then (c.pendingTails[i]?).map (·.close captured) else c.pendingTails[i]? := by
  unfold released
  induction indices generalizing c with
  | nil => simp
  | cons j indices ih =>
    obtain ⟨hj, hnodup⟩ := List.nodup_cons.1 hnodup
    have := ih (c := { c with pendingTails := c.pendingTails.modify j (·.close captured) }) hnodup
    simp only [List.foldl_cons] at this ⊢
    rw [this]
    by_cases heq : i = j
    · subst heq
      simp [hj, Array.getElem?_modify]
    · have hne : j ≠ i := Ne.symm heq
      simp [heq, hne, Array.getElem?_modify]

/-- One call after the other becomes ripe. -/
theorem ripe_cons : c.ripe captured (j :: indices) = c.ripe captured [j] ++ c.ripe captured indices :=
  List.filterMap_append (l := [j])

/-- Settling one call makes no difference to the others. -/
theorem ripe_released (hj : j ∉ indices) : (c.released captured [j]).ripe captured indices = c.ripe captured indices := by
  unfold ripe
  induction indices with
  | nil => rfl
  | cons i indices ih =>
    obtain ⟨hne, hj⟩ := not_or.1 (mt List.mem_cons.2 hj)
    rw [List.filterMap_cons, List.filterMap_cons, ih hj, getElem?_released (by simp),
      if_neg fun h => hne (List.mem_singleton.1 h).symm]

end Scopes

section

variable {s : Interpreter} {captured : Bool}

/-- Lets a call wait for one block less. -/
def settle (captured : Bool) (index : Nat) : LispM Unit := do
  modifyScopes fun c => { c with pendingTails := c.pendingTails.modify index (·.close captured) }
  if let some p := (← get).scopes.pendingTails[index]? then
    if p.openScopes = 0 ∧ ¬p.blocked then
      (modify (·.setCar p.pair (.op .tap)) : HeapM Unit)

/-- The interpreter after calls wait for one block less. -/
def Interpreter.settled (s : Interpreter) (captured : Bool) (indices : List Nat) : Interpreter :=
  (s.tapAll (s.scopes.ripe captured indices)).rescoped (·.released captured indices)

/-- What becomes of the scopes and of the heap, put together. -/
theorem leads_settle {index : Nat} {ok : Unit → Interpreter → Prop} {err : Failure → Interpreter → Prop} :
    Leads (settle captured index) s ok err ↔ ok () (s.settled captured [index]) := by
  unfold settle
  rw [leads_bind, leads_modifyScopes, leads_bind, leads_get]
  cases hp : s.scopes.pendingTails[index]? with
  | none => simp [Array.getElem?_modify, hp, Interpreter.settled, Scopes.ripe, Interpreter.tapAll, Heap.tapAll,
      Interpreter.rescoped, Scopes.released]
  | some p =>
    -- The call is ripe just if this was its last open scope and none of them was captured.
    have hripe : s.scopes.ripe captured [index] =
        if p.openScopes - 1 = 0 ∧ (p.blocked || captured) = false then [p.pair] else [] := by
      unfold Scopes.ripe
      rw [List.filterMap_cons, hp, Option.bind_some]
      by_cases h : p.openScopes - 1 = 0 ∧ (p.blocked || captured) = false
      · rw [if_pos h, if_pos h]
        rfl
      · rw [if_neg h, if_neg h]
        rfl
    simp only [Array.getElem?_modify, hp, if_true, Option.map_some, PendingTail.close, Interpreter.settled, hripe,
      Bool.not_eq_true]
    split
    · exact Iff.rfl
    · exact Iff.rfl

/-- Settling several calls is settling one and then the others. -/
theorem Interpreter.settled_cons {index : Nat} {indices : List Nat} (hindex : index ∉ indices) :
    s.settled captured (index :: indices) = (s.settled captured [index]).settled captured indices := by
  have hripe : (s.settled captured [index]).scopes.ripe captured indices = s.scopes.ripe captured indices :=
    Scopes.ripe_released hindex
  unfold settled at hripe ⊢
  rw [hripe, Scopes.ripe_cons]
  simp [tapAll, Heap.tapAll, rescoped, Scopes.released]

/-- The settlement of the calls that wait for a block. -/
theorem leads_forM_settle {ok : Unit → Interpreter → Prop} {err : Failure → Interpreter → Prop} :
    ∀ {indices : List Nat} {s : Interpreter}, indices.Nodup →
      (Leads (indices.forM (settle captured)) s ok err ↔ ok () (s.settled captured indices))
  | [], s, _ => Iff.rfl
  | index :: indices, s, hnodup => by
    obtain ⟨hindex, hnodup⟩ := List.nodup_cons.1 hnodup
    have hrest : Leads (indices.forM (settle captured)) (s.settled captured [index]) ok err ↔
        ok () ((s.settled captured [index]).settled captured indices) := leads_forM_settle hnodup
    rw [Interpreter.settled_cons hindex, ← hrest]
    exact (leads_bind _).trans leads_settle

end

/-- The calls are settled from the oldest to the latest. -/
theorem closeBlock_eq : closeBlock = (do
    let scopes := (← get).scopes
    if let block :: blocks := scopes.blocks then
      modifyScopes fun c => { c with blocks }
      block.tailCalls.reverse.forM (settle block.captured)) := rfl

/-- The block is taken away, and its calls are settled. -/
theorem leads_closeBlock {s : Interpreter} {b : BlockScope} {bs : List BlockScope}
    (hblocks : s.scopes.blocks = b :: bs) (hnodup : b.tailCalls.Nodup) {ok : Unit → Interpreter → Prop}
    {err : Failure → Interpreter → Prop} :
    Leads closeBlock s ok err ↔
      ok () ((s.rescoped fun c => { c with blocks := bs }).settled b.captured b.tailCalls.reverse) := by
  rw [closeBlock_eq, leads_bind, leads_get]
  simp only [hblocks]
  rw [leads_bind, leads_modifyScopes]
  exact leads_forM_settle (List.nodup_reverse.2 hnodup)

/-! ## What is noted of the blocks around -/

section

variable {s s' : Interpreter} {k : Nat} {rs : List (Value × Nat)} {ts : List (PairId × Bool)} {q : PairId}

/-- A tail call is a call, too. -/
theorem Heap.IsCall.tapped {h : Heap} {p : PairId} (hp : h.IsCall p) (hq : h.IsCall q) : (h.tapped q).IsCall p := by
  by_cases heq : p = q
  · subst heq
    exact .inr (car_tapped hp)
  · unfold IsCall
    rwa [car_tapped_of_ne h heq]

/-- A new call may become a tail call. -/
theorem Records.tapped (hK : Lasting K) (hr : Records K k rs ts s s') (hs : s.Bodied) {blocked : Bool}
    (hq : (q, blocked) ∈ ts) : Records K k rs ts s (s'.tapped q) :=
  have hcall := (hr.calls _ hq).2
  { hr with
    lasting := hK.tapped hr.lasting (hr.calls _ hq).1 hcall (hr.unentered hs hq)
    keeps :=
      { pairCount := (Heap.pairCount_tapped s'.image.heap q).symm ▸ hr.keeps.pairCount
        car := fun p hp hcode =>
          (Heap.car_tapped_of_ne _ fun (heq : p = q) => Nat.not_lt.2 (hr.calls _ hq).1 (by rwa [heq] at hp)).trans
            (hr.keeps.car p hp hcode)
        cdr := hr.keeps.cdr }
    functions := ⟨hr.functions.size, hr.functions.code⟩
    calls := fun t ht => ⟨(hr.calls t ht).1, (hr.calls t ht).2.tapped hcall⟩
    bodies := fun f hf hf' =>
      have ⟨lo, hi, g, hb, hlo, hhi, hts⟩ := hr.bodies f hf hf'
      ⟨lo, hi, g, Image.Whole.tapped hb hcall (hts _ hq), hlo, (Heap.pairCount_tapped s'.image.heap q).symm ▸ hhi, hts⟩ }

/-- So may several of them. -/
theorem Records.tapAll (hK : Lasting K) (hs : s.Bodied) {qs : List PairId} (hr : Records K k rs ts s s')
    (hqs : ∀ q ∈ qs, ∃ blocked, (q, blocked) ∈ ts) : Records K k rs ts s (s'.tapAll qs) := by
  induction qs generalizing s' with
  | nil => exact hr
  | cons q qs ih =>
    obtain ⟨blocked, hq⟩ := hqs q List.mem_cons_self
    exact ih (hr.tapped hK hs hq) fun q hq => hqs q (List.mem_cons_of_mem _ hq)

/-- The scopes with one more block. -/
def Scopes.enterBlock (name : Value) (c : Scopes) : Scopes :=
  { c with blocks := { name, functionDepth := c.functionDepth } :: c.blocks }

/-- The innermost block and those around after what has been noted in it. -/
theorem noted_block {c : Scopes} {name : Value} {k n : Nat} {indices : List Nat}
    (hk : k = n + 1 ∨ indices = []) :
    noteTails k indices (noteReturns c.functionDepth rs (c.enterBlock name).blocks) =
      { name, functionDepth := c.functionDepth, captured := isCaptured name rs, tailCalls := indices } ::
        noteTails n indices (noteReturns c.functionDepth (rs.filter (·.1 ≠ name)) c.blocks) := by
  rcases hk with rfl | rfl
  · rw [Scopes.enterBlock, noteReturns, noteTails_succ]
    simp [isCaptured]
  · rw [noteTails_nil, noteTails_nil, Scopes.enterBlock, noteReturns]
    simp [isCaptured]

/-- The scopes after the innermost block, in which the calls that wait for it wait for one block
    less. -/
def Scopes.leaveBlock (b : BlockScope) (bs : List BlockScope) (c : Scopes) : Scopes :=
  ({ c with blocks := bs } : Scopes).released b.captured b.tailCalls.reverse

/-- Leaving a block closes the calls that it holds. -/
theorem Scopes.getElem?_leaveBlock {c : Scopes} {b : BlockScope} (hnodup : b.tailCalls.Nodup) (bs : List BlockScope)
    (j : Nat) : (c.leaveBlock b bs).pendingTails[j]? =
      if j ∈ b.tailCalls then (c.pendingTails[j]?).map (·.close b.captured) else c.pendingTails[j]? := by
  have h := @Scopes.getElem?_released { c with blocks := bs } b.captured _ j (List.nodup_reverse.2 hnodup)
  unfold Scopes.leaveBlock
  simpa only [List.mem_reverse] using h

/-- What has been noted inside of a block. -/
theorem Records.noted {name : Value} {n : Nat}
    (hr : Records K k rs ts (s.rescoped (·.enterBlock name)) s') (hk : k = n + 1 ∨ ts = []) :
    ∃ b bs, s'.scopes.blocks = b :: bs ∧ b.tailCalls.Nodup ∧ b.captured = isCaptured name rs ∧
      (∀ p, p ∈ b.tailCalls.map (s'.scopes.pendingTails[·]?) ↔ ∃ t ∈ ts, some ⟨t.1, k, t.2⟩ = p) := by
  obtain ⟨indices, hblocks, hnodup, -, hmap, -⟩ := hr.blocks
  have hk' : k = n + 1 ∨ indices = [] := hk.imp_right fun h => by simpa [h] using hmap
  refine ⟨_, _, hblocks.trans (noted_block hk'), hnodup, rfl, fun p => ?_⟩
  rw [hmap, List.mem_map]

/-- What has been noted inside of a block has been noted of the blocks around. -/
theorem Records.leave (hK : Lasting K) {name : Value} {n : Nat} {b : BlockScope} {bs : List BlockScope}
    (hr : Records K k rs ts (s.rescoped (·.enterBlock name)) s') (hk : k = n + 1 ∨ ts = [])
    (hb : s'.scopes.blocks = b :: bs) :
    Records K n (rs.filter (·.1 ≠ name)) (ts.map fun t => (t.1, t.2 || isCaptured name rs)) s
      (s'.rescoped (·.leaveBlock b bs)) := by
  obtain ⟨indices, hblocks, hnodup, hge, hmap, hclosed⟩ := hr.blocks
  have hk' : k = n + 1 ∨ indices = [] := hk.imp_right fun h => by simpa [h] using hmap
  obtain ⟨hbeq, hbs⟩ := List.cons.inj (hb.symm.trans (hblocks.trans (noted_block hk')))
  have htailCalls : b.tailCalls = indices := by rw [hbeq]
  have hcaptured : b.captured = isCaptured name rs := by rw [hbeq]
  -- Leaving the block changes the pending calls inside, and no others.
  have hreleased (j : Nat) : (s'.scopes.leaveBlock b bs).pendingTails[j]? =
      if j ∈ indices then (s'.scopes.pendingTails[j]?).map (·.close (isCaptured name rs))
      else s'.scopes.pendingTails[j]? := by
    have h := @Scopes.getElem?_leaveBlock s'.scopes b (htailCalls ▸ hnodup) bs j
    rwa [htailCalls, hcaptured] at h
  have hsize : (s'.scopes.leaveBlock b bs).pendingTails.size = s'.scopes.pendingTails.size := Scopes.size_released
  exact
    { lasting := hK.trans (hK.trans (hK.rescoped s _) hr.lasting) (hK.rescoped s' _)
      keeps := hr.keeps
      functions := hr.functions
      tagbodies := hr.tagbodies
      depth := hr.depth
      size := hsize ▸ hr.size
      earlier := fun j hj =>
        ((hreleased j).trans (if_neg fun hmem => Nat.not_lt.2 (hge j hmem) hj)).trans (hr.earlier j hj)
      blocks := by
        refine ⟨indices, hbs, hnodup, hge, ?_, fun j p hj hp hmem => ?_⟩
        · -- each call that was pending inside waits for one block less, and is blocked if this one is captured
          have hmapped : indices.map ((s'.scopes.leaveBlock b bs).pendingTails[·]?) =
              (indices.map (s'.scopes.pendingTails[·]?)).map (Option.map (·.close (isCaptured name rs))) := by
            rw [List.map_map]
            exact List.map_congr_left fun j hj => (hreleased j).trans (if_pos hj)
          refine hmapped.trans ?_
          rw [hmap, List.map_map, List.map_map]
          refine List.map_congr_left fun t ht => ?_
          obtain rfl : k = n + 1 := hk.resolve_right (List.ne_nil_of_mem ht)
          rfl
        · exact hclosed j p hj ((if_neg hmem ▸ hreleased j).symm.trans hp) hmem
      calls := fun t ht => by
        obtain ⟨t', ht', rfl⟩ := List.mem_map.1 ht
        exact hr.calls t' ht'
      bodies := fun f hf hf' => by
        obtain ⟨lo, hi, g, hbody, hlo, hhi, hts⟩ := hr.bodies f hf hf'
        refine ⟨lo, hi, g, hbody, hlo, hhi, fun t ht => ?_⟩
        obtain ⟨t', ht', rfl⟩ := List.mem_map.1 ht
        exact hts t' ht' }

/-- What has been noted inside of a block, when the block is closed. -/
theorem Records.close (hK : Lasting K) (hs : s.Bodied) {name : Value} {n : Nat}
    (hr : Records K k rs ts (s.rescoped (·.enterBlock name)) s') (hk : k = n + 1 ∨ ts = []) :
    Leads closeBlock s'
      (fun _ s'' => Records K n (rs.filter (·.1 ≠ name)) (ts.map fun t => (t.1, t.2 || isCaptured name rs)) s s'' ∧
        ∃ qs, s''.image = (s'.tapAll qs).image ∧
          ∀ q, q ∈ qs ↔ n = 0 ∧ ∃ blocked, (q, blocked) ∈ ts ∧ (blocked || isCaptured name rs) = false)
      fun _ _ => False := by
  obtain ⟨b, bs, hb, hnodup, hcaptured, hnoted⟩ := hr.noted hk
  refine (leads_closeBlock hb hnodup).2 ?_
  obtain ⟨qs, hqs⟩ : ∃ qs, qs = s'.scopes.ripe b.captured b.tailCalls.reverse := ⟨_, rfl⟩
  have hmem (q : PairId) :
      q ∈ qs ↔ n = 0 ∧ ∃ blocked, (q, blocked) ∈ ts ∧ (blocked || isCaptured name rs) = false := by
    rw [hqs, Scopes.ripe, hcaptured, List.mem_filterMap]
    constructor
    · rintro ⟨j, hj, heq⟩
      obtain ⟨t, ht, hp⟩ := (hnoted _).1 (List.mem_map_of_mem (List.mem_reverse.1 hj))
      simp only [← hp, Option.bind_some, Option.ite_none_right_eq_some, Option.some.injEq] at heq
      obtain ⟨⟨hopen, hblocked⟩, rfl⟩ := heq
      obtain rfl : k = n + 1 := hk.resolve_right (List.ne_nil_of_mem ht)
      exact ⟨hopen, t.2, ht, hblocked⟩
    · rintro ⟨rfl, blocked, ht, hblocked⟩
      obtain ⟨j, hj, hp⟩ := List.mem_map.1 ((hnoted _).2 ⟨_, ht, rfl⟩)
      obtain rfl : k = 1 := hk.resolve_right (List.ne_nil_of_mem ht)
      refine ⟨j, List.mem_reverse.2 hj, ?_⟩
      rw [hp, Option.bind_some, if_pos ⟨rfl, hblocked⟩]
  have hs' : (s.rescoped (·.enterBlock name)).Bodied := hs
  -- only calls that have been pending in this block become tail calls
  have hr' : Records K k rs ts (s.rescoped (·.enterBlock name)) (s'.tapAll qs) := hr.tapAll hK hs' fun q hq => by
    obtain ⟨-, blocked, hq, -⟩ := (hmem q).1 hq
    exact ⟨blocked, hq⟩
  have hend : (s'.rescoped fun c => { c with blocks := bs }).settled b.captured b.tailCalls.reverse =
      (s'.tapAll qs).rescoped (·.leaveBlock b bs) := by
    rw [hqs]
    rfl
  rw [hend]
  exact ⟨hr'.leave hK hk hb, qs, rfl, hmem⟩

end

/-! ## The code of a block -/

namespace Heap

variable {h : Heap} {qs : List PairId} {p : PairId}

/-- No pair is made. -/
theorem pairCount_tapAll : (h.tapAll qs).pairCount = h.pairCount := by
  induction qs generalizing h with
  | nil => rfl
  | cons q qs ih => exact ih.trans (pairCount_tapped h q)

/-- The heads of other pairs are as before. -/
theorem car_tapAll_of_not_mem (hp : p ∉ qs) : (h.tapAll qs).car p = h.car p := by
  induction qs generalizing h with
  | nil => rfl
  | cons q qs ih =>
    obtain ⟨hne, hp⟩ := not_or.1 (mt List.mem_cons.2 hp)
    exact (ih hp).trans (car_tapped_of_ne h hne)

/-- Those of the calls are opcodes of tail calls. -/
theorem car_tapAll (hp : p ∈ qs) (hqs : ∀ q ∈ qs, h.IsCall q) : (h.tapAll qs).car p = .op .tap := by
  induction qs generalizing h with
  | nil => cases hp
  | cons q qs ih =>
    have hq := hqs q List.mem_cons_self
    by_cases hmem : p ∈ qs
    · exact ih hmem fun q' hq' => (hqs q' (List.mem_cons_of_mem _ hq')).tapped hq
    · obtain rfl := (List.mem_cons.1 hp).resolve_right hmem
      exact (car_tapAll_of_not_mem hmem).trans (car_tapped hq)

end Heap

/-- The image after calls have become tail calls. -/
def Image.tapAll (image : Image) (qs : List PairId) : Image := { image with heap := image.heap.tapAll qs }

section

variable {image : Image} {lo hi : Nat} {g : Piece} {entries : List (Value × Value)} {k : Value} {qs : List PairId}

/-- A piece stays one when some of its calls become tail calls, because it does not say which kind
    they are. -/
theorem Image.Emits.tapAll (he : image.Emits lo hi entries g cont k) (hg : g.Decided image.heap)
    (hqs : ∀ q ∈ qs, ∃ blocked, (q, blocked) ∈ g.tails) :
    (image.tapAll qs).Emits lo hi entries g cont k ∧ g.Decided (image.heap.tapAll qs) := by
  induction qs generalizing image with
  | nil => exact ⟨he, hg⟩
  | cons q qs ih =>
    obtain ⟨blocked, hq⟩ := hqs q List.mem_cons_self
    have hmem := Piece.mem_calls_of_tails hq
    exact ih (he.tapped (he.isCall hmem).1 (.inl hmem)) (he.decided_tapped hg (.inl ⟨blocked, hq⟩)) fun q hq =>
      hqs q (List.mem_cons_of_mem _ hq)

/-- The body of a block, when the block is closed. -/
theorem Image.Makes.close {name : Value} {names : List Value} {ending : Ending}
    (hm : image.Makes lo hi (name :: names) ending cont g k)
    (hqs : ∀ q, q ∈ qs ↔ ending.waits names = 0 ∧ ∃ blocked,
      (q, blocked) ∈ g.pending (ending.waits (name :: names)) ∧ (blocked || isCaptured name g.returns) = false) :
    (image.tapAll qs).Emits lo hi [] g cont k ∧ g.Decided (image.heap.tapAll qs) ∧
      (Piece.block name g).Settled (image.heap.tapAll qs) names ending := by
  have hmem (q : PairId) (hq : q ∈ qs) : ∃ blocked, (q, blocked) ∈ g.tails := by
    obtain ⟨-, blocked, hpending, -⟩ := (hqs q).1 hq
    unfold Piece.pending at hpending
    split at hpending
    · exact ⟨blocked, hpending⟩
    · cases hpending
  obtain ⟨he, hg⟩ := hm.emits.tapAll hm.decided hmem
  refine ⟨he, hg, ?_⟩
  -- inside of the block no call in tail position has been decided yet
  have hordinary : g.Ordinary image.heap := by
    have := hm.settled
    rwa [Piece.Settled, if_neg (by simp)] at this
  have hcall (q : PairId) (hq : q ∈ qs) : image.heap.IsCall q :=
    (hm.emits.isCall (Piece.mem_calls_of_tails (hmem q hq).choose_spec)).1
  unfold Piece.Settled
  split
  · next h =>
    obtain ⟨rfl, rfl⟩ := h
    intro t ht
    obtain ⟨t', ht', rfl⟩ := List.mem_map.1 ht
    dsimp only
    split
    · -- a call that leaves a captured block
      next hblocked =>
      refine (Heap.car_tapAll_of_not_mem fun hq => ?_).trans (hordinary t' ht')
      obtain ⟨-, blocked, hpending, hfree⟩ := (hqs _).1 hq
      rw [hm.emits.tails_unique hpending ht'] at hfree
      exact Bool.noConfusion (hfree.symm.trans hblocked)
    · next hfree =>
      exact Heap.car_tapAll ((hqs _).2 ⟨rfl, t'.2, ht', Bool.eq_false_iff.2 hfree⟩) hcall
  · next h =>
    intro t ht
    obtain ⟨t', ht', rfl⟩ := List.mem_map.1 ht
    refine (Heap.car_tapAll_of_not_mem fun hq => ?_).trans (hordinary t' ht')
    obtain ⟨hwaits, blocked, hpending, -⟩ := (hqs _).1 hq
    cases ending with
    | rtn => exact h ⟨rfl, List.length_eq_zero_iff.1 hwaits⟩
    | elsewhere | stop => cases hpending

end

/-- The calls of a block are read as before where its code is kept. -/
theorem Image.Emits.settled_block {image image' : Image} {lo hi : Nat} {g : Piece} {k name : Value}
    {names : List Value} {ending : Ending} (he : image.Emits lo hi [] g cont k)
    (hg : (Piece.block name g).Settled image.heap names ending) (hkeeps : image.heap.KeepsCode image'.heap) :
    (Piece.block name g).Settled image'.heap names ending := by
  have hcar (t : PairId × Bool) (ht : t ∈ (Piece.block name g).tails) :
      image'.heap.car t.1 = image.heap.car t.1 := by
    obtain ⟨t', ht', rfl⟩ := List.mem_map.1 ht
    exact he.car_call (Piece.mem_calls_of_tails ht') hkeeps
  unfold Piece.Settled at *
  split
  · next h =>
    rw [if_pos h] at hg
    exact fun t ht => (hcar t ht).trans (hg t ht)
  · next h =>
    rw [if_neg h] at hg
    exact fun t ht => (hcar t ht).trans (hg t ht)

/-- A block that has been closed. -/
theorem Image.Makes.block {image : Image} {lo m hi : Nat} {name : Value} {names : List Value} {ending : Ending}
    {body : Piece} {last id : PairId} {k : Value} (ends : image.heap.Placed lo last .blockend [name] cont)
    (inside : image.Emits (last.index + 1) m [] body (.pair last) k) (decided : body.Decided image.heap)
    (settled : (Piece.block name body).Settled image.heap names ending)
    (placed : image.heap.Placed m id .block [name] k) (below : id.index < hi) :
    image.Makes lo hi names ending cont (.block name body) (.pair id) :=
  ⟨.block ends inside placed below, rfl, decided, settled⟩

/-- The calls of a block that wait for blocks around it are those of its body, blocked also if the
    block itself is captured. -/
theorem Piece.pending_block {name : Value} {names : List Value} {ending : Ending} {body : Piece} :
    (Piece.block name body).pending (ending.waits names) =
      if ending.waits names = 0 then []
      else (body.pending (ending.waits (name :: names))).map fun t => (t.1, t.2 || isCaptured name body.returns) := by
  cases ending <;> simp [Piece.pending, Ending.waits, Piece.tails, Piece.captures, Nat.pos_iff_ne_zero]

/-- The end of the block comes first, the body in front of it, and when the block is closed the
    instruction that enters it. -/
theorem codes_compileBlock (hK : Lasting K) (hc : Tracks K compile) (args : Value) (env : LexicalEnv) :
    Codes K 0 (compileBlock compile args env cont) cont := by
  refine .after hK (preserves_query hK _) fun name => ?_
  refine .after hK (preserves_quiet hK (quiet_checkBlockName ..)) fun _ => ?_
  refine .after hK (preserves_query hK _) fun body => ?_
  intro s names ending ho
  refine (leads_emit_since hK (.refl hK s) rfl).bind ?_
  rintro _ s₁ ⟨hr₁, last, rfl, hplaced, hlt⟩
  have ho₁ : (s₁.rescoped (·.enterBlock name)).Open (.pair last) (name :: names) ending :=
    ⟨⟨hr₁.bodied ho.bodied, (hr₁.counted ho.counted).cons rfl⟩, .blockend hplaced.instr (ho.ends.keeps hr₁.keeps),
      List.cons_prefix_cons.2 ⟨rfl, hr₁.names ▸ ho.names⟩⟩
  have hs₁ : s₁.Bodied := hr₁.bodied ho.bodied
  unfold compileInBlock
  rw [bind_assoc, leads_bind, leads_modifyScopes, bind_assoc, leads_bind, leads_attempt]
  refine (codes_compileBody hK hc body env ho₁).mono ?_ ?_
  · rintro c s₂ ⟨g, hm, hr₂⟩
    rw [Piece.returnsUnder_zero] at hr₂
    -- calls that are pending inside wait for this block and for those that they waited for outside
    have hk : ending.waits (name :: names) = ending.waits names + 1 ∨ g.pending (ending.waits (name :: names)) = [] := by
      cases ending <;> simp [Ending.waits, Piece.pending]
    rw [bind_assoc]
    refine ((hr₂.close hK hs₁ hk).mono (fun _ _ h => h) fun _ _ h => h.elim).bind ?_
    rintro _ s₃ ⟨hr₃, qs, himage, hqs⟩
    obtain ⟨inside, decided, settled⟩ := hm.close hqs
    have hplaced₃ : s₃.image.heap.Placed s.pairCount last .blockend [name] cont := hplaced.keeps hr₃.keeps
    have hcount : s₃.pairCount = s₂.pairCount := by
      unfold Interpreter.pairCount
      rw [himage]
      exact Heap.pairCount_tapAll ..
    -- the calls that have become tail calls are the only difference between the two heaps
    rw [show (s₂.tapAll qs).image = s₂.image.tapAll qs from rfl] at himage
    rw [← himage] at inside
    rw [show s₂.image.heap.tapAll qs = s₃.image.heap by rw [himage]; rfl] at decided settled
    have hr : Records K (ending.waits names) _ _ s s₃ := hr₁.any.trans hK hr₃
    refine (leads_emit_since hK hr rfl).mono ?_ fun _ _ h => h
    rintro _ s₄ ⟨hr₄, id, rfl, hblock, hbelow⟩
    refine ⟨_, .block (hplaced₃.keeps hr₄.keeps)
      ((inside.keeps hr₄.keeps hr₄.functions).mono hlt (Nat.le_of_eq hcount.symm))
      (inside.decided_keeps decided hr₄.keeps) ?_ hblock hbelow, ?_⟩
    · exact inside.settled_block settled hr₄.keeps
    · have hr' := hr.trans hK hr₄.any
      rw [List.nil_append, List.append_nil, List.append_nil, List.nil_append] at hr'
      rw [Piece.returnsUnder_zero, Piece.pending_block]
      split
      · next hn => exact Records.waitless (hn ▸ hr')
      · exact hr'
  · rintro e s₂ ⟨rs, ts, hr₂⟩
    -- the block is closed also after a failure; no call can wait for it unless it ends in a return
    obtain ⟨ts, hr₂, hk⟩ : ∃ ts, Records K (ending.waits (name :: names)) rs ts (s₁.rescoped (·.enterBlock name)) s₂ ∧
        (ending.waits (name :: names) = ending.waits names + 1 ∨ ts = []) := by
      cases ending with
      | rtn => exact ⟨ts, hr₂, .inl rfl⟩
      | elsewhere | stop => exact ⟨[], hr₂.waitless, .inr rfl⟩
    rw [bind_assoc]
    refine ((hr₂.close hK hs₁ hk).mono (fun _ _ h => h) fun _ _ h => h.elim).bind ?_
    rintro _ s₃ ⟨hr₃, -⟩
    exact ⟨_, _, hr₁.any.trans hK hr₃⟩

end StackLisp
