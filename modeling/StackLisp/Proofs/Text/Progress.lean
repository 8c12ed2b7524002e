import StackLisp.Proofs.Actions.Steady
import StackLisp.Proofs.Text.Word

/-!
# Reading makes progress

Reading a form always comes to an end, whatever the text and whatever the heap holds: in a
value, with some of the text behind it, or in an error. And where in a text a reader stands
matters only for the offsets of errors: one that stands further on, but sees the same text
ahead, reads the same form in the same way. Both are shown together (`alongside_read`), for
two readers with different bounds on their nested calls.

* A form that is read goes past at least one character, so the nested calls for a text are
  at most two for every character and one more.
* The pairs of a form are made from the ends of its lists, so each pair only refers to
  earlier ones (`Heap.BuiltUp`). There are no circles among them, whatever circles the heap
  had before, and so the expansion of a template ends (`alongside_expand`).
-/

namespace StackLisp

open Interpreter

variable {α β σ : Type}

/-! ## Two actions side by side -/

/-- The failure, with the offset of an error in a text moved on by `d` bytes. -/
def Failure.shift (d : Nat) : Failure → Failure
  | .error (.read (.malformed fault offset)) => .error (.read (.malformed fault (offset + d)))
  | e => e

/-- The outcome, with its state moved and the offset of its error moved on. -/
def shiftResult (d : Nat) (move : σ → σ) : EStateM.Result Failure σ α → EStateM.Result Failure σ α
  | .ok a s => .ok a (move s)
  | .error e s => .error (e.shift d) (move s)

/-- The action `x` does not fail to end, and changes the state as `R` allows. Started in the
    state that is moved, `y` ends in the same way, with offsets moved on by `d` bytes. -/
structure Alongside (R : σ → σ → Prop) (d : Nat) (move : σ → σ) (x y : EStateM Failure σ α) (s : σ)
    (P : α → σ → Prop) : Prop where
  leads : Leads x s (fun a s' => R s s' ∧ P a s') fun e _ => e ≠ .endless
  shifted : y (move s) = shiftResult d move (x s)

section

variable {R : σ → σ → Prop} {d : Nat} {move : σ → σ} {x y : EStateM Failure σ α} {s : σ}
  {P Q : α → σ → Prop}

/-- Less may be said of the result. -/
theorem Alongside.mono (h : Alongside R d move x y s P) (hP : ∀ a s', R s s' → P a s' → Q a s') :
    Alongside R d move x y s Q :=
  ⟨Leads.mono h.leads (fun a s' ha => ⟨ha.1, hP a s' ha.1 ha.2⟩) fun _ _ he => he, h.shifted⟩

theorem alongside_pure {a : α} (hR : R s s) (ha : P a s) :
    Alongside R d move (pure a) (pure a) s P := ⟨⟨hR, ha⟩, rfl⟩

theorem alongside_throw {e : Failure} (he : e ≠ .endless) :
    Alongside R d move (throw e) (throw (e.shift d)) s P := ⟨he, rfl⟩

/-- Both sides look at the state, which is moved for the second one. -/
theorem alongside_get_bind {f g : σ → EStateM Failure σ β} {Q : β → σ → Prop}
    (h : Alongside R d move (f s) (g (move s)) s Q) :
    Alongside R d move (get >>= f) (get >>= g) s Q := ⟨h.leads, h.shifted⟩

/-- One action after the other, on both sides. What the second one starts with is what the first one
    has left, moved as well. -/
theorem Alongside.bind [IsTrans σ R] {f g : α → EStateM Failure σ β} {Q : β → σ → Prop}
    (hx : Alongside R d move x y s P)
    (hf : ∀ a s', R s s' → P a s' → Alongside R d move (f a) (g a) s' Q) :
    Alongside R d move (x >>= f) (y >>= g) s Q := by
  obtain ⟨hleads, hshifted⟩ := hx
  unfold Leads at hleads
  -- A failure of the first part is that of the whole, and the moved run fails alike.
  cases heq : x s with
  | ok a s' =>
    rw [heq] at hleads hshifted
    obtain ⟨hR, hP⟩ := hleads
    obtain ⟨hleads', hshifted'⟩ := hf a s' hR hP
    refine ⟨?_, ?_⟩
    · rw [leads_bind, leads_of_ok heq]
      exact hleads'.mono (fun b s'' hb => ⟨IsTrans.trans _ _ _ hR hb.1, hb.2⟩) fun _ _ he => he
    · simp only [Bind.bind, EStateM.bind, heq, hshifted]
      exact hshifted'
  | error e s' =>
    rw [heq] at hleads hshifted
    refine ⟨?_, ?_⟩
    · rw [leads_bind, leads_of_error heq]
      exact hleads
    · simp only [Bind.bind, EStateM.bind, heq, hshifted]
      rfl

end

/-! ## Pairs that refer to earlier ones -/

/-- The value is no pair, or a pair in a range of positions. -/
def Value.Between (first last : Nat) (v : Value) : Prop :=
  ∀ id, v = .pair id → first ≤ id.index ∧ id.index < last

/-- The range may be extended at its end. -/
theorem Value.Between.mono {n m k : Nat} {v : Value} (hv : v.Between n m) (hk : m ≤ k) :
    v.Between n k :=
  fun id hid => ⟨(hv id hid).1, Nat.lt_of_lt_of_le (hv id hid).2 hk⟩

theorem Value.between_of_not_pair {n m : Nat} {v : Value} (hv : v.isPair = false) :
    v.Between n m := by
  rintro id rfl
  cases hv

namespace Heap

/-- From position `n` on, the components of every pair are no pairs or earlier ones. -/
structure BuiltUp (n : Nat) (h : Heap) : Prop where
  start : n ≤ h.pairCount
  components : ∀ id : PairId, n ≤ id.index → id.index < h.pairCount →
    (h.car id).Between n id.index ∧ (h.cdr id).Between n id.index

/-- The value is no pair, or one made at position `n` or later. -/
abbrev Made (n : Nat) (h : Heap) (v : Value) : Prop := v.Between n h.pairCount

/-- Pairs have been added that refer to earlier ones from position `n` on. -/
structure BuildsOn (n : Nat) (h h' : Heap) : Prop where
  builtUp : h'.BuiltUp n
  extended : h.Extended h'

instance (n : Nat) : IsTrans Heap (BuildsOn n) :=
  ⟨fun _ _ _ e e' => ⟨e'.builtUp, e.extended.trans e'.extended⟩⟩

end Heap

open Heap

/-- The action adds such pairs, and fails for want of room only. -/
abbrev Builds (n : Nat) (h : Heap) (x : HeapM α) (P : α → Heap → Prop) : Prop :=
  Leads x h (fun a h' => BuildsOn n h h' ∧ P a h') fun e _ => e = .error .heapOverflow

section

variable {n d : Nat} {h h' : Heap} {x : HeapM α} {P : α → Heap → Prop} {v w : Value}

theorem Heap.BuiltUp.refl (hh : h.BuiltUp n) : BuildsOn n h h := ⟨hh, .refl h⟩

/-- Pairs that were made stay where they are. -/
theorem Heap.BuildsOn.made (e : BuildsOn n h h') (hv : h.Made n v) : h'.Made n v :=
  hv.mono e.extended.pairCount

/-- Such an action does the same wherever the reader stands in a text. -/
theorem Builds.alongside (hx : Builds n h x P) : Alongside (BuildsOn n) d id x x h P := by
  refine ⟨Leads.mono hx (fun _ _ ha => ha) fun e _ he => he ▸ nofun, ?_⟩
  unfold Builds Leads at hx
  rw [id_eq]
  cases heq : x h with
  | ok a h' => rfl
  | error e h' =>
    rw [heq] at hx
    subst hx
    rfl

/-- What is built on twice is built on. -/
theorem Builds.bind {f : α → HeapM β} {Q : β → Heap → Prop} (hx : Builds n h x P)
    (hf : ∀ a h', BuildsOn n h h' → P a h' → Builds n h' (f a) Q) : Builds n h (x >>= f) Q := by
  refine (leads_bind f).2 (Leads.mono hx (fun a h₁ ha => ?_) fun _ _ he => he)
  exact (hf a h₁ ha.1 ha.2).mono (fun b h₂ hb => ⟨IsTrans.trans _ _ _ ha.1 hb.1, hb.2⟩)
    fun _ _ he => he

/-- The new pair refers to values that were made before it. -/
theorem builds_cons (hh : h.BuiltUp n) (hv : h.Made n v) (hw : h.Made n w) :
    Builds n h (Heap.cons v w) fun x h' => h'.Made n x := by
  unfold Builds
  rw [leads_cons_iff]
  split
  · have hcount : (h.push v w).pairCount = h.pairCount + 1 := by simp [Heap.pairCount, Heap.push]
    have he := h.extended_push v w
    refine ⟨⟨⟨Nat.le_trans hh.start he.pairCount, fun id hid hlt => ?_⟩, he⟩, ?_⟩
    -- A pair is an old one, whose parts are unchanged, or the one that is made.
    · rcases Nat.lt_or_ge id.index h.pairCount with hold | hnew
      · rw [he.car id hold, he.cdr id hold]
        exact hh.components id hid hold
      · obtain rfl : id = ⟨h.pairCount⟩ := by
          obtain ⟨i⟩ := id
          simp only [PairId.mk.injEq] at hnew hlt ⊢
          omega
        rw [Heap.car_push, Heap.cdr_push]
        exact ⟨hv, hw⟩
    · rintro id hid
      cases hid
      exact ⟨hh.start, hcount ▸ Nat.lt_succ_self _⟩
  · rfl

/-- By induction on the elements, from the end of the list. -/
theorem builds_listWithTail {vs : List Value} {tail : Value} (hh : h.BuiltUp n)
    (hvs : ∀ v ∈ vs, h.Made n v) (htail : h.Made n tail) :
    Builds n h (Heap.listWithTail vs tail) fun x h' => h'.Made n x := by
  refine Leads.foldrM ⟨hh.refl, htail⟩
    fun v rest x h₁ hsuffix (hinv : BuildsOn n h h₁ ∧ h₁.Made n x) => ?_
  obtain ⟨e₁, hx⟩ := hinv
  have hv : h₁.Made n v := e₁.made (hvs v (hsuffix.mem List.mem_cons_self))
  exact (builds_cons e₁.builtUp hv hx).mono
    (fun y h₂ hy => ⟨IsTrans.trans _ _ _ e₁ hy.1, hy.2⟩) fun _ _ he => he

theorem builds_list {vs : List Value} (hh : h.BuiltUp n) (hvs : ∀ v ∈ vs, h.Made n v) :
    Builds n h (Heap.list vs) fun x h' => h'.Made n x :=
  builds_listWithTail hh hvs (Value.between_of_not_pair rfl)

/-! ## Templates -/

/-- The parts of a pair that was made were made before. -/
theorem Heap.BuiltUp.onlyElement? (hh : h.BuiltUp n) (hv : h.Made n v)
    (hw : h.onlyElement? v = some w) : h.Made n w := by
  cases v with
  | pair id =>
    obtain ⟨hstart, hlt⟩ := hv id rfl
    simp only [Heap.onlyElement?] at hw
    split at hw <;> cases hw
    exact (hh.components id hstart hlt).1.mono (Nat.le_of_lt hlt)
  | _ => cases hw

/-- So was the form behind a marker. -/
theorem Heap.BuiltUp.marked? {marker : Option SymbolId} (hh : h.BuiltUp n) (hv : h.Made n v)
    (hw : Backquote.marked? h marker v = some w) : h.Made n w := by
  unfold Backquote.marked? at hw
  split at hw
  · next id =>
    obtain ⟨hstart, hlt⟩ := hv id rfl
    split at hw
    · split at hw
      · exact hh.onlyElement? ((hh.components id hstart hlt).2.mono (Nat.le_of_lt hlt)) hw
      · cases hw
    · cases hw
  · cases hw

/-- What was marked stays so when pairs are made. -/
theorem Heap.Extended.marked? {marker : Option SymbolId} (e : h.Extended h') (hh : h.BuiltUp n)
    (hv : h.Made n v) : Backquote.marked? h' marker v = Backquote.marked? h marker v := by
  cases marker with
  | none => rfl
  | some marker =>
    cases v with
    | pair id =>
      obtain ⟨hstart, hlt⟩ := hv id rfl
      -- The only element is read off pairs that were there before.
      have honly : h'.onlyElement? (h'.cdr id) = h.onlyElement? (h.cdr id) := by
        rw [e.cdr id hlt]
        cases hcdr : h.cdr id with
        | pair rest =>
          have hrest := ((hh.components id hstart hlt).2 rest hcdr).2
          simp only [Heap.onlyElement?, e.car rest (Nat.lt_trans hrest hlt),
            e.cdr rest (Nat.lt_trans hrest hlt)]
        | _ => rfl
      simp only [Backquote.marked?, e.car id hlt, honly]
    | _ => rfl

/-- The segments are put together from the last one on. -/
theorem builds_assemble {segments : List Segment} {tail : Value} (hh : h.BuiltUp n)
    (hs : ∀ x ∈ segments, h.Made n x.form) (htail : h.Made n tail) :
    Builds n h (Backquote.assemble segments tail) fun v h' => h'.Made n v := by
  -- Folding keeps what has been built up, if each step does.
  have hfold {f : Value → Segment → HeapM Value}
      (hf : ∀ x ∈ segments, ∀ v h', BuildsOn n h h' → h'.Made n v →
        Builds n h' (f v x) fun w h'' => h''.Made n w) {v : Value} (hv : h.Made n v) :
      Builds n h (segments.foldlM f v) fun w h' => h'.Made n w := by
    have hinv : BuildsOn n h h ∧ h.Made n v := ⟨hh.refl, hv⟩
    refine Leads.foldlM hinv ?_
    rintro x hx v h₁ (⟨e₁, hv⟩ : BuildsOn n h h₁ ∧ h₁.Made n v)
    exact (hf x hx v h₁ e₁ hv).mono (fun w h₂ hw => ⟨IsTrans.trans _ _ _ e₁ hw.1, hw.2⟩)
      fun _ _ he => he
  have hsymbol (h : Heap) (id : SymbolId) : h.Made n (.symbol id) := Value.between_of_not_pair rfl
  unfold Backquote.assemble
  split
  · refine (hfold (fun x hx v h₁ e₁ hv => ?_) (Value.between_of_not_pair rfl)).bind
      fun items h₁ e₁ hitems => builds_cons e₁.builtUp (hsymbol h₁ _) hitems
    exact builds_cons e₁.builtUp (e₁.made (hs x hx)) hv
  · refine hfold (fun x hx v h₁ e₁ hv => ?_) htail
    have hform : h₁.Made n x.form := e₁.made (hs x hx)
    have hlist (head : SymbolId) : Builds n h₁ (Heap.list [.symbol head, x.form, v])
        fun w h' => h'.Made n w :=
      builds_list e₁.builtUp (by simpa using ⟨hsymbol h₁ head, hform, hv⟩)
    -- An item goes in front by `cons`, and the items of a splice by `append`.
    cases x with
    | item form => exact hlist .cons
    | splice form =>
      change Builds n h₁ (if v.isNil then pure form else _) _
      split
      · exact ⟨e₁.builtUp.refl, hform⟩
      · exact hlist .append

/-- A pair has the rank of its position, counted from one. -/
def Value.rank : Value → Nat
  | .pair id => id.index + 1
  | _ => 0

/-- Earlier pairs have smaller ranks. -/
theorem Value.Between.rank_le {m : Nat} (hv : v.Between n m) : v.rank ≤ m := by
  cases v with
  | pair id => exact (hv id rfl).2
  | _ => exact Nat.zero_le _

theorem Value.rank_of_not_isPair {v : Value} (hv : v.isPair = false) : v.rank = 0 := by
  cases v with
  | pair id => cases hv
  | _ => rfl

/-- Expanding a template ends, and reports a misplaced splice where the reader stands. -/
def ExpandsAlong (b : Backquote) (n d fuel : Nat) : Prop :=
  ∀ (h : Heap) (v : Value), h.BuiltUp n → h.Made n v → 2 * v.rank + 2 ≤ fuel →
    Alongside (BuildsOn n) d id (b.expandFrom fuel v)
      (Backquote.expandFrom { b with offset := b.offset + d } fuel v) h fun w h' => h'.Made n w

/-- So does splitting a list into segments, which leaves an atom, or something marked. -/
def SplitsAlong (b : Backquote) (n d fuel : Nat) : Prop :=
  ∀ (h : Heap) (before : List Segment) (v : Value), h.BuiltUp n → h.Made n v →
    (∀ x ∈ before, h.Made n x.form) → 2 * v.rank + 1 ≤ fuel →
    Alongside (BuildsOn n) d id (b.segmentsFrom fuel before v)
      (Backquote.segmentsFrom { b with offset := b.offset + d } fuel before v) h
      fun p h' => (∀ x ∈ p.1, h'.Made n x.form) ∧ h'.Made n p.2 ∧
        (p.2.isPair = true → ∃ x, Backquote.marked? h' b.unquote p.2 = some x)

variable {b : Backquote} {fuel : Nat}

/-- What is left of a list is expanded with any fuel that was enough for a list: it is an atom, or
    marked and taken as it is. -/
theorem ExpandsAlong.rest {rest : Value} (hexpand : ExpandsAlong b n d fuel) (hh : h.BuiltUp n)
    (hrest : h.Made n rest) (hfuel : 2 ≤ fuel)
    (hmarked : rest.isPair = true → ∃ x, Backquote.marked? h b.unquote rest = some x) :
    Alongside (BuildsOn n) d id (b.expandFrom fuel rest)
      (Backquote.expandFrom { b with offset := b.offset + d } fuel rest) h fun w h' => h'.Made n w := by
  cases hpair : rest.isPair with
  | false =>
    refine hexpand h rest hh hrest ?_
    rw [Value.rank_of_not_isPair hpair]
    omega
  | true =>
    obtain ⟨x, hx⟩ := hmarked hpair
    obtain ⟨fuel, rfl⟩ : ∃ k, fuel = k + 1 := ⟨fuel - 1, by omega⟩
    unfold Backquote.expandFrom
    refine alongside_get_bind ?_
    simp only [id_eq, hx]
    exact alongside_pure hh.refl (hh.marked? hrest hx)

/-- A list is split into segments, which are put together again. -/
theorem ExpandsAlong.succ (hexpand : ExpandsAlong b n d fuel) (hsplit : SplitsAlong b n d fuel) :
    ExpandsAlong b n d (fuel + 1) := by
  intro h v hh hv hfuel
  unfold Backquote.expandFrom
  refine alongside_get_bind ?_
  simp only [id_eq]
  cases hmarked : Backquote.marked? h b.unquote v with
  | some x => exact alongside_pure hh.refl (hh.marked? hv hmarked)
  | none =>
    refine alongside_get_bind ?_
    simp only [id_eq]
    split
    · -- A splice that is no element of a list is refused.
      refine Alongside.bind (P := fun _ _ => False) ?_ fun _ _ _ hf => hf.elim
      exact alongside_throw fun h => by cases h
    · cases v with
      | pair p =>
        refine (hsplit h [] (.pair p) hh hv (List.forall_mem_nil _) (by omega)).bind ?_
        rintro ⟨segments, rest⟩ h₁ e₁ ⟨hs, hrest, hmarked₁⟩
        simp only
        split
        · exact (builds_assemble e₁.builtUp hs (Value.between_of_not_pair rfl)).alongside
        · simp only [Value.rank] at hfuel
          refine (hexpand.rest e₁.builtUp hrest (by omega) hmarked₁).bind fun tail h₂ e₂ htail => ?_
          exact (builds_assemble e₂.builtUp (fun x hx => e₂.made (hs x hx)) htail).alongside
      -- A symbol stands for its own quotation.
      | symbol id =>
        refine Builds.alongside ?_
        refine (builds_cons hh hv (Value.between_of_not_pair rfl)).bind fun x h₁ e₁ hx => ?_
        exact builds_cons e₁.builtUp (Value.between_of_not_pair rfl) hx
      | _ => exact alongside_pure hh.refl hv

/-- Each element is spliced or expanded, and then the rest of the list is split. -/
theorem SplitsAlong.succ (hexpand : ExpandsAlong b n d fuel) (hsplit : SplitsAlong b n d fuel) :
    SplitsAlong b n d (fuel + 1) := by
  intro h before v hh hv hbefore hfuel
  unfold Backquote.segmentsFrom
  cases v with
  | pair id =>
    obtain ⟨hstart, hlt⟩ := hv id rfl
    obtain ⟨hcar, hcdr⟩ := hh.components id hstart hlt
    -- The parts of a pair are of lower rank, so the fuel is enough for them.
    have hcarRank := hcar.rank_le
    have hcdrRank := hcdr.rank_le
    simp only [Value.rank] at hfuel
    refine alongside_get_bind ?_
    simp only [id_eq]
    split
    · next hmarked =>
      exact alongside_pure hh.refl ⟨hbefore, hv, fun _ => Option.isSome_iff_exists.1 hmarked⟩
    · refine alongside_get_bind (alongside_get_bind ?_)
      simp only [id_eq]
      cases hmarked : Backquote.marked? h b.splice (h.car id) with
      | some x =>
        refine alongside_get_bind ?_
        refine hsplit h _ _ hh (hcdr.mono (Nat.le_of_lt hlt)) (fun y hy => ?_) (by omega)
        rcases List.mem_cons.1 hy with rfl | hy
        · exact hh.marked? (hcar.mono (Nat.le_of_lt hlt)) hmarked
        · exact hbefore y hy
      | none =>
        refine (hexpand h _ hh (hcar.mono (Nat.le_of_lt hlt)) (by omega)).bind fun x h₁ e₁ hx => ?_
        refine alongside_get_bind ?_
        simp only [id_eq, e₁.extended.cdr id hlt]
        refine hsplit h₁ _ _ e₁.builtUp (e₁.made (hcdr.mono (Nat.le_of_lt hlt))) (fun y hy => ?_)
          (by omega)
        rcases List.mem_cons.1 hy with rfl | hy
        · exact hx
        · exact e₁.made (hbefore y hy)
  | _ => exact alongside_pure hh.refl ⟨hbefore, hv, fun h => by cases h⟩

/-- The expansion of a template goes on in both ways together. -/
theorem alongside_expandFrom (b : Backquote) (n d fuel : Nat) :
    ExpandsAlong b n d fuel ∧ SplitsAlong b n d fuel := by
  induction fuel with
  | zero =>
    exact ⟨fun _ _ _ _ hfuel => absurd hfuel (by omega),
      fun _ _ _ _ _ _ hfuel => absurd hfuel (by omega)⟩
  | succ fuel ih => exact ⟨ih.1.succ ih.2, .succ ih.1 ih.2⟩

end

/-! ## Readers -/

namespace Reading

/-- The reader in a text that is longer by `d` bytes in front. -/
def shift (d : Nat) (r : Reading) : Reading := { r with offset := r.offset + d }

/-- The reader has gone on in the text, and has made pairs out of earlier ones. -/
structure Follows (n : Nat) (r r' : Reading) : Prop where
  heap : BuildsOn n r.heap r'.heap
  passed : ∃ cs, r.ahead = cs ++ r'.ahead ∧ r'.offset = r.offset + byteCount cs

instance (n : Nat) : IsTrans Reading (Follows n) where
  trans r₁ r₂ r₃ e e' := by
    obtain ⟨cs, hcs, hoffset⟩ := e.passed
    obtain ⟨cs', hcs', hoffset'⟩ := e'.passed
    refine ⟨IsTrans.trans _ _ _ e.heap e'.heap, cs ++ cs', ?_, ?_⟩
    · rw [hcs, hcs', List.append_assoc]
    · rw [hoffset', hoffset, byteCount_append, Nat.add_assoc]

section

variable {n d : Nat} {r r' : Reading} {P : α → Reading → Prop}

/-- There is less text ahead, or as much. -/
theorem Follows.length_le (e : Follows n r r') : r'.ahead.length ≤ r.ahead.length := by
  obtain ⟨cs, hcs, -⟩ := e.passed
  rw [hcs, List.length_append]
  exact Nat.le_add_left ..

theorem follows_refl (hr : r.heap.BuiltUp n) : Follows n r r := ⟨hr.refl, [], rfl, rfl⟩

/-- The next character is the same, wherever the text stands. -/
theorem alongside_peek_bind {f g : Option Char → ReadM β} {Q : β → Reading → Prop}
    (h : Alongside (Follows n) d (shift d) (f r.ahead.head?) (g r.ahead.head?) r Q) :
    Alongside (Follows n) d (shift d) (peek? >>= f) (peek? >>= g) r Q := ⟨h.leads, h.shifted⟩

/-- A fault is reported where the reader stands. -/
theorem alongside_fail (fault : SyntaxFault) :
    Alongside (Follows n) d (shift d) (fail fault : ReadM α) (fail fault) r P := ⟨nofun, rfl⟩

theorem alongside_fail_bind {f g : α → ReadM β} {Q : β → Reading → Prop} (fault : SyntaxFault) :
    Alongside (Follows n) d (shift d) (fail fault >>= f) (fail fault >>= g) r Q := ⟨nofun, rfl⟩

/-- A fault that is reported one byte further on. -/
theorem alongside_failBehind (fault : SyntaxFault) :
    Alongside (Follows n) d (shift d) (do failAt ((← get).offset + 1) fault : ReadM α)
      (do failAt ((← get).offset + 1) fault) r P := by
  refine ⟨nofun, ?_⟩
  change (raise (.read (.malformed fault (r.offset + d + 1))) : ReadM α) (r.shift d) = _
  rw [Nat.add_right_comm]
  rfl

/-- What goes past some of the text, and does nothing else. -/
theorem alongside_passes {x : ReadM Unit} {cs rest : List Char} (hr : r.heap.BuiltUp n)
    (hahead : r.ahead = cs ++ rest)
    (hx : ∀ r' : Reading, r'.ahead = r.ahead → x r' = .ok () (r'.after cs rest r'.heap)) :
    Alongside (Follows n) d (shift d) x x r
      fun _ r' => r'.ahead = rest ∧ r'.backquotes = r.backquotes := by
  constructor
  · rw [leads_of_ok (hx r rfl)]
    exact ⟨⟨hr.refl, cs, hahead, rfl⟩, rfl, rfl⟩
  · rw [hx r rfl, hx (r.shift d) rfl]
    simp only [shiftResult, shift, after, Nat.add_right_comm]

/-- The reader goes past one character. -/
theorem alongside_advance {c : Char} {cs : List Char} (hr : r.heap.BuiltUp n)
    (hahead : r.ahead = c :: cs) :
    Alongside (Follows n) d (shift d) advance advance r
      fun _ r' => r'.ahead = cs ∧ r'.backquotes = r.backquotes :=
  alongside_passes hr (show r.ahead = [c] ++ cs from hahead) fun _ hr' => advance_eq (hr'.trans hahead)

/-- The reader goes on to where the rest of the text begins. -/
theorem alongside_passTo {cs rest : List Char} (hr : r.heap.BuiltUp n)
    (hahead : r.ahead = cs ++ rest) :
    Alongside (Follows n) d (shift d) (passTo cs rest) (passTo cs rest) r
      fun _ r' => r'.ahead = rest ∧ r'.backquotes = r.backquotes :=
  alongside_passes hr hahead fun _ _ => rfl

/-- A character of layout is one byte, so an offset after it is on a boundary. -/
theorem layout_size {c : Char} (hc : Text.isLayout c = true) : c.utf8Size = 1 := by
  simp only [Text.isLayout, Bool.or_eq_true, decide_eq_true_eq] at hc
  rcases hc with (((rfl | rfl) | rfl) | rfl) | rfl <;> rfl

/-- Layout and comments are skipped up to something else. -/
theorem skipped_eq (inComment : Bool) (text : List Char) : ∃ cs rest, text = cs ++ rest ∧
    (∀ offset, skipped inComment text offset = (rest, offset + byteCount cs)) ∧
    ∀ c ∈ rest.head?, Text.isLayout c = false ∧ c ≠ ';' := by
  induction text generalizing inComment with
  | nil => exact ⟨[], [], rfl, fun _ => rfl, nofun⟩
  | cons c text ih =>
    -- A character that is passed is counted in bytes.
    have hpass (inside : Bool) (hstep : ∀ offset, skipped inComment (c :: text) offset =
        skipped inside text (offset + c.utf8Size)) :
        ∃ cs rest, c :: text = cs ++ rest ∧
          (∀ offset, skipped inComment (c :: text) offset = (rest, offset + byteCount cs)) ∧
          ∀ c ∈ rest.head?, Text.isLayout c = false ∧ c ≠ ';' := by
      obtain ⟨cs, rest, htext, heq, hrest⟩ := ih inside
      refine ⟨c :: cs, rest, by rw [htext, List.cons_append], fun offset => ?_, hrest⟩
      rw [hstep, heq, byteCount_cons, Nat.add_assoc]
    cases inComment with
    | true => exact hpass (c ≠ '\n') fun _ => by simp [skipped]
    | false =>
      cases hlayout : Text.isLayout c with
      | true => exact hpass false fun _ => by simp [skipped, hlayout, layout_size hlayout]
      | false =>
        by_cases hcomment : c = ';'
        · subst hcomment
          exact hpass true fun _ => by simp [skipped, hlayout, show Char.utf8Size ';' = 1 from rfl]
        · refine ⟨[], c :: text, rfl, fun _ => by simp [skipped, hlayout, hcomment], ?_⟩
          rintro _ ⟨⟩
          exact ⟨hlayout, hcomment⟩

/-- What is skipped depends on the text ahead only. -/
theorem alongside_skip (hr : r.heap.BuiltUp n) :
    Alongside (Follows n) d (shift d) skip skip r fun _ r' => r'.backquotes = r.backquotes ∧
      ∀ c ∈ r'.ahead.head?, Text.isLayout c = false ∧ c ≠ ';' := by
  obtain ⟨cs, rest, hahead, heq, hrest⟩ := skipped_eq false r.ahead
  refine (alongside_passes hr hahead fun r' hr' => ?_).mono ?_
  · simp only [skip, hr', heq, after]
  · rintro _ r' - ⟨hrest', hbackquotes⟩
    exact ⟨hbackquotes, hrest' ▸ hrest⟩

/-- An action on the heap neither sees the text nor goes on in it. -/
theorem alongside_heap {x y : HeapM α} {P : α → Heap → Prop}
    (hx : Alongside (BuildsOn n) d id x y r.heap P) :
    Alongside (Follows n) d (shift d) (liftM x : ReadM α) (liftM y) r fun a r' =>
      r'.ahead = r.ahead ∧ r'.backquotes = r.backquotes ∧ P a r'.heap := by
  constructor
  · rw [leads_heap]
    exact Leads.mono hx.leads (fun a h ha => ⟨⟨ha.1, [], rfl, rfl⟩, rfl, rfl, ha.2⟩) fun _ _ he => he
  · have hshifted := hx.shifted
    change onHeap y (shift d r) = shiftResult d (shift d) (onHeap x r)
    simp only [onHeap, shift, id_eq] at hshifted ⊢
    rw [hshifted]
    cases x r.heap <;> rfl

/-- A name is interned wherever it stands. -/
theorem alongside_intern (hr : r.heap.BuiltUp n) (name : String) :
    Alongside (Follows n) d (shift d) (liftM (SymbolTable.intern name) : ReadM SymbolId)
      (liftM (SymbolTable.intern name)) r fun _ r' =>
        r'.ahead = r.ahead ∧ r'.backquotes = r.backquotes := by
  have hr' : ∀ symbols, Follows n r { r with symbols } := fun _ => ⟨hr.refl, [], rfl, rfl⟩
  constructor
  · rw [leads_symbols]
    unfold Leads
    cases hfound : r.symbols.find? name <;> simp only [SymbolTable.intern, hfound] <;>
      exact ⟨hr' _, trivial, trivial⟩
  · change onSymbols (SymbolTable.intern name) (shift d r) =
      shiftResult d (shift d) (onSymbols (SymbolTable.intern name) r)
    simp only [onSymbols, shift, SymbolTable.intern]
    cases r.symbols.find? name <;> rfl

/-- How many backquotes are open is counted, wherever they stand. -/
theorem alongside_backquotes (hr : r.heap.BuiltUp n) (f : Nat → Nat) :
    Alongside (Follows n) d (shift d) (modify fun r => { r with backquotes := f r.backquotes })
      (modify fun r => { r with backquotes := f r.backquotes }) r
      fun _ r' => r'.ahead = r.ahead ∧ r'.backquotes = f r.backquotes :=
  ⟨⟨⟨hr.refl, [], rfl, rfl⟩, rfl, rfl⟩, rfl⟩

/-- The bound of an expansion is the size of the heap, which is enough for a form that was made from
    position `n` on. -/
theorem alongside_expandBackquote {v : Value} (hr : r.heap.BuiltUp n) (hv : r.heap.Made n v) :
    Alongside (Follows n) d (shift d) (expandBackquote v) (expandBackquote v) r fun w r' =>
      r'.ahead = r.ahead ∧ r'.backquotes = r.backquotes ∧ r'.heap.Made n w := by
  have hrank := hv.rank_le
  refine alongside_get_bind (alongside_heap (P := fun w h => h.Made n w) ?_)
  unfold Backquote.expand
  refine alongside_get_bind ?_
  exact (alongside_expandFrom _ _ _ _).1 _ _ hr hv (by omega)

/-- A value is read from a part of the text that is not empty. -/
structure Consumes (n : Nat) (r : Reading) (v : Value) (r' : Reading) : Prop where
  made : r'.heap.Made n v
  length_lt : r'.ahead.length < r.ahead.length
  backquotes : r'.backquotes = r.backquotes

/-- A name gives a symbol, which is no pair. -/
theorem alongside_internValue (hr : r.heap.BuiltUp n) (name : List Char) :
    Alongside (Follows n) d (shift d) (internValue name) (internValue name) r fun v r' =>
      r'.heap.Made n v ∧ r'.ahead = r.ahead ∧ r'.backquotes = r.backquotes := by
  refine (alongside_intern hr _).bind fun id r' e hid => ?_
  refine alongside_pure (follows_refl e.heap.builtUp) ⟨Value.between_of_not_pair ?_, hid⟩
  unfold Value.ofSymbol
  split
  · rfl
  · split <;> rfl

/-- A word has at least one character, since it begins with one that does not end it. -/
theorem alongside_readWord {c : Char} {cs : List Char} (hr : r.heap.BuiltUp n)
    (hahead : r.ahead = c :: cs) (hends : endsWord c = false) :
    Alongside (Follows n) d (shift d) readWord readWord r (Consumes n r) := by
  -- A word has its first character at least, so the text ahead gets shorter.
  have hlength : (r.ahead.dropWhile (!endsWord ·)).length < r.ahead.length := by
    rw [hahead, List.dropWhile_cons_of_pos (by simp [hends])]
    exact Nat.lt_succ_of_le (List.dropWhile_suffix _).length_le
  refine alongside_get_bind ((alongside_passTo hr List.takeWhile_append_dropWhile.symm).bind ?_)
  rintro - r₁ e₁ ⟨hahead₁, hbackquotes₁⟩
  change Alongside _ _ _ (wordValue _) (wordValue (r.ahead.takeWhile _)) r₁ _
  unfold wordValue
  have hr₁ := e₁.heap.builtUp
  by_cases hdot : r.ahead.takeWhile (!endsWord ·) = ['.']
  · simp only [hdot, if_true]
    exact alongside_fail_bind _
  · simp only [hdot, if_false]
    split
    · refine (alongside_internValue hr₁ _).mono fun v r₂ e₂ hpost => ?_
      obtain ⟨hv, hahead₂, hbackquotes₂⟩ := hpost
      exact ⟨hv, by rwa [hahead₂, hahead₁], hbackquotes₂.trans hbackquotes₁⟩
    · split
      · exact alongside_pure (follows_refl hr₁)
          ⟨Value.between_of_not_pair rfl, by rwa [hahead₁], hbackquotes₁⟩
      · exact alongside_fail _

/-- A name between bars has the bars. -/
theorem alongside_readBars {cs : List Char} (hr : r.heap.BuiltUp n) (hahead : r.ahead = '|' :: cs) :
    Alongside (Follows n) d (shift d) readBars readBars r (Consumes n r) := by
  refine (alongside_advance hr hahead).bind fun _ r₁ e₁ hpost => ?_
  obtain ⟨hahead₁, hbackquotes₁⟩ := hpost
  refine alongside_get_bind ((alongside_passTo e₁.heap.builtUp
    List.takeWhile_append_dropWhile.symm).bind ?_)
  rintro - r₂ e₂ ⟨-, hbackquotes₂⟩
  refine alongside_peek_bind ?_
  cases hhead : r₂.ahead.head? with
  | none => exact alongside_fail _
  | some c =>
    obtain ⟨cs₂, hcs₂⟩ := List.head?_eq_some_iff.1 hhead
    refine (alongside_advance e₂.heap.builtUp hcs₂).bind fun _ r₃ e₃ hpost => ?_
    obtain ⟨hahead₃, hbackquotes₃⟩ := hpost
    refine (alongside_internValue e₃.heap.builtUp _).mono fun v r₄ _ hpost => ?_
    obtain ⟨hv, hahead₄, hbackquotes₄⟩ := hpost
    -- Both bars and what stands between them are consumed.
    have hlength := e₂.length_le
    rw [hcs₂, hahead₁, List.length_cons] at hlength
    refine ⟨hv, ?_, by rw [hbackquotes₄, hbackquotes₃, hbackquotes₂, hbackquotes₁]⟩
    rw [hahead₄, hahead₃, hahead, List.length_cons]
    omega

/-- After the tail of a dotted list there is only its end. -/
theorem alongside_closeDotted (hr : r.heap.BuiltUp n) :
    Alongside (Follows n) d (shift d) closeDotted closeDotted r fun _ r' =>
      r'.backquotes = r.backquotes := by
  refine (alongside_skip hr).bind fun _ r₁ e₁ hpost => ?_
  obtain ⟨hbackquotes₁, _⟩ := hpost
  refine alongside_peek_bind ?_
  split
  · next hhead =>
    obtain ⟨cs, hcs⟩ := List.head?_eq_some_iff.1 hhead
    exact (alongside_advance e₁.heap.builtUp hcs).mono fun _ _ _ h => h.2.trans hbackquotes₁
  · exact alongside_failBehind _
  · exact alongside_fail _

/-- What is read further on in the text is read from more of it. -/
theorem Consumes.of_follows {v : Value} {r₁ : Reading} (h : Consumes n r₁ v r')
    (hlength : r₁.ahead.length ≤ r.ahead.length) (hbackquotes : r₁.backquotes = r.backquotes) :
    Consumes n r v r' :=
  ⟨h.made, Nat.lt_of_lt_of_le h.length_lt hlength, h.backquotes.trans hbackquotes⟩

/-! ### Forms inside of others -/

/-- The actions read a form alike wherever less text is ahead. -/
def Further (n d : Nat) (r : Reading) (x y : ReadM Value) : Prop :=
  ∀ r' : Reading, r'.heap.BuiltUp n → r'.ahead.length < r.ahead.length →
    Alongside (Follows n) d (shift d) x y r' (Consumes n r')

section

variable {x y : ReadM Value} {marked marked' : SymbolId → ReadM Value} {c : Char} {cs : List Char}

/-- The form behind a sign. -/
theorem Further.alongside (hx : Further n d r x y) (hr : r.heap.BuiltUp n) (hahead : r.ahead = c :: cs) :
    Alongside (Follows n) d (shift d) (advance >>= fun _ => x) (advance >>= fun _ => y) r
      (Consumes n r) := by
  refine (alongside_advance hr hahead).bind fun _ r₁ e₁ hpost => ?_
  obtain ⟨hahead₁, hbackquotes₁⟩ := hpost
  refine (hx r₁ e₁.heap.builtUp (by simp [hahead₁, hahead])).mono fun v r' _ hv => ?_
  exact hv.of_follows e₁.length_le hbackquotes₁

/-- A template is read inside one more backquote. -/
theorem alongside_readTemplate (hx : Further n d r x y) (hr : r.heap.BuiltUp n)
    (hahead : r.ahead = c :: cs) :
    Alongside (Follows n) d (shift d) (readTemplate x) (readTemplate y) r (Consumes n r) := by
  refine (alongside_advance hr hahead).bind fun _ r₁ e₁ hpost => ?_
  obtain ⟨hahead₁, hbackquotes₁⟩ := hpost
  refine (alongside_backquotes e₁.heap.builtUp (· + 1)).bind fun _ r₂ e₂ hpost => ?_
  obtain ⟨hahead₂, hbackquotes₂⟩ := hpost
  -- The form behind the backquote is read from a shorter text, one backquote deeper.
  have hless : r₂.ahead.length < r.ahead.length := by simp [hahead₂, hahead₁, hahead]
  refine (hx r₂ e₂.heap.builtUp hless).bind fun template r₃ e₃ htemplate => ?_
  refine (alongside_backquotes e₃.heap.builtUp (· - 1)).bind fun _ r₄ e₄ hpost => ?_
  obtain ⟨hahead₄, hbackquotes₄⟩ := hpost
  refine (alongside_expandBackquote e₄.heap.builtUp (e₄.heap.made htemplate.made)).mono
    fun v r₅ _ hpost => ?_
  obtain ⟨hahead₅, hbackquotes₅, hv⟩ := hpost
  refine ⟨hv, ?_, ?_⟩
  · rw [hahead₅, hahead₄]
    exact Nat.lt_trans htemplate.length_lt hless
  · rw [hbackquotes₅, hbackquotes₄, htemplate.backquotes, hbackquotes₂, Nat.add_sub_cancel, hbackquotes₁]

/-- The sign `@` behind a comma is passed. -/
theorem alongside_readMarker (hr : r.heap.BuiltUp n) :
    Alongside (Follows n) d (shift d) readMarker readMarker r fun _ r' =>
      r'.ahead.length ≤ r.ahead.length ∧ r'.backquotes = r.backquotes := by
  refine alongside_peek_bind ?_
  split
  · next hsplice =>
    obtain ⟨cs, hcs⟩ := List.head?_eq_some_iff.1 hsplice
    refine (alongside_advance hr hcs).bind fun _ r₁ e₁ hpost => ?_
    exact alongside_pure (follows_refl e₁.heap.builtUp) ⟨e₁.length_le, hpost.2⟩
  · exact alongside_pure (follows_refl hr) ⟨Nat.le_refl _, rfl⟩

/-- A form after a comma is read outside the innermost backquote. -/
theorem alongside_readUnquoted (hx : ∀ head, Further n d r (marked head) (marked' head))
    (hr : r.heap.BuiltUp n) (hahead : r.ahead = c :: cs) :
    Alongside (Follows n) d (shift d) (readUnquoted marked) (readUnquoted marked') r
      (Consumes n r) := by
  refine alongside_get_bind ?_
  by_cases hzero : r.backquotes = 0
  · simp only [shift, hzero, if_true]
    exact alongside_fail_bind _
  · simp only [shift, hzero, if_false]
    refine (alongside_advance hr hahead).bind fun _ r₁ e₁ hpost => ?_
    obtain ⟨hahead₁, hbackquotes₁⟩ := hpost
    refine (alongside_readMarker e₁.heap.builtUp).bind fun marker r₂ e₂ hpost => ?_
    obtain ⟨hlength₂, hbackquotes₂⟩ := hpost
    refine (alongside_intern e₂.heap.builtUp marker).bind fun head r₃ e₃ hpost => ?_
    obtain ⟨hahead₃, hbackquotes₃⟩ := hpost
    refine (alongside_backquotes e₃.heap.builtUp (· - 1)).bind fun _ r₄ e₄ hpost => ?_
    obtain ⟨hahead₄, hbackquotes₄⟩ := hpost
    -- Past the comma, and its sign, there is less text left.
    have hless : r₄.ahead.length < r.ahead.length := by
      rw [hahead₄, hahead₃]
      refine Nat.lt_of_le_of_lt hlength₂ ?_
      simp [hahead₁, hahead]
    refine (hx head r₄ e₄.heap.builtUp hless).bind fun form r₅ e₅ hform => ?_
    refine (alongside_backquotes e₅.heap.builtUp (· + 1)).bind fun _ r₆ e₆ hpost => ?_
    obtain ⟨hahead₆, hbackquotes₆⟩ := hpost
    refine alongside_pure (follows_refl e₆.heap.builtUp) ⟨e₆.heap.made hform.made, ?_, ?_⟩
    · rw [hahead₆]
      exact Nat.lt_trans hform.length_lt hless
    · rw [hbackquotes₆, hform.backquotes, hbackquotes₄, hbackquotes₃, hbackquotes₂, hbackquotes₁]
      omega

/-- What is read behind a sign is shorter than what began with the sign. -/
theorem alongside_readDispatch (hx : ∀ head, Further n d r (marked head) (marked' head))
    (hr : r.heap.BuiltUp n) (hahead : r.ahead = c :: cs) :
    Alongside (Follows n) d (shift d) (readDispatch marked) (readDispatch marked') r
      (Consumes n r) := by
  refine (alongside_advance hr hahead).bind fun _ r₁ e₁ hpost => ?_
  obtain ⟨hahead₁, hbackquotes₁⟩ := hpost
  refine alongside_peek_bind ?_
  split
  · next hquote =>
    obtain ⟨cs₁, hcs₁⟩ := List.head?_eq_some_iff.1 hquote
    have hx₁ : Further n d r₁ (marked .function) (marked' .function) := fun r' hr' hless =>
      hx .function r' hr' (Nat.lt_of_lt_of_le hless e₁.length_le)
    exact (hx₁.alongside e₁.heap.builtUp hcs₁).mono fun v r' _ hv =>
      hv.of_follows e₁.length_le hbackquotes₁
  · exact alongside_failBehind _
  · exact alongside_fail _

/-- The tail of a list is read behind its dot. -/
theorem alongside_readTail {before : List Value} (hx : Further n d r x y) (hr : r.heap.BuiltUp n)
    (hbefore : ∀ v ∈ before, r.heap.Made n v) (hahead : r.ahead = c :: cs) :
    Alongside (Follows n) d (shift d) (readTail x before) (readTail y before) r (Consumes n r) := by
  unfold readTail
  cases before.isEmpty with
  | true => exact alongside_fail_bind _
  | false =>
    refine (alongside_advance hr hahead).bind fun _ r₁ e₁ hpost => ?_
    obtain ⟨hahead₁, hbackquotes₁⟩ := hpost
    -- The tail is read from a shorter text, and the closing parenthesis after it.
    have hless : r₁.ahead.length < r.ahead.length := by simp [hahead₁, hahead]
    refine (hx r₁ e₁.heap.builtUp hless).bind fun tail r₂ e₂ htail => ?_
    refine (alongside_closeDotted e₂.heap.builtUp).bind fun _ r₃ e₃ hbackquotes₃ => ?_
    have hitems : ∀ v ∈ before.reverse, r₃.heap.Made n v := fun v hv =>
      e₃.heap.made (e₂.heap.made (e₁.heap.made (hbefore v (List.mem_reverse.1 hv))))
    have hlist := builds_listWithTail e₃.heap.builtUp hitems (e₃.heap.made htail.made)
    refine (alongside_heap hlist.alongside).mono fun v r₄ _ hpost => ?_
    obtain ⟨hahead₄, hbackquotes₄, hv⟩ := hpost
    refine ⟨hv, ?_, ?_⟩
    · rw [hahead₄]
      exact Nat.lt_of_le_of_lt e₃.length_le (Nat.lt_trans htail.length_lt hless)
    · rw [hbackquotes₄, hbackquotes₃, htail.backquotes, hbackquotes₁]

end

/-- Forms, marked forms and the elements of lists are read wherever the text stands, and
    within any bounds that are large enough for the text ahead. -/
theorem alongside_read (fuel : Nat) : ∀ fuel' : Nat,
    (∀ {r : Reading}, r.heap.BuiltUp n → 2 * r.ahead.length + 1 ≤ fuel →
      2 * r.ahead.length + 1 ≤ fuel' →
      Alongside (Follows n) d (shift d) (readForm fuel) (readForm fuel') r (Consumes n r)) ∧
    (∀ {r : Reading} {head : SymbolId}, r.heap.BuiltUp n → 2 * r.ahead.length + 2 ≤ fuel →
      2 * r.ahead.length + 2 ≤ fuel' →
      Alongside (Follows n) d (shift d) (readMarked fuel head) (readMarked fuel' head) r
        (Consumes n r)) ∧
    ∀ {r : Reading} {before : List Value}, r.heap.BuiltUp n → (∀ v ∈ before, r.heap.Made n v) →
      2 * r.ahead.length + 2 ≤ fuel → 2 * r.ahead.length + 2 ≤ fuel' →
      Alongside (Follows n) d (shift d) (readElements fuel before) (readElements fuel' before) r
        (Consumes n r) := by
  induction fuel with
  | zero =>
    exact fun _ => ⟨fun _ h => absurd h (by omega), fun _ h => absurd h (by omega),
      fun _ _ h => absurd h (by omega)⟩
  | succ fuel ih =>
    rintro (_ | fuel')
    · exact ⟨fun _ _ h => absurd h (by omega), fun _ _ h => absurd h (by omega),
        fun _ _ _ h => absurd h (by omega)⟩
    obtain ⟨hform, hmarked, helements⟩ := ih fuel'
    refine ⟨fun {r₀} hr₀ h h' => ?_, fun {r head} hr h h' => ?_, fun {r₀ before} hr₀ hbefore h h' => ?_⟩
    · unfold readForm
      refine (alongside_skip hr₀).bind fun _ r e hpost => ?_
      obtain ⟨hbackquotes, hhead⟩ := hpost
      refine alongside_peek_bind ?_
      have hr := e.heap.builtUp
      have hle := e.length_le
      refine Alongside.mono (P := Consumes n r) ?_ fun v r' _ hv => hv.of_follows hle hbackquotes
      -- Past its first character, what is left of the form fits into the smaller bounds.
      have hform₁ : Further n d r (readForm fuel) (readForm fuel') := fun r' hr' hless =>
        hform hr' (by omega) (by omega)
      have hmarked₁ (head : SymbolId) : Further n d r (readMarked fuel head) (readMarked fuel' head) :=
        fun r' hr' hless => hmarked hr' (by omega) (by omega)
      have helements₁ : Further n d r (readElements fuel []) (readElements fuel' []) :=
        fun r' hr' hless => helements hr' (List.forall_mem_nil _) (by omega) (by omega)
      cases hahead : r.ahead with
      | nil => exact alongside_fail _
      | cons c cs =>
        rw [List.head?_cons]
        split
        · next heq => cases heq
        · exact helements₁.alongside hr hahead
        · exact alongside_fail _
        · exact (hmarked₁ .quote).alongside hr hahead
        · exact alongside_readTemplate hform₁ hr hahead
        · exact alongside_readUnquoted hmarked₁ hr hahead
        · exact alongside_fail _
        · next heq =>
          obtain rfl : c = '|' := Option.some.inj heq
          exact alongside_readBars hr hahead
        · exact alongside_readDispatch hmarked₁ hr hahead
        · next heq =>
          obtain rfl := Option.some.inj heq
          refine alongside_readWord hr hahead ?_
          obtain ⟨hlayout, hcomment⟩ := hhead c (by rw [hahead]; rfl)
          simp_all [endsWord]
    · unfold readMarked
      refine (hform hr (by omega) (by omega)).bind fun x r₁ e₁ hx => ?_
      have hitems : ∀ v ∈ [.symbol head, x], r₁.heap.Made n v := by
        simpa using ⟨Value.between_of_not_pair rfl, hx.made⟩
      have hlist := builds_list e₁.heap.builtUp hitems
      refine (alongside_heap hlist.alongside).mono fun v r₂ _ hpost => ?_
      obtain ⟨hahead₂, hbackquotes₂, hv⟩ := hpost
      exact ⟨hv, hahead₂ ▸ hx.length_lt, hbackquotes₂.trans hx.backquotes⟩
    · unfold readElements
      refine (alongside_skip hr₀).bind fun _ r e hpost => ?_
      obtain ⟨hbackquotes, _⟩ := hpost
      refine alongside_get_bind ?_
      have hr := e.heap.builtUp
      have hle := e.length_le
      have hmade : ∀ v ∈ before, r.heap.Made n v := fun v hv => e.heap.made (hbefore v hv)
      refine Alongside.mono (P := Consumes n r) ?_ fun v r' _ hv => hv.of_follows hle hbackquotes
      rw [show (shift d r).ahead = r.ahead from rfl]
      split
      · exact alongside_fail _
      · next cs hcs =>
        refine (alongside_advance hr hcs).bind fun _ r₁ e₁ hpost => ?_
        obtain ⟨hahead₁, hbackquotes₁⟩ := hpost
        have hitems : ∀ v ∈ before.reverse, r₁.heap.Made n v := fun v hv =>
          e₁.heap.made (hmade v (List.mem_reverse.1 hv))
        have hlist := builds_list e₁.heap.builtUp hitems
        refine (alongside_heap hlist.alongside).mono fun v r₂ _ hpost => ?_
        obtain ⟨hahead₂, hbackquotes₂, hv⟩ := hpost
        exact ⟨hv, by simp [hahead₂, hahead₁, hcs], hbackquotes₂.trans hbackquotes₁⟩
      · next c rest _ hcs =>
        split
        · exact alongside_readTail (fun r' hr' hless => hform hr' (by omega) (by omega)) hr hmade hcs
        · refine (hform hr (by omega) (by omega)).bind fun x r₁ e₁ hx => ?_
          have hlength := hx.length_lt
          refine (helements e₁.heap.builtUp (fun v hv => ?_) (by omega) (by omega)).mono
            fun v r₂ _ hv => hv.of_follows e₁.length_le hx.backquotes
          rcases List.mem_cons.1 hv with rfl | hv
          · exact hx.made
          · exact e₁.heap.made (hmade v hv)

/-- The next form of a text, if there is one, is read in the same way as well. -/
theorem alongside_next {fuel fuel' : Nat} (hr : r.heap.BuiltUp n)
    (h : 2 * r.ahead.length + 1 ≤ fuel) (h' : 2 * r.ahead.length + 1 ≤ fuel') :
    Alongside (Follows n) d (shift d) (next? fuel) (next? fuel') r fun v? r' =>
      ∀ v, v? = some v → Consumes n r v r' := by
  refine (alongside_skip hr).bind fun _ r₁ e₁ hpost => ?_
  obtain ⟨hbackquotes₁, _⟩ := hpost
  refine alongside_get_bind ?_
  have hr₁ := e₁.heap.builtUp
  have hle := e₁.length_le
  rw [show (shift d r₁).ahead = r₁.ahead from rfl]
  cases r₁.ahead.isEmpty with
  | true => exact alongside_pure (follows_refl hr₁) fun _ h => by cases h
  | false =>
    refine (((alongside_read fuel fuel').1 hr₁ (by omega) (by omega))).bind fun v r₂ e₂ hv => ?_
    refine alongside_pure (follows_refl e₂.heap.builtUp) ?_
    rintro w ⟨⟩
    exact hv.of_follows hle hbackquotes₁

end

end Reading

end StackLisp
