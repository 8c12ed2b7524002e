import StackLisp.Proofs.Loops
import StackLisp.Proofs.Safety.Growth

/-!
# Heaps in order

`Layout.Fits L h` says that a heap is as its layout tells: data leads to data,
closures hold an environment for their function, and frames have the slots they
should have. `Extends n L h L' h'` is a growth of such heaps that leaves the
functions and the tags alone.

`Safe R L x s post` is the form of every statement about an action from here on:
started in a state of layout `L`, it ends in a state and a layout that the
relation `R` allows, with a result as `post` says, or fails in such a state; and
if it fails by a broken rule of the machine, then by a late exit.

* `safe_cons`, `safe_listWithTail`: new data;
* `safe_alloc_own`, `safe_operands`: new pairs of the interpreter's own;
* `safe_allocFrame`, `safe_fillFrame`, `safe_setFrameSlot`, ...: frames.
-/

namespace StackLisp

/-- The exits whose target is gone, the only broken rules that programs can bring
    about. -/
def Fault.IsLateExit : Fault → Prop
  | .blockNotActive _ | .tagbodyNotActive _ => True
  | _ => False

/-- A failure that is no broken rule of the machine, or only a late exit. -/
def Failure.Benign : Failure → Prop
  | .error (.fatal f) => f.IsLateExit
  | _ => True

/-! ## Safe actions -/

section

variable {σ α β : Type} {R : Layout → σ → Layout → σ → Prop} {L : Layout} {s s' : σ}

/-- A relation that actions can go along, one after the other. -/
class Evolution (R : Layout → σ → Layout → σ → Prop) : Prop where
  refl : ∀ {L s L' s'}, R L s L' s' → R L' s' L' s'
  trans : ∀ {L s L' s' L'' s''}, R L s L' s' → R L' s' L'' s'' → R L s L'' s''

/-- The action ends where the relation allows, and breaks no rule. -/
def Safe (R : Layout → σ → Layout → σ → Prop) (L : Layout) (x : EStateM Failure σ α) (s : σ)
    (post : Layout → α → σ → Prop) : Prop :=
  Leads x s (fun a s' => ∃ L', R L s L' s' ∧ post L' a s')
    fun e s' => e.Benign ∧ ∃ L', R L s L' s'

/-- Of what is known of the result, less may be kept. -/
theorem Safe.mono {x : EStateM Failure σ α} {post post' : Layout → α → σ → Prop}
    (hx : Safe R L x s post) (h : ∀ L' a s', R L s L' s' → post L' a s' → post' L' a s') :
    Safe R L x s post' :=
  Leads.mono hx (fun a s' ⟨L', hr, hp⟩ => ⟨L', hr, h L' a s' hr hp⟩) fun _ _ he => he

/-- What is known of an outcome includes that it is one. -/
theorem Safe.reached {x : EStateM Failure σ α} {post : Layout → α → σ → Prop}
    (hx : Safe R L x s post) : Safe R L x s fun L' a s' => post L' a s' ∧ x s = .ok a s' := by
  unfold Safe at hx ⊢
  cases heq : x s with
  | ok a s' =>
    rw [leads_of_ok heq] at hx ⊢
    exact hx.imp fun L' h => ⟨h.1, h.2, rfl⟩
  | error e s' =>
    rw [leads_of_error heq] at hx ⊢
    exact hx

/-- Giving a result is safe. -/
theorem Safe.pure {a : α} {post : Layout → α → σ → Prop} (hr : R L s L s) (h : post L a s) :
    Safe R L (pure a) s post := ⟨L, hr, h⟩

/-- A failure that breaks no rule is safe. -/
theorem Safe.throw {e : Failure} {post : Layout → α → σ → Prop} (hr : R L s L s) (he : e.Benign) :
    Safe R L (throw e : EStateM Failure σ α) s post := ⟨he, L, hr⟩

/-- What is known may grow before an action. -/
theorem Safe.grow [Evolution R] {L' : Layout} {x : EStateM Failure σ α}
    {post : Layout → α → σ → Prop} (hr : R L s L' s) (hx : Safe R L' x s post) :
    Safe R L x s post :=
  Leads.mono hx (fun _ _ ⟨L'', hr', hp⟩ => ⟨L'', Evolution.trans hr hr', hp⟩)
    fun _ _ ⟨he, L'', hr'⟩ => ⟨he, L'', Evolution.trans hr hr'⟩

/-- One safe action after the other. -/
theorem Safe.bind [Evolution R] {x : EStateM Failure σ α} {f : α → EStateM Failure σ β}
    {P : Layout → α → σ → Prop} {post : Layout → β → σ → Prop} (hx : Safe R L x s P)
    (hf : ∀ L' a s', R L s L' s' → P L' a s' → Safe R L' (f a) s' post) :
    Safe R L (x >>= f) s post := by
  unfold Safe
  rw [leads_bind]
  refine Leads.mono hx ?_ fun _ _ he => he
  rintro a s' ⟨L', hr, hm⟩
  refine Leads.mono (hf L' a s' hr hm) ?_ ?_
  · rintro b s'' ⟨L'', hr', hp⟩
    exact ⟨L'', Evolution.trans hr hr', hp⟩
  · rintro e s'' ⟨he, L'', hr'⟩
    exact ⟨he, L'', Evolution.trans hr hr'⟩

/-- An action after a safe one without a result of interest. -/
theorem Safe.map [Evolution R] {x : EStateM Failure σ α} {f : α → β}
    {post : Layout → β → σ → Prop} (hx : Safe R L x s fun L' a s' => post L' (f a) s') :
    Safe R L (f <$> x) s post := by
  unfold Safe
  rw [leads_map]
  exact hx

section

variable {post : Layout → β → σ → Prop}

/-- An action that changes nothing, before another. -/
theorem safe_bind_of_ok {x : EStateM Failure σ α} {f : α → EStateM Failure σ β} {a : α}
    (hx : x s = .ok a s) : Safe R L (x >>= f) s post ↔ Safe R L (f a) s post := by
  unfold Safe
  rw [leads_bind, leads_of_ok hx]

/-- An action that gives a result, before another. -/
theorem safe_bind_of_step [Evolution R] {x : EStateM Failure σ α} {f : α → EStateM Failure σ β}
    {a : α} (hx : x s = .ok a s') (hr : R L s L s') (hf : Safe R L (f a) s' post) :
    Safe R L (x >>= f) s post := by
  refine Safe.bind (P := fun L' b s'' => L' = L ∧ b = a ∧ s'' = s') ?_ ?_
  · unfold Safe
    rw [leads_of_ok hx]
    exact ⟨L, hr, rfl, rfl, rfl⟩
  · rintro _ _ _ - ⟨rfl, rfl, rfl⟩
    exact hf

@[simp]
theorem safe_get_bind {f : σ → EStateM Failure σ β} :
    Safe R L (get >>= f) s post ↔ Safe R L (f s) s post := safe_bind_of_ok rfl

@[simp]
theorem safe_pure_bind {a : α} {f : α → EStateM Failure σ β} :
    Safe R L (pure a >>= f) s post ↔ Safe R L (f a) s post := safe_bind_of_ok rfl

/-- Raising an error that breaks no rule is safe. -/
theorem safe_raise {e : Error} (hr : R L s L s) (he : (Failure.error e).Benign) :
    Safe R L (raise e : EStateM Failure σ β) s post := ⟨he, L, hr⟩

theorem safe_raise_bind {e : Error} {f : α → EStateM Failure σ β} (hr : R L s L s)
    (he : (Failure.error e).Benign) : Safe R L (raise e >>= f) s post := ⟨he, L, hr⟩

end

/-- Safe actions over a list from its end on. -/
theorem Safe.foldrM [Evolution R] {f : α → β → EStateM Failure σ β}
    {I : List α → Layout → β → σ → Prop} :
    ∀ {l : List α} {b : β} {L : Layout} {s : σ}, R L s L s → I [] L b s →
      (∀ a rest L' b s', a :: rest <:+ l → R L s L' s' → I rest L' b s' →
        Safe R L' (f a b) s' (I (a :: rest))) →
      Safe R L (l.foldrM f b) s (I l)
  | [], _, _, _, hr, h, _ => by
    rw [List.foldrM_nil]
    exact Safe.pure hr h
  | a :: l, b, L, s, hr, h, hf => by
    rw [List.foldrM_cons]
    refine (Safe.foldrM hr h fun a' rest L' b s' hs => ?_).bind fun L' b s' hr' hb => ?_
    · exact hf a' rest L' b s' (hs.trans (List.suffix_cons _ _))
    · exact hf a l L' b s' (List.suffix_refl _) hr' hb

/-- Safe actions over a list from its front on. -/
theorem Safe.foldlM [Evolution R] {f : β → α → EStateM Failure σ β} {I : Layout → β → σ → Prop} :
    ∀ {l : List α} {b : β} {L : Layout} {s : σ}, R L s L s → I L b s →
      (∀ a ∈ l, ∀ L' b s', R L s L' s' → I L' b s' → Safe R L' (f b a) s' I) →
      Safe R L (l.foldlM f b) s I
  | [], _, _, _, hr, h, _ => by
    rw [List.foldlM_nil]
    exact Safe.pure hr h
  | a :: l, b, L, s, hr, h, hf => by
    rw [List.foldlM_cons]
    refine (hf a List.mem_cons_self L b s hr h).bind fun L' b s' hr' hb => ?_
    refine Safe.foldlM (Evolution.refl hr') hb fun a' ha' L'' b s'' hr'' => ?_
    exact hf a' (List.mem_cons_of_mem _ ha') L'' b s'' (Evolution.trans hr' hr'')

/-- Safe actions on the elements of a list. -/
theorem Safe.forM [Evolution R] {f : α → EStateM Failure σ PUnit} :
    ∀ {l : List α} {L : Layout} {s : σ}, R L s L s →
      (∀ a ∈ l, ∀ L' s', R L s L' s' → Safe R L' (f a) s' fun _ _ _ => True) →
      Safe R L (l.forM f) s fun _ _ _ => True
  | [], _, _, hr, _ => Safe.pure hr trivial
  | a :: l, L, s, hr, hf => by
    refine Safe.bind (x := f a) (f := fun _ => l.forM f) (hf a List.mem_cons_self L s hr) ?_
    intro L' _ s' hr' _
    refine Safe.forM (Evolution.refl hr') fun a' ha' L'' s'' hr'' => ?_
    exact hf a' (List.mem_cons_of_mem _ ha') L'' s'' (Evolution.trans hr' hr'')

end

/-! ## Reading after a change -/

namespace Heap

variable {h : Heap} {id other : PairId} {f g : FrameId} {a d v : Value}

@[simp]
theorem pairCount_push : (h.push a d).pairCount = h.pairCount + 1 := by
  simp [push, pairCount]

@[simp]
theorem pairCount_setCar : (h.setCar id v).pairCount = h.pairCount := by
  simp [setCar, pairCount]

@[simp]
theorem pairCount_setCdr : (h.setCdr id v).pairCount = h.pairCount := rfl

theorem car_push_of_lt (hid : id.index < h.pairCount) : (h.push a d).car id = h.car id := by
  have hne : id.index ≠ h.cars.size := Nat.ne_of_lt hid
  simp [car, push, Array.getElem?_push, hne]

theorem cdr_push_of_lt (hid : id.index < h.pairCount) : (h.push a d).cdr id = h.cdr id := by
  have hne : id.index ≠ h.cdrs.size := h.size_cdrs ▸ Nat.ne_of_lt hid
  simp [cdr, push, Array.getElem?_push, hne]

/-- Where there is no pair, reading gives `nil`. -/
theorem car_of_size_le (hid : h.pairCount ≤ id.index) : h.car id = .nil := by
  simp [car, Array.getElem?_eq_none hid]

theorem car_setCar_of_ne (hne : other ≠ id) : (h.setCar id v).car other = h.car other := by
  have hne' : id.index ≠ other.index := fun heq => hne (by cases other; cases id; simp_all)
  simp [car, setCar, hne']

theorem cdr_setCdr_of_ne (hne : other ≠ id) : (h.setCdr id v).cdr other = h.cdr other := by
  have hne' : id.index ≠ other.index := fun heq => hne (by cases other; cases id; simp_all)
  simp [cdr, setCdr, hne']

/-- The heap with one more frame. -/
def addFrame (h : Heap) (frame : Frame) : Heap := { h with frames := h.frames.push frame }

/-- The heap with a frame changed. -/
def updateFrame (h : Heap) (f : FrameId) (change : Frame → Frame) : Heap :=
  { h with frames := h.frames.modify f.index change }

@[simp]
theorem size_frames_addFrame {frame : Frame} :
    (h.addFrame frame).frames.size = h.frames.size + 1 := by
  simp [addFrame]

theorem frameAt_addFrame (frame : Frame) : (h.addFrame frame).frameAt ⟨h.frames.size⟩ = frame := by
  simp [frameAt, addFrame]

theorem frameAt_addFrame_of_lt (frame : Frame) (hf : f.index < h.frames.size) :
    (h.addFrame frame).frameAt f = h.frameAt f := by
  have hne : f.index ≠ h.frames.size := Nat.ne_of_lt hf
  simp [frameAt, addFrame, Array.getElem?_push, hne]

/-- Where there is no frame, nothing has been filled. -/
theorem frameAt_of_size_le (hf : h.frames.size ≤ f.index) : h.frameAt f = default := by
  simp [frameAt, Array.getElem?_eq_none hf]

theorem frameAt_updateFrame {change : Frame → Frame} (hf : f.index < h.frames.size) :
    (h.updateFrame f change).frameAt f = change (h.frameAt f) := by
  simp [frameAt, updateFrame, Array.getElem?_modify, Array.getElem?_eq_getElem hf]

theorem frameAt_updateFrame_of_ne {change : Frame → Frame} (hne : g ≠ f) :
    (h.updateFrame f change).frameAt g = h.frameAt g := by
  have hne' : f.index ≠ g.index := fun heq => hne (by cases f; cases g; simp_all)
  simp [frameAt, updateFrame, Array.getElem?_modify, hne']

theorem filledSlots_of_filled (hf : (h.frameAt f).filled = true) :
    h.filledSlots f = .ok (h.frameAt f).slots := by
  simp [filledSlots, hf]

/-- The slots of a frame that has not been filled cannot be read. -/
theorem filledSlots_of_empty (hf : (h.frameAt f).filled = false) :
    h.filledSlots f = .error .uninitializedVariable := by
  simp [filledSlots, hf]

@[simp]
theorem size_frames_updateFrame {change : Frame → Frame} :
    (h.updateFrame f change).frames.size = h.frames.size := by
  simp [updateFrame]

end Heap

/-! ## Heaps in order -/

namespace Layout

/-- The heap is as its layout tells. -/
structure Fits (L : Layout) (h : Heap) : Prop where
  apart : ∀ id, L.data id → ¬L.own id
  data : ∀ id, L.data id → id.index < h.pairCount ∧ L.Visible (h.car id) ∧ L.Visible (h.cdr id)
  own : ∀ id, L.own id → id.index < h.pairCount
  closure : ∀ id, L.closure id → L.own id ∧ ∃ f n env, h.car id = .function f ∧
    L.shape f = some (n :: env) ∧ L.IsEnv h env (h.cdr id)
  slots : ∀ f n, L.slots f = some n → f.index < h.frames.size ∧ n ≤ (h.frameAt f).slots.size
  visible : ∀ f, ∀ v ∈ (h.frameAt f).slots, L.Visible v
  instructions : ∀ id code, h.car id = .op code → L.Starts h id code
  room : h.size ≤ h.capacity
  capacity : h.capacity ≤ Heap.addressable

/-- A growth of a heap in order that leaves functions and tags alone. -/
structure Extends (n : Nat) (L : Layout) (h : Heap) (L' : Layout) (h' : Heap) : Prop where
  grows : Grows n L h L' h'
  fits : L'.Fits h'
  shape : L'.shape = L.shape
  tags : L'.tags = L.tags
  symbols : L'.symbols = L.symbols

variable {n : Nat} {L L' : Layout} {h h' : Heap}

/-- A heap in order extends itself. -/
theorem Fits.extends (hL : L.Fits h) : Extends n L h L h := ⟨.refl n L h, hL, rfl, rfl, rfl⟩

instance : Evolution (Extends n) where
  refl e := e.fits.extends
  trans e e' := ⟨e.grows.trans e'.grows, e'.fits, e'.shape.trans e.shape, e'.tags.trans e.tags,
    e'.symbols.trans e.symbols⟩

/-- A position where no pair is yet has no layout. -/
theorem Fits.fresh (hL : L.Fits h) : ¬L.data ⟨h.pairCount⟩ ∧ ¬L.own ⟨h.pairCount⟩ :=
  ⟨fun hd => Nat.lt_irrefl _ (hL.data _ hd).1, fun ho => Nat.lt_irrefl _ (hL.own _ ho)⟩

/-! ### New pairs -/

/-- The layout with one more pair of data. -/
def withData (L : Layout) (id : PairId) : Layout := { L with data := fun i => L.data i ∨ i = id }

/-- The layout with one more pair of the interpreter's own. -/
def withOwn (L : Layout) (id : PairId) : Layout := { L with own := fun i => L.own i ∨ i = id }

/-- The layout with one more closure. -/
def withClosure (L : Layout) (id : PairId) : Layout :=
  { L.withOwn id with closure := fun i => L.closure i ∨ i = id }

/-- With one more pair of data, everything that was known still is. -/
theorem within_withData (L : Layout) (id : PairId) : L.Within (L.withData id) :=
  { Within.refl L with data := fun _ hd => .inl hd }

/-- With one more pair of the interpreter's own, everything that was known still is. -/
theorem within_withOwn (L : Layout) (id : PairId) : L.Within (L.withOwn id) :=
  { Within.refl L with own := fun _ ho => .inl ho }

/-- With one more closure, everything that was known still is. -/
theorem within_withClosure (L : Layout) (id : PairId) : L.Within (L.withClosure id) :=
  { within_withOwn L id with closure := fun _ hc => .inl hc }

/-- One more pair is a growth. -/
theorem Fits.grows_push (hL : L.Fits h) (hw : L.Within L') (a d : Value) :
    Grows n L h L' (h.push a d) where
  within := hw
  cdr id ho := Heap.cdr_push_of_lt (hL.own id ho)
  car id ho := .inl (Heap.car_push_of_lt (hL.own id ho))
  pairs := by simp
  frames := Nat.le_refl _
  capacity := rfl
  dummies _ _ _ hd := ⟨hd.valid, hd.empty, hd.size⟩

/-- What is left to show about a heap with one more pair. -/
theorem Fits.push (hL : L.Fits h) (hroom : h.hasRoom) (hw : L.Within L') (a d : Value)
    (apart : ∀ id, L'.data id → ¬L'.own id)
    (data : ∀ id, L'.data id → L.data id ∨
      id = ⟨h.pairCount⟩ ∧ L'.Visible a ∧ L'.Visible d)
    (own : ∀ id, L'.own id → L.own id ∨ id = ⟨h.pairCount⟩)
    (closure : ∀ id, L'.closure id → L.closure id ∨ id = ⟨h.pairCount⟩ ∧ L'.own id ∧
      ∃ f n env, a = .function f ∧ L.shape f = some (n :: env) ∧ L.IsEnv h env d)
    (slots : L'.slots = L.slots)
    (instruction : ∀ code, a = .op code → L'.Starts (h.push a d) ⟨h.pairCount⟩ code) :
    L'.Fits (h.push a d) where
  apart := apart
  -- An old pair leads to where it led before, and the new one to what it is made of.
  data id hd := by
    rcases data id hd with hd | ⟨rfl, ha, hd⟩
    · obtain ⟨hlt, hcar, hcdr⟩ := hL.data id hd
      rw [Heap.car_push_of_lt hlt, Heap.cdr_push_of_lt hlt, Heap.pairCount_push]
      exact ⟨Nat.lt_succ_of_lt hlt, hcar.within hw, hcdr.within hw⟩
    · rw [Heap.car_push, Heap.cdr_push, Heap.pairCount_push]
      exact ⟨Nat.lt_succ_self _, ha, hd⟩
  own id ho := by
    rw [Heap.pairCount_push]
    rcases own id ho with ho | rfl
    · exact Nat.lt_succ_of_lt (hL.own id ho)
    · exact Nat.lt_succ_self _
  -- A closure keeps its function and its environment, whose frames are unchanged.
  closure id hc := by
    have hg : Grows 0 L h L' (h.push a d) := hL.grows_push hw a d
    rcases closure id hc with hc | ⟨rfl, ho, f, n, env, rfl, hshape, henv⟩
    · obtain ⟨ho, f, n, env, hcar, hshape, henv⟩ := hL.closure id hc
      refine ⟨hw.own id ho, f, n, env, ?_, hw.shape _ _ hshape, ?_⟩
      · rw [Heap.car_push_of_lt (hL.own id ho), hcar]
      · rw [Heap.cdr_push_of_lt (hL.own id ho)]
        exact henv.grows hg
    · refine ⟨ho, f, n, env, Heap.car_push .., hw.shape _ _ hshape, ?_⟩
      rw [Heap.cdr_push]
      exact henv.grows hg
  slots f n hs := hL.slots f n (slots ▸ hs)
  visible f v hv := (hL.visible f v hv).within hw
  -- An operation code is at an old pair, or at the new one, or it is not on the heap.
  instructions id code hop := by
    rcases Nat.lt_trichotomy id.index h.pairCount with hlt | heq | hgt
    · have hold : h.car id = .op code := by rwa [Heap.car_push_of_lt hlt] at hop
      exact (hL.instructions id code hold).grows hold (hL.grows_push (n := 0) hw a d) hop
    · obtain rfl : id = ⟨h.pairCount⟩ := by cases id; simp_all
      rw [Heap.car_push] at hop
      exact instruction code hop
    · rw [Heap.car_of_size_le (Heap.pairCount_push ▸ hgt)] at hop
      cases hop
  room := by
    have hlt : h.size < h.capacity := of_decide_eq_true hroom
    change (h.push a d).pairCount + h.frames.size ≤ h.capacity
    rw [Heap.pairCount_push, Nat.add_right_comm]
    exact hlt
  capacity := hL.capacity

/-- A new pair, if what it is taken for fits. -/
theorem safe_alloc {a d : Value} {post : Layout → PairId → Heap → Prop} (hL : L.Fits h)
    (hnew : h.hasRoom → ∃ L', L'.Fits (h.push a d) ∧ L.Within L' ∧ L'.shape = L.shape ∧
      L'.tags = L.tags ∧ L'.symbols = L.symbols ∧ post L' ⟨h.pairCount⟩ (h.push a d)) :
    Safe (Extends n) L (Heap.alloc a d) h post := by
  unfold Safe Leads Heap.alloc
  by_cases hroom : h.hasRoom
  · obtain ⟨L', hL', hw, hshape, htags, hsymbols, hpost⟩ := hnew hroom
    simp only [hroom, if_true]
    exact ⟨L', ⟨hL.grows_push hw a d, hL', hshape, htags, hsymbols⟩, hpost⟩
  · simp only [hroom]
    exact ⟨trivial, L, hL.extends⟩

/-- A new pair of data. -/
theorem safe_alloc_data {a d : Value} (hL : L.Fits h) (ha : L.Visible a) (hd : L.Visible d) :
    Safe (Extends n) L (Heap.alloc a d) h fun L' id _ => L'.data id := by
  refine safe_alloc hL fun hroom => ?_
  have hw := within_withData L ⟨h.pairCount⟩
  refine ⟨L.withData ⟨h.pairCount⟩, hL.push hroom hw a d ?_ ?_ (fun _ ho => .inl ho)
    (fun _ hc => .inl hc) rfl ?_, hw, rfl, rfl, rfl, .inr rfl⟩
  · rintro id (hd | rfl) ho
    · exact hL.apart id hd ho
    · exact hL.fresh.2 ho
  · rintro id (hd' | rfl)
    · exact .inl hd'
    · exact .inr ⟨rfl, ha.within hw, hd.within hw⟩
  · rintro code rfl
    exact absurd ha id

/-- A new pair of data, as a value. -/
theorem safe_cons {a d : Value} (hL : L.Fits h) (ha : L.Visible a) (hd : L.Visible d) :
    Safe (Extends n) L (Heap.cons a d) h fun L' v _ => L'.Visible v :=
  (safe_alloc_data hL ha hd).bind fun _ _ _ e hid => Safe.pure (Evolution.refl e) hid

/-- A new list of data. -/
theorem safe_listWithTail {vs : List Value} {tail : Value} (hL : L.Fits h)
    (hvs : ∀ v ∈ vs, L.Visible v) (htail : L.Visible tail) :
    Safe (Extends n) L (Heap.listWithTail vs tail) h fun L' v _ => L'.Visible v := by
  refine Safe.foldrM (I := fun _ L' v _ => L'.Visible v) hL.extends htail
    fun a rest L' v h' hs e hv => ?_
  exact safe_cons e.fits ((hvs a (hs.subset List.mem_cons_self)).within e.grows.within) hv

/-- A list of data is data. -/
theorem safe_list {vs : List Value} (hL : L.Fits h) (hvs : ∀ v ∈ vs, L.Visible v) :
    Safe (Extends n) L (Heap.list vs) h fun L' v _ => L'.Visible v :=
  safe_listWithTail hL hvs trivial

/-- The heap with one more pair of the interpreter's own. -/
theorem Fits.push_own (hL : L.Fits h) (hroom : h.hasRoom) (a d : Value)
    (instruction : ∀ code, a = .op code →
      (L.withOwn ⟨h.pairCount⟩).Starts (h.push a d) ⟨h.pairCount⟩ code) :
    (L.withOwn ⟨h.pairCount⟩).Fits (h.push a d) := by
  refine hL.push hroom (within_withOwn L _) a d ?_ (fun _ hd => .inl hd) (fun _ ho => ho)
    (fun _ hc => .inl hc) rfl instruction
  rintro id hd (ho | rfl)
  · exact hL.apart id hd ho
  · exact hL.fresh.1 hd

/-- A new pair of the interpreter's own that starts no instruction. -/
theorem safe_alloc_own {a d : Value} (hL : L.Fits h) (ha : a.op? = none) :
    Safe (Extends n) L (Heap.alloc a d) h fun L' id h' =>
      L'.own id ∧ h'.car id = a ∧ h'.cdr id = d := by
  refine safe_alloc hL fun hroom => ?_
  refine ⟨L.withOwn ⟨h.pairCount⟩, hL.push_own hroom a d ?_, within_withOwn L _, rfl, rfl, rfl,
    .inr rfl, Heap.car_push .., Heap.cdr_push ..⟩
  rintro code rfl
  cases ha

/-- A new pair of the interpreter's own that starts no instruction, as a value. -/
theorem safe_cons_own {a d : Value} (hL : L.Fits h) (ha : a.op? = none) :
    Safe (Extends n) L (Heap.cons a d) h fun L' v h' =>
      ∃ id, v = .pair id ∧ L'.own id ∧ h'.car id = a ∧ h'.cdr id = d :=
  (safe_alloc_own hL ha).bind fun _ id _ e hid => Safe.pure (Evolution.refl e) ⟨id, rfl, hid⟩

/-- A new instruction in front of its operands. -/
theorem safe_cons_instr {code : Opcode} {vs : List Value} {c k : Value} (hL : L.Fits h)
    (hc : L.Operands h vs c k) (hlen : vs.length = code.operandCount)
    (htable : code = .tagbody → ∃ tag table entries, vs = [tag, table] ∧ L.IsTable h entries table) :
    Safe (Extends n) L (Heap.cons (.op code) c) h fun L' v h' =>
      L'.Instr h' code vs v k ∧ h.pairCount < h'.pairCount := by
  refine Safe.bind (P := fun L' id h' => L'.Instr h' code vs (.pair id) k ∧ h.pairCount < h'.pairCount)
    (safe_alloc hL fun hroom => ?_) fun _ _ _ e hid => Safe.pure (Evolution.refl e) hid
  have hg : Grows 0 L h (L.withOwn ⟨h.pairCount⟩) (h.push (.op code) c) :=
    hL.grows_push (within_withOwn L _) _ _
  have hoperands : (L.withOwn ⟨h.pairCount⟩).Operands (h.push (.op code) c) vs
      ((h.push (.op code) c).cdr ⟨h.pairCount⟩) k := by
    rw [Heap.cdr_push]
    exact hc.grows hg
  refine ⟨L.withOwn ⟨h.pairCount⟩, hL.push_own hroom _ _ ?_, within_withOwn L _, rfl, rfl, rfl,
    .mk (.inr rfl) (Heap.car_push ..) hoperands, by simp⟩
  intro code' hcode'
  obtain rfl : code = code' := by simpa using hcode'
  refine ⟨.inr rfl, vs, k, hoperands, hlen, fun htag => ?_⟩
  obtain ⟨tag, table, entries, hvs, hentries⟩ := htable htag
  exact ⟨tag, table, entries, hvs, hentries.grows hg⟩

/-- A new closure. -/
theorem safe_alloc_closure {f : FunctionId} {m : FrameShape} {env : List FrameShape} {d : Value}
    (hL : L.Fits h) (hf : L.shape f = some (m :: env)) (hd : L.IsEnv h env d) :
    Safe (Extends n) L (Heap.alloc (.function f) d) h fun L' id _ => L'.closure id := by
  refine safe_alloc hL fun hroom => ?_
  have hw := within_withClosure L ⟨h.pairCount⟩
  refine ⟨L.withClosure ⟨h.pairCount⟩, hL.push hroom hw (.function f) d ?_ (fun _ hd => .inl hd)
    (fun _ ho => ho) ?_ rfl nofun, hw, rfl, rfl, rfl, .inr rfl⟩
  · rintro id hd (ho | rfl)
    · exact hL.apart id hd ho
    · exact hL.fresh.1 hd
  · rintro id (hc | rfl)
    · exact .inl hc
    · exact .inr ⟨rfl, .inr rfl, f, m, env, rfl, hf, hd⟩

/-- New operands in front of a stream. -/
theorem safe_operands {vs : List Value} {k : Value} (hL : L.Fits h)
    (hvs : ∀ v ∈ vs, v.op? = none) :
    Safe (Extends n) L (Heap.listWithTail vs k) h fun L' c h' => L'.Operands h' vs c k := by
  refine Safe.foldrM (I := fun vs L' c h' => L'.Operands h' vs c k) hL.extends .nil
    fun a rest L' c h' hs e hc => ?_
  have ha := hvs a (hs.subset List.mem_cons_self)
  refine (safe_cons_own e.fits ha).mono ?_
  rintro L'' _ h'' e' ⟨id, rfl, hown, rfl, rfl⟩
  exact .cons hown ha (hc.grows e'.grows)

/-- A frame in front of an environment. -/
theorem safe_cons_frame {f : FrameId} {m : FrameShape} {env : List FrameShape} {d : Value}
    (hL : L.Fits h) (hf : L.slots f = some m.params) (hd : L.IsEnv h env d) :
    Safe (Extends n) L (Heap.cons (.frame f) d) h fun L' v h' =>
      L'.IsEnv h' (m :: env) v ∧ ∃ id, v = .pair id ∧ h'.car id = .frame f := by
  refine (safe_cons_own hL rfl).mono ?_
  rintro L' _ h' e ⟨id, rfl, hown, hcar, rfl⟩
  exact ⟨.cons hown hcar (e.grows.within.slots _ _ hf) (hd.grows e.grows), id, rfl, hcar⟩

/-! ### Frames -/

/-- The layout with one more frame. -/
def withFrame (L : Layout) (f : FrameId) (n : Nat) : Layout :=
  { L with slots := fun g => if g = f then some n else L.slots g }

/-- A new frame is one that the layout has not known. -/
theorem Fits.within_withFrame (hL : L.Fits h) (m : Nat) :
    L.Within (L.withFrame ⟨h.frames.size⟩ m) :=
  { Within.refl L with
    slots := fun f n hs => by
      have hne : f ≠ ⟨h.frames.size⟩ := fun heq =>
        Nat.lt_irrefl h.frames.size (by simpa [heq] using (hL.slots f n hs).1)
      simp only [withFrame, hne, if_false, hs] }

/-- One more frame is a growth. -/
theorem Fits.grows_addFrame (hL : L.Fits h) (frame : Frame) (m : Nat) :
    Grows n L h (L.withFrame ⟨h.frames.size⟩ m) (h.addFrame frame) where
  within := hL.within_withFrame m
  cdr _ _ := rfl
  car _ _ := .inl rfl
  pairs := Nat.le_refl _
  frames := by simp [Heap.addFrame]
  capacity := rfl
  dummies f k _ hd := by
    have hf := Heap.frameAt_addFrame_of_lt frame hd.valid
    refine ⟨?_, hf ▸ hd.empty, hf ▸ hd.size⟩
    rw [Heap.size_frames_addFrame]
    exact Nat.lt_succ_of_lt hd.valid

/-- A heap with one more frame of visible slots. -/
theorem Fits.addFrame (hL : L.Fits h) (hroom : h.hasRoom) {frame : Frame} {m : Nat}
    (hm : m ≤ frame.slots.size) (hv : ∀ v ∈ frame.slots, L.Visible v) :
    (L.withFrame ⟨h.frames.size⟩ m).Fits (h.addFrame frame) where
  apart := hL.apart
  data id hd :=
    have hw := hL.within_withFrame m
    ⟨(hL.data id hd).1, (hL.data id hd).2.1.within hw, (hL.data id hd).2.2.within hw⟩
  own := hL.own
  closure id hc := by
    obtain ⟨ho, f, k, env, hcar, hshape, henv⟩ := hL.closure id hc
    exact ⟨ho, f, k, env, hcar, hshape, henv.grows (hL.grows_addFrame (n := 0) frame m)⟩
  slots f k hs := by
    rw [Heap.size_frames_addFrame]
    by_cases hf : f = ⟨h.frames.size⟩
    · subst hf
      obtain rfl : m = k := by simpa [withFrame] using hs
      rw [Heap.frameAt_addFrame]
      exact ⟨Nat.lt_succ_self _, hm⟩
    · obtain ⟨hlt, hle⟩ := hL.slots f k (by simpa [withFrame, hf] using hs)
      rw [Heap.frameAt_addFrame_of_lt _ hlt]
      exact ⟨Nat.lt_succ_of_lt hlt, hle⟩
  visible f v hv' := by
    have hw := hL.within_withFrame m
    rcases Nat.lt_trichotomy f.index h.frames.size with hlt | heq | hgt
    · rw [Heap.frameAt_addFrame_of_lt _ hlt] at hv'
      exact (hL.visible f v hv').within hw
    · obtain rfl : f = ⟨h.frames.size⟩ := by cases f; simp_all
      rw [Heap.frameAt_addFrame] at hv'
      exact (hv v hv').within hw
    · rw [Heap.frameAt_of_size_le (Heap.size_frames_addFrame ▸ hgt)] at hv'
      exact absurd hv' (Array.not_mem_empty v)
  instructions id code hop :=
    (hL.instructions id code hop).grows hop (hL.grows_addFrame (n := 0) frame m) hop
  room := by
    have hlt : h.size < h.capacity := of_decide_eq_true hroom
    change h.pairCount + (h.addFrame frame).frames.size ≤ h.capacity
    rw [Heap.size_frames_addFrame]
    exact hlt
  capacity := hL.capacity

/-- A new frame of visible slots. -/
theorem safe_allocRaw {frame : Frame} {m : Nat} (hL : L.Fits h) (hm : m ≤ frame.slots.size)
    (hv : ∀ v ∈ frame.slots, L.Visible v) :
    Safe (Extends n) L (Heap.allocRaw frame) h fun L' f h' =>
      L'.slots f = some m ∧ f.index = h.frames.size ∧ h'.frames.size = h.frames.size + 1 ∧
        h'.frameAt f = frame := by
  unfold Safe Leads Heap.allocRaw
  by_cases hroom : h.hasRoom
  · rw [if_pos hroom]
    refine ⟨L.withFrame ⟨h.frames.size⟩ m,
      ⟨hL.grows_addFrame frame m, hL.addFrame hroom hm hv, rfl, rfl, rfl⟩, ?_⟩
    exact ⟨by simp [withFrame], rfl, Heap.size_frames_addFrame, Heap.frameAt_addFrame frame⟩
  · rw [if_neg hroom]
    exact ⟨trivial, L, hL.extends⟩

/-- A new frame that holds values. -/
theorem safe_allocFrame {vs : List Value} {m : Nat} (hL : L.Fits h) (hm : m ≤ vs.length)
    (hvs : ∀ v ∈ vs, L.Visible v) :
    Safe (Extends n) L (Heap.allocFrame vs) h fun L' f _ => L'.slots f = some m :=
  (safe_allocRaw hL hm (by simpa using hvs)).mono fun _ _ _ _ hf => hf.1

/-- A new dummy frame, which comes after all others. -/
theorem safe_allocDummyFrame {m : Nat} (hL : L.Fits h) :
    Safe (Extends n) L (Heap.allocDummyFrame m) h fun L' f h' =>
      L'.slots f = some m ∧ f.index = h.frames.size ∧ h'.Dummy f m := by
  refine (safe_allocRaw (m := m) hL (by simp) fun v hv => ?_).mono fun L' f h' _ hf => ?_
  · obtain rfl : v = .nil := (Array.mem_replicate.1 hv).2
    exact trivial
  · obtain ⟨hslots, hindex, hsize, hframe⟩ := hf
    exact ⟨hslots, hindex, by omega, by rw [hframe], by rw [hframe]; simp⟩

/-- A changed frame is a growth. -/
theorem grows_updateFrame {f : FrameId} {change : Frame → Frame}
    (hd : ∀ m, f.index < n → h.Dummy f m → (h.updateFrame f change).Dummy f m) :
    Grows n L h L (h.updateFrame f change) where
  within := .refl L
  cdr _ _ := rfl
  car _ _ := .inl rfl
  pairs := Nat.le_refl _
  frames := Nat.le_of_eq Heap.size_frames_updateFrame.symm
  capacity := rfl
  dummies g m hg hdummy := by
    by_cases hfg : g = f
    · subst hfg
      exact hd m hg hdummy
    · have heq : (h.updateFrame f change).frameAt g = h.frameAt g :=
        Heap.frameAt_updateFrame_of_ne hfg
      refine ⟨?_, heq ▸ hdummy.empty, heq ▸ hdummy.size⟩
      rw [Heap.size_frames_updateFrame]
      exact hdummy.valid

/-- A heap with a frame changed to one of enough visible slots. -/
theorem Fits.updateFrame (hL : L.Fits h) {f : FrameId} {change : Frame → Frame}
    (hsize : ∀ m, L.slots f = some m → m ≤ (change (h.frameAt f)).slots.size)
    (hv : ∀ v ∈ (change (h.frameAt f)).slots, L.Visible v)
    (hd : ∀ m, f.index < n → h.Dummy f m → (h.updateFrame f change).Dummy f m) :
    Extends n L h L (h.updateFrame f change) := by
  have hg : Grows n L h L (h.updateFrame f change) := grows_updateFrame hd
  refine ⟨hg, ?_, rfl, rfl, rfl⟩
  exact
    { apart := hL.apart
      data := hL.data
      own := hL.own
      closure := fun id hc => by
        obtain ⟨ho, g, k, env, hcar, hshape, henv⟩ := hL.closure id hc
        exact ⟨ho, g, k, env, hcar, hshape, henv.grows hg⟩
      slots := fun g k hs => by
        obtain ⟨hlt, hle⟩ := hL.slots g k hs
        refine ⟨by rwa [Heap.size_frames_updateFrame], ?_⟩
        by_cases hfg : g = f
        · subst hfg
          rw [Heap.frameAt_updateFrame hlt]
          exact hsize k hs
        · rwa [Heap.frameAt_updateFrame_of_ne hfg]
      visible := fun g v hv' => by
        by_cases hfg : g = f
        · subst hfg
          by_cases hlt : g.index < h.frames.size
          · rw [Heap.frameAt_updateFrame hlt] at hv'
            exact hv v hv'
          · rw [Heap.frameAt_of_size_le (by simpa using hlt)] at hv'
            exact absurd hv' (Array.not_mem_empty v)
        · rw [Heap.frameAt_updateFrame_of_ne hfg] at hv'
          exact hL.visible g v hv'
      instructions := fun id code hop => (hL.instructions id code hop).grows hop hg hop
      room := by
        change h.pairCount + (h.updateFrame f change).frames.size ≤ h.capacity
        rw [Heap.size_frames_updateFrame]
        exact hL.room
      capacity := hL.capacity }

/-- Filling a dummy frame, which leaves the other dummy frames alone. -/
theorem safe_fillFrame {f : FrameId} {vs : List Value} (hL : L.Fits h) (hf : h.Dummy f vs.length)
    (hn : n ≤ f.index) (hvs : ∀ v ∈ vs, L.Visible v) :
    Safe (Extends n) L (Heap.fillFrame f vs) h fun _ _ h' =>
      ∀ g m, g ≠ f → h.Dummy g m → h'.Dummy g m := by
  have hx : Heap.fillFrame f vs h = .ok () (h.updateFrame f fun _ => ⟨vs.toArray, true⟩) := by
    simp [Heap.fillFrame, hf.empty, hf.size, Heap.updateFrame]
  unfold Safe
  rw [leads_of_ok hx]
  refine ⟨L, hL.updateFrame (fun m hm => ?_) (by simpa using hvs) fun m hlt => ?_, ?_⟩
  · have hle := (hL.slots f m hm).2
    rw [hf.size] at hle
    simpa using hle
  · omega
  · intro g m hne hd
    have heq : (h.updateFrame f fun _ => ⟨vs.toArray, true⟩).frameAt g = h.frameAt g :=
      Heap.frameAt_updateFrame_of_ne hne
    exact ⟨by rw [Heap.size_frames_updateFrame]; exact hd.valid, heq ▸ hd.empty, heq ▸ hd.size⟩

/-- A slot within the bounds holds a visible value, unless the frame is still to be
    filled. -/
theorem Fits.frameSlot (hL : L.Fits h) {f : FrameId} {m j : Nat} (hf : L.slots f = some m)
    (hj : j < m) :
    (∃ v, h.frameSlot f j = .ok v ∧ L.Visible v ∧ (h.frameAt f).filled = true) ∨
      h.frameSlot f j = .error .uninitializedVariable := by
  have hlt : j < (h.frameAt f).slots.size := Nat.lt_of_lt_of_le hj (hL.slots f m hf).2
  cases hfill : (h.frameAt f).filled with
  | true =>
    refine .inl ⟨(h.frameAt f).slots[j], ?_, hL.visible f _ (Array.getElem_mem hlt), rfl⟩
    simp [Heap.frameSlot, Heap.filledSlots_of_filled hfill, hlt, bind, Except.bind]
  | false =>
    exact .inr (by simp [Heap.frameSlot, Heap.filledSlots_of_empty hfill, bind, Except.bind])

/-- Changing the slots of a filled frame. -/
theorem Fits.modifySlots (hL : L.Fits h) {f : FrameId} {change : Array Value → Array Value}
    (hfill : (h.frameAt f).filled = true)
    (hsize : ∀ m, L.slots f = some m → m ≤ (change (h.frameAt f).slots).size)
    (hv : ∀ v ∈ change (h.frameAt f).slots, L.Visible v) :
    Extends n L h L (h.modifySlots f change) := by
  refine hL.updateFrame hsize hv fun m _ hd => ?_
  rw [hd.empty] at hfill
  cases hfill

/-- Writing a slot. -/
theorem safe_setFrameSlot {f : FrameId} {m j : Nat} {v : Value} (hL : L.Fits h)
    (hf : L.slots f = some m) (hj : j < m) (hv : L.Visible v) :
    Safe (Extends n) L (Heap.setFrameSlot f j v) h fun _ _ _ => True := by
  unfold Safe Leads Heap.setFrameSlot
  rcases hL.frameSlot hf hj with ⟨w, hw, -, hfill⟩ | hw
  · rw [hw]
    refine ⟨L, hL.modifySlots hfill (fun k hk => ?_) fun w hw => ?_, trivial⟩
    · rw [Array.size_setIfInBounds]
      exact (hL.slots f k hk).2
    · rcases Array.mem_or_eq_of_mem_setIfInBounds hw with hw | rfl
      · exact hL.visible f w hw
      · exact hv
  · rw [hw]
    exact ⟨trivial, L, hL.extends⟩

/-- Reading a rest parameter. -/
theorem safe_frameRest {f : FrameId} {j : Nat} (hL : L.Fits h) :
    Safe (Extends n) L (Heap.frameRest f j) h fun L' v _ => L'.Visible v := by
  unfold Safe Leads Heap.frameRest
  cases hfill : (h.frameAt f).filled with
  | true =>
    rw [Heap.filledSlots_of_filled hfill]
    refine safe_list hL fun v hv => hL.visible f v ?_
    exact Array.mem_toList_iff.1 (List.mem_of_mem_drop hv)
  | false =>
    rw [Heap.filledSlots_of_empty hfill]
    exact ⟨trivial, L, hL.extends⟩

/-! ### Data -/

/-- The data of programs are closed under taking components. -/
theorem Fits.closed (hL : L.Fits h) : h.ClosedUnder L.data where
  valid id hid := (hL.data id hid).1
  car id hid next hnext := by
    have := (hL.data id hid).2.1
    rwa [hnext] at this
  cdr id hid next hnext := by
    have := (hL.data id hid).2.2
    rwa [hnext] at this

/-- What is visible to a program is in the part of the heap that holds data. -/
theorem Visible.data {v : Value} (hv : L.Visible v) : Heap.Within L.data v := by
  rintro id rfl
  exact hv

/-- The elements seen on a walk along data are data. -/
theorem Fits.spineFrom (hL : L.Fits h) {fuel : Nat} {seen : List Value} {v : Value}
    (hseen : ∀ w ∈ seen, L.Visible w) (hv : L.Visible v) :
    ∀ w ∈ (h.spineFrom seen fuel v).items, L.Visible w := by
  fun_induction Heap.spineFrom h seen fuel v with
  | case3 seen fuel id ih =>
    obtain ⟨-, hcar, hcdr⟩ := hL.data id hv
    exact ih (by simpa using ⟨hcar, hseen⟩) hcdr
  | _ => simpa using hseen

/-- The items of a list of data are data. -/
theorem Fits.elements? (hL : L.Fits h) {v : Value} {items : List Value} (hv : L.Visible v)
    (hitems : h.elements? v = .ok (some items)) : ∀ w ∈ items, L.Visible w := by
  have hspine : ∀ w ∈ (h.spine v).items, L.Visible w := hL.spineFrom (by simp) hv
  unfold Heap.elements? at hitems
  split at hitems
  · next heq =>
    obtain rfl : _ = items := by simpa using hitems
    rwa [heq] at hspine
  · cases hitems
  · cases hitems

/-- Assigning a rest parameter. -/
theorem safe_setFrameRest {f : FrameId} {m j : Nat} {v : Value} (hL : L.Fits h)
    (hf : L.slots f = some m) (hj : m ≤ j) (hv : L.Visible v) :
    Safe (Extends n) L (Heap.setFrameRest f j v) h fun _ _ _ => True := by
  unfold Safe Leads Heap.setFrameRest
  -- The list is looked at, and whether the frame is filled, before anything is changed.
  cases hitems : h.elements? v with
  | error e =>
    have he : e.Benign := by
      unfold Heap.elements? at hitems
      split at hitems <;> cases hitems
      trivial
    exact ⟨he, L, hL.extends⟩
  | ok items =>
    cases items with
    | none => exact ⟨trivial, L, hL.extends⟩
    | some items =>
      cases hfill : (h.frameAt f).filled with
      | false =>
        simp only [Heap.filledSlots_of_empty hfill]
        exact ⟨trivial, L, hL.extends⟩
      | true =>
        simp only [Heap.filledSlots_of_filled hfill]
        -- Slots up to the parameter stay. Those after it hold the items, which are data.
        refine ⟨L, hL.modifySlots hfill (fun k hk => ?_) fun w hw => ?_, trivial⟩
        · obtain rfl : m = k := by simpa [hf] using hk
          have hle := (hL.slots f m hf).2
          simp only [Array.size_append, Array.take_eq_extract, Array.size_extract, List.size_toArray]
          omega
        · rcases Array.mem_append.1 hw with hw | hw
          · refine hL.visible f w ?_
            obtain ⟨i, hlt, rfl⟩ := Array.mem_extract_iff_getElem.1 hw
            exact Array.getElem_mem _
          · exact hL.elements? hv hitems w (by simpa using hw)

/-- What is left to show about a heap with a first component replaced. -/
theorem Fits.setCar_of (hL : L.Fits h) {id : PairId} {v : Value}
    (hcar : ∀ i, L.own i → (h.setCar id v).car i = h.car i ∨ L.Patched h (h.setCar id v) i)
    (hdata : L.data id → L.Visible v)
    (hop : ∀ code, (h.setCar id v).car id = .op code → ∃ before, h.car id = .op before) :
    Extends n L h L (h.setCar id v) := by
  have hg : Grows n L h L (h.setCar id v) :=
    { within := .refl L
      cdr := fun _ _ => rfl
      car := hcar
      pairs := Nat.le_of_eq Heap.pairCount_setCar.symm
      frames := Nat.le_refl _
      capacity := rfl
      dummies := fun _ _ _ hd => ⟨hd.valid, hd.empty, hd.size⟩ }
  refine ⟨hg, ?_, rfl, rfl, rfl⟩
  refine ⟨hL.apart, fun i hi => ?_, fun i hi => ?_, fun i hi => ?_, hL.slots, hL.visible,
    fun i code hi => ?_, ?_, hL.capacity⟩
  · obtain ⟨hlt, hcar, hcdr⟩ := hL.data i hi
    refine ⟨by rwa [Heap.pairCount_setCar], ?_, hcdr⟩
    -- The components of other pairs are as before.
    by_cases heq : i = id
    · subst heq
      rw [Heap.car_setCar h i v hlt]
      exact hdata hi
    · rwa [Heap.car_setCar_of_ne heq]
  · rw [Heap.pairCount_setCar]
    exact hL.own i hi
  · obtain ⟨ho, f, k, env, hcar, hshape, henv⟩ := hL.closure i hi
    refine ⟨ho, f, k, env, ?_, hshape, henv.grows hg⟩
    rw [hg.car_eq ho (by rw [hcar]; nofun), hcar]
  · obtain ⟨before, hbefore⟩ : ∃ before, h.car i = .op before := by
      by_cases heq : i = id
      · subst heq
        exact hop code hi
      · exact ⟨code, by rwa [Heap.car_setCar_of_ne heq] at hi⟩
    exact (hL.instructions i before hbefore).grows hbefore hg hi
  · change (h.setCar id v).pairCount + h.frames.size ≤ h.capacity
    rw [Heap.pairCount_setCar]
    exact hL.room

/-- Replacing the first component of a pair of data. -/
theorem Fits.setCar (hL : L.Fits h) {id : PairId} {v : Value} (hid : L.data id)
    (hv : L.Visible v) : Extends n L h L (h.setCar id v) := by
  refine hL.setCar_of (fun i hi => .inl (Heap.car_setCar_of_ne fun heq => ?_)) (fun _ => hv)
    fun code hop => ?_
  · exact hL.apart id hid (heq ▸ hi)
  · rw [Heap.car_setCar h id v (hL.data id hid).1] at hop
    subst hop
    exact hv.elim

/-- A call before a return is made a tail call. -/
theorem Fits.patch (hL : L.Fits h) {id : PairId} {v k : Value} (hid : L.own id)
    (hop : h.car id = .op .ap ∨ h.car id = .op .tap) (hv : L.Operands h [v] (h.cdr id) k)
    (hk : L.Returns h k) : Extends n L h L (h.setCar id (.op .tap)) := by
  have htap : (h.setCar id (.op .tap)).car id = .op .tap := Heap.car_setCar h id _ (hL.own id hid)
  have hbefore : ∃ before, h.car id = .op before := hop.elim (⟨_, ·⟩) (⟨_, ·⟩)
  rcases hop with hap | hsame
  · refine hL.setCar_of (fun i hi => ?_) (fun hd => absurd hid (hL.apart id hd)) fun _ _ => hbefore
    by_cases heq : i = id
    · subst heq
      have hkeeps : L.Keeps h L (h.setCar i (.op .tap)) :=
        ⟨fun _ ho => ho, fun _ _ => rfl, fun j _ hj => Heap.car_setCar_of_ne fun heq => hj (heq ▸ hap)⟩
      exact .inr ⟨hap, htap, v, k, hv.keeps hkeeps, hk.keeps hkeeps⟩
    · exact .inl (Heap.car_setCar_of_ne heq)
  · refine hL.setCar_of (fun i hi => .inl ?_) (fun hd => absurd hid (hL.apart id hd))
      fun _ _ => hbefore
    by_cases heq : i = id
    · subst heq
      rw [htap, hsame]
    · exact Heap.car_setCar_of_ne heq

/-- Replacing the second component of a pair of data. -/
theorem Fits.setCdr (hL : L.Fits h) {id : PairId} {v : Value} (hid : L.data id)
    (hv : L.Visible v) : Extends n L h L (h.setCdr id v) := by
  -- A pair of data is no pair of the interpreter's own, so no code and no environment is changed.
  have hne : ∀ i, L.own i → i ≠ id := fun i hi heq => hL.apart id hid (heq ▸ hi)
  have hg : Grows n L h L (h.setCdr id v) :=
    { within := .refl L
      cdr := fun i hi => Heap.cdr_setCdr_of_ne (hne i hi)
      car := fun _ _ => .inl rfl
      pairs := Nat.le_refl _
      frames := Nat.le_refl _
      capacity := rfl
      dummies := fun _ _ _ hd => ⟨hd.valid, hd.empty, hd.size⟩ }
  refine ⟨hg,
    { hL with
      data := fun i hi => ?_
      closure := fun i hi => ?_
      instructions := fun i code hi => (hL.instructions i code hi).grows hi hg hi }, rfl, rfl, rfl⟩
  · obtain ⟨hlt, hcar, hcdr⟩ := hL.data i hi
    refine ⟨hlt, hcar, ?_⟩
    by_cases heq : i = id
    · subst heq
      rwa [Heap.cdr_setCdr h i v hlt]
    · rwa [Heap.cdr_setCdr_of_ne heq]
  · obtain ⟨ho, f, k, env, hcar, hshape, henv⟩ := hL.closure i hi
    refine ⟨ho, f, k, env, hcar, hshape, ?_⟩
    rw [Heap.cdr_setCdr_of_ne (hne i ho)]
    exact henv.grows hg

end Layout

end StackLisp
