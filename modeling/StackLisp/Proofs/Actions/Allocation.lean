import StackLisp.Proofs.Outcome

/-!
# New pairs and frames

The heap has a capacity, and whatever makes pairs or frames fails when it is reached.
An action that is given room for `n` of them, and makes them, leaves a heap that has
*gained* `n` (`Heap.Gains`); without the room it *overflows* (`Heap.Overflows`), and the
heap that it leaves is then full.

* `Heap.leads_cons_iff`, `Heap.leads_alloc_iff`, `Heap.leads_allocRaw_iff`: what making
  one pair or one frame leads to;
* `Heap.leads_listWithTail_gains`: a list takes a pair for every element;
* `Heap.leads_argumentEnv_gains`: so do the arguments of a call, which go into one frame.
-/

namespace StackLisp

open Interpreter

namespace Heap

/-! ## One pair, one frame -/

section

variable {a d : Value} {h : Heap} {err : Failure → Heap → Prop}

/-- A pair is made at the end of the heap if there is room for it. -/
theorem leads_alloc_iff {ok : PairId → Heap → Prop} :
    Leads (alloc a d) h ok err ↔
      if h.hasRoom then ok ⟨h.pairCount⟩ (h.push a d) else err (.error .heapOverflow) h := by
  unfold Leads alloc
  cases h.hasRoom <;> rfl

/-- The value that is made is that pair. -/
theorem leads_cons_iff {ok : Value → Heap → Prop} :
    Leads (cons a d) h ok err ↔
      if h.hasRoom then ok (.pair ⟨h.pairCount⟩) (h.push a d) else err (.error .heapOverflow) h := by
  unfold cons
  rw [leads_bind, leads_alloc_iff]
  rfl

/-- A frame is made in the same way, and takes room of its own. -/
theorem leads_allocRaw_iff {frame : Frame} {ok : FrameId → Heap → Prop} :
    Leads (allocRaw frame) h ok err ↔
      if h.hasRoom then ok ⟨h.frames.size⟩ { h with frames := h.frames.push frame }
      else err (.error .heapOverflow) h := by
  unfold Leads allocRaw
  cases h.hasRoom <;> rfl

end

/-! ## Heaps that have grown -/

/-- The heap has the pairs of an earlier one, and possibly more. -/
structure Extended (h h' : Heap) : Prop where
  pairCount : h.pairCount ≤ h'.pairCount
  car : ∀ id : PairId, id.index < h.pairCount → h'.car id = h.car id
  cdr : ∀ id : PairId, id.index < h.pairCount → h'.cdr id = h.cdr id

theorem Extended.refl (h : Heap) : h.Extended h := ⟨Nat.le_refl _, fun _ _ => rfl, fun _ _ => rfl⟩

theorem Extended.trans {h h' h'' : Heap} (e : h.Extended h') (e' : h'.Extended h'') :
    h.Extended h'' where
  pairCount := Nat.le_trans e.pairCount e'.pairCount
  car id hid := (e'.car id (Nat.lt_of_lt_of_le hid e.pairCount)).trans (e.car id hid)
  cdr id hid := (e'.cdr id (Nat.lt_of_lt_of_le hid e.pairCount)).trans (e.cdr id hid)

/-- The new pair comes after all others. -/
theorem extended_push (h : Heap) (a d : Value) : h.Extended (h.push a d) where
  pairCount := by simp [Heap.pairCount, Heap.push]
  car id hid := by
    simp only [Heap.pairCount] at hid
    simp [Heap.car, Heap.push, Array.getElem?_push, Nat.ne_of_lt hid]
  cdr id hid := by
    rw [Heap.pairCount, ← h.size_cdrs] at hid
    simp [Heap.cdr, Heap.push, Array.getElem?_push, Nat.ne_of_lt hid]

/-- There is room for `n` more pairs. -/
def RoomFor (n : Nat) (h : Heap) : Prop := n = 0 ∨ h.size + n ≤ h.capacity

/-- The heap has got `n` more pairs, for which there was room, and the others are as
    they were. -/
structure Gains (n : Nat) (h h' : Heap) : Prop where
  size : h'.size = h.size + n
  capacity : h'.capacity = h.capacity
  room : h.RoomFor n
  pairCount : h.pairCount ≤ h'.pairCount
  car : ∀ id : PairId, id.index < h.pairCount → h'.car id = h.car id
  cdr : ∀ id : PairId, id.index < h.pairCount → h'.cdr id = h.cdr id

/-- Room for one more pair is what the allocator asks for. -/
theorem roomFor_one {h : Heap} : h.RoomFor 1 ↔ h.hasRoom = true := by
  simp only [RoomFor, hasRoom, Nat.one_ne_zero, false_or, decide_eq_true_eq]
  omega

namespace Gains

variable {m n : Nat} {h h' h'' : Heap}

/-- Where nothing is made, no room is asked for. -/
theorem refl (h : Heap) : Gains 0 h h where
  size := rfl
  capacity := rfl
  room := .inl rfl
  pairCount := Nat.le_refl _
  car _ _ := rfl
  cdr _ _ := rfl

/-- A heap that has gained pairs has the ones it had. -/
theorem extended (g : Gains n h h') : h.Extended h' := ⟨g.pairCount, g.car, g.cdr⟩

/-- What is gained in two steps had room together. -/
theorem trans (g : Gains m h h') (g' : Gains n h' h'') : Gains (m + n) h h'' where
  size := by rw [g'.size, g.size, Nat.add_assoc]
  capacity := g'.capacity.trans g.capacity
  room := by
    have hm := g.room
    have hn := g'.room
    simp only [RoomFor, g.size, g.capacity] at *
    omega
  pairCount := (g.extended.trans g'.extended).pairCount
  car := (g.extended.trans g'.extended).car
  cdr := (g.extended.trans g'.extended).cdr

/-- One pair is gained by making it. -/
theorem push (hroom : h.hasRoom = true) (a d : Value) : Gains 1 h (h.push a d) where
  size := by
    simp only [Heap.size, Heap.pairCount, Heap.push, Array.size_push]
    omega
  capacity := rfl
  room := roomFor_one.2 hroom
  pairCount := (h.extended_push a d).pairCount
  car := (h.extended_push a d).car
  cdr := (h.extended_push a d).cdr

/-- A frame takes as much room as a pair. -/
theorem pushFrame (hroom : h.hasRoom = true) (frame : Frame) :
    Gains 1 h { h with frames := h.frames.push frame } where
  size := by
    simp only [Heap.size, Heap.pairCount, Array.size_push]
    omega
  capacity := rfl
  room := roomFor_one.2 hroom
  pairCount := Nat.le_refl _
  car _ _ := rfl
  cdr _ _ := rfl

end Gains

/-! ## Heaps without room -/

/-- The failure of an action for which the heap has to have room for `n` pairs. -/
def Overflows (n : Nat) (h : Heap) (e : Failure) : Prop :=
  e = .error .heapOverflow ∧ ¬h.RoomFor n

section

variable {m n : Nat} {h h' : Heap} {e : Failure}

/-- Where there is no room for some pairs, there is none for more. -/
theorem Overflows.mono (he : h.Overflows m e) (hle : m ≤ n) : h.Overflows n e :=
  ⟨he.1, fun room => he.2 (room.imp (by omega) (by omega))⟩

/-- A failure after `m` pairs were gained. -/
theorem Overflows.after (he : h'.Overflows n e) (g : Gains m h h') : h.Overflows (m + n) e := by
  refine ⟨he.1, fun room => he.2 ?_⟩
  unfold RoomFor at *
  rw [g.size, g.capacity]
  omega

/-- The heap is full. -/
theorem overflows_one (hroom : ¬h.hasRoom = true) : h.Overflows 1 (.error .heapOverflow) :=
  ⟨rfl, fun room => hroom (roomFor_one.1 room)⟩

end

/-- An action that needs room for `n` pairs or frames has failed, with some of them made and no
    room for another one. -/
structure OutOfRoom (n : Nat) (h : Heap) (e : Failure) (h' : Heap) : Prop where
  overflows : h.Overflows n e
  extended : h.Extended h'
  full : ¬h'.RoomFor 1

section

variable {m n : Nat} {h h' h'' : Heap} {e : Failure}

theorem outOfRoom_one (hroom : ¬h.hasRoom = true) : h.OutOfRoom 1 (.error .heapOverflow) h :=
  ⟨overflows_one hroom, .refl h, fun room => hroom (roomFor_one.1 room)⟩

/-- An action that fails for want of some room fails for want of more. -/
theorem OutOfRoom.mono (he : h.OutOfRoom m e h') (hle : m ≤ n) : h.OutOfRoom n e h' :=
  { he with overflows := he.overflows.mono hle }

/-- The pairs that were gained before are still there. -/
theorem OutOfRoom.after (he : h'.OutOfRoom n e h'') (g : Gains m h h') : h.OutOfRoom (m + n) e h'' :=
  ⟨he.overflows.after g, g.extended.trans he.extended, he.full⟩

end

/-- The action gains the pair that it makes, or finds the heap full. -/
theorem leads_cons_gains (a d : Value) (h : Heap) :
    Leads (cons a d) h (fun _ h' => h.Gains 1 h') fun e h' => h.OutOfRoom 1 e h' := by
  rw [leads_cons_iff]
  split
  · next hroom => exact .push hroom a d
  · next hroom => exact outOfRoom_one hroom

/-- So does the making of a frame. -/
theorem leads_allocRaw_gains (frame : Frame) (h : Heap) :
    Leads (allocRaw frame) h (fun _ h' => h.Gains 1 h') fun e h' => h.OutOfRoom 1 e h' := by
  rw [leads_allocRaw_iff]
  split
  · next hroom => exact .pushFrame hroom frame
  · next hroom => exact outOfRoom_one hroom

/-- A list is made from its end on, a pair for every element. -/
theorem leads_listWithTail_gains (vs : List Value) (tail : Value) (h : Heap) :
    Leads (listWithTail vs tail) h (fun _ h' => h.Gains vs.length h')
      fun e h' => h.OutOfRoom vs.length e h' := by
  induction vs with
  | nil => exact .refl h
  | cons v vs ih =>
    change Leads (List.foldrM cons tail (v :: vs)) h _ _
    rw [List.foldrM_cons, leads_bind]
    refine ih.mono (fun rest h' g => ?_) fun e _ he => he.mono (Nat.le_succ _)
    exact (leads_cons_gains v rest h').mono (fun _ _ g' => g.trans g') fun _ _ he => he.after g

/-- The arguments of a call take a frame, and a pair for the environment. -/
theorem leads_argumentEnv_gains (args : List Value) (h : Heap) :
    Leads (argumentEnv args) h (fun _ h' => h.Gains (if args.isEmpty then 0 else 2) h')
      fun e h' => h.OutOfRoom (if args.isEmpty then 0 else 2) e h' := by
  unfold argumentEnv
  cases args.isEmpty with
  | true => exact .refl h
  | false =>
    simp only [Bool.false_eq_true, if_false]
    rw [leads_bind]
    refine (leads_allocRaw_gains _ h).mono (fun f h' g => ?_) fun e _ he => he.mono (Nat.le_succ _)
    exact (leads_cons_gains _ _ h').mono (fun _ _ g' => g.trans g') fun _ _ he => he.after g

end Heap

end StackLisp
