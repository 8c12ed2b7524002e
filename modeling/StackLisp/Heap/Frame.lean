import StackLisp.Heap.Spine

/-!
# Frames

The slots of an activation. A dummy frame refuses to be read or written until
it is filled, which happens once. A rest parameter has no slot of its own: it is
the list of all slots from its position on, made afresh on every reading, and
assigning it replaces those slots.
-/

namespace StackLisp.Heap

/-- The frame at a position; positions never handed out hold a dummy frame. -/
def frameAt (h : Heap) (id : FrameId) : Frame := h.frames.getD id.index default

/-- The number of slots of a frame. -/
def frameSize (h : Heap) (id : FrameId) : Nat := (h.frameAt id).slots.size

/-- A new frame. -/
def allocRaw (frame : Frame) : HeapM FrameId := fun h =>
  if h.hasRoom then
    let id := ⟨h.frames.size⟩
    .ok id { h with frames := h.frames.push frame }
  else
    .error (.error .heapOverflow) h

/-- A new frame that holds `slots`. -/
def allocFrame (slots : List Value) : HeapM FrameId := allocRaw ⟨slots.toArray, true⟩

/-- A new dummy frame of `size` slots. -/
def allocDummyFrame (size : Nat) : HeapM FrameId := allocRaw ⟨Array.replicate size .nil, false⟩

/-- Fills a dummy frame of the right size. -/
def fillFrame (id : FrameId) (values : List Value) : HeapM Unit := fun h =>
  let frame := h.frameAt id
  if frame.filled then
    .error (.error (.fatal .frameAlreadyFilled)) h
  else if frame.slots.size ≠ values.length then
    .error (.error (.fatal (.frameSize values.length frame.slots.size))) h
  else
    .ok () { h with frames := h.frames.modify id.index fun _ => ⟨values.toArray, true⟩ }

/-- The slots of a frame that is filled. -/
def filledSlots (h : Heap) (id : FrameId) : Except Error (Array Value) :=
  let frame := h.frameAt id
  if frame.filled then .ok frame.slots else .error .uninitializedVariable

/-- The value in a slot. -/
def frameSlot (h : Heap) (id : FrameId) (slot : Nat) : Except Error Value := do
  match (← h.filledSlots id)[slot]? with
  | some v => .ok v
  | none => .error (.fatal (.slotOutOfRange slot))

/-- Replaces the slots of a frame. -/
def modifySlots (h : Heap) (id : FrameId) (f : Array Value → Array Value) : Heap :=
  { h with frames := h.frames.modify id.index fun frame => { frame with slots := f frame.slots } }

/-- Writes a slot. -/
def setFrameSlot (id : FrameId) (slot : Nat) (v : Value) : HeapM Unit := fun h =>
  match h.frameSlot id slot with
  | .ok _ => .ok () (h.modifySlots id (·.setIfInBounds slot v))
  | .error e => .error (.error e) h

/-- The rest parameter at `slot`: a new list of the slots from there on. -/
def frameRest (id : FrameId) (slot : Nat) : HeapM Value := fun h =>
  match h.filledSlots id with
  | .ok slots => list (slots.toList.drop slot) h
  | .error e => .error (.error e) h

/-- Assigns the rest parameter at `slot`, which can hold proper lists only. -/
def setFrameRest (id : FrameId) (slot : Nat) (v : Value) : HeapM Unit := fun h =>
  match h.elements? v with
  | .error e => .error e h
  | .ok none => .error (.error (.type .restNotList)) h
  | .ok (some items) =>
    match h.filledSlots id with
    | .error e => .error (.error e) h
    | .ok _ => .ok () (h.modifySlots id fun slots => slots.take slot ++ items.toArray)

end StackLisp.Heap
