import StackLisp.Proofs.Safety.Access

/-!
# Unwinding

How levels of a trail are left by force. A `Snapshot` is what a machine comes back
to: the heights of its registers, an environment and a piece of code. Restoring it
cuts the registers, ends the dynamic bindings made since, and puts a value on the
stack.

* `unwindBindings_eq`: ending bindings puts the value cells back, the innermost
  first (`SymbolTable.restoreAll`);
* `Unwinds.restore_eq`: a machine that has left some levels already comes back to
  the same state.
-/

namespace StackLisp

open Interpreter Layout Machine

/-! ## Bindings -/

/-- Puts value cells back, the first one first. -/
def SymbolTable.restoreAll (saved : List SavedValue) (t : SymbolTable) : SymbolTable :=
  saved.foldl (fun t x => (t.restoreValue x.symbol x.value).exitBinding x.symbol) t

@[simp]
theorem SymbolTable.restoreAll_nil (t : SymbolTable) : t.restoreAll [] = t := rfl

theorem SymbolTable.restoreAll_cons (x : SavedValue) (xs : List SavedValue) (t : SymbolTable) :
    t.restoreAll (x :: xs) =
      ((t.restoreValue x.symbol x.value).exitBinding x.symbol).restoreAll xs := rfl

/-- Putting back in two parts. -/
theorem SymbolTable.restoreAll_append (xs ys : List SavedValue) (t : SymbolTable) :
    t.restoreAll (xs ++ ys) = (t.restoreAll xs).restoreAll ys := by
  simp [restoreAll]

/-- One value cell is put back, and the symbol has a binding less. -/
theorem restore_eq (x : SavedValue) (s : Interpreter) :
    restore x s = .ok () { s with image.symbols := s.image.symbols.restoreAll [x] } := rfl

/-- One after the other, by recursion on the bindings. -/
theorem forM_restore_eq :
    ∀ (xs : List SavedValue) (s : Interpreter),
      xs.forM restore s = .ok () { s with image.symbols := s.image.symbols.restoreAll xs }
  | [], _ => rfl
  | x :: xs, s => by
    have ih := forM_restore_eq xs { s with image.symbols := s.image.symbols.restoreAll [x] }
    change (restore x >>= fun _ => xs.forM restore) s = _
    simp only [bind, EStateM.bind, restore_eq, ih]
    rfl

/-- Ending bindings puts back what they have replaced. -/
theorem unwindBindings_eq {s : Interpreter} {popped rest : List SavedValue}
    (hs : s.machine.bindings.items = popped ++ rest) :
    unwindBindings rest.length s = .ok () { s with
      machine.bindings := s.machine.bindings.truncate rest.length
      image.symbols := s.image.symbols.restoreAll popped } := by
  have htake : s.machine.bindings.items.take (s.machine.bindings.height - rest.length) = popped := by
    simp [s.machine.bindings.height_eq, hs]
  have hforM := forM_restore_eq popped
    { s with machine.bindings := s.machine.bindings.truncate rest.length }
  simp only [unwindBindings, bind, EStateM.bind, view, modifyMachine_apply, htake, hforM]

/-- The symbols are the same, apart from their values and the notes of their bindings. -/
structure SymbolTable.Rebound (t t' : SymbolTable) : Prop where
  size : t'.size = t.size
  get : ∀ id, ∃ value bindingDepth, t'.get id = { t.get id with value, bindingDepth }

namespace SymbolTable.Rebound

variable {t t' t'' : SymbolTable} {id : SymbolId}

theorem refl (t : SymbolTable) : t.Rebound t := ⟨rfl, fun id => ⟨(t.get id).value, _, rfl⟩⟩

/-- Rebound twice is rebound. -/
theorem trans (h : t.Rebound t') (h' : t'.Rebound t'') : t.Rebound t'' where
  size := h'.size.trans h.size
  get id := by
    obtain ⟨v, d, heq⟩ := h.get id
    obtain ⟨v', d', heq'⟩ := h'.get id
    exact ⟨v', d', by rw [heq', heq]⟩

/-- A symbol may get another value, and another number of bindings. -/
theorem modify (t : SymbolTable) (id : SymbolId) {f : Symbol → Symbol}
    (hf : ∀ x, ∃ value bindingDepth, f x = { x with value, bindingDepth }) :
    t.Rebound (t.modify id f) where
  size := size_modify f
  get i := by
    rcases get_modify t id i f with heq | ⟨-, heq⟩
    · exact ⟨(t.get i).value, _, heq⟩
    · obtain ⟨v, d, hfx⟩ := hf (t.get i)
      exact ⟨v, d, heq.trans hfx⟩

theorem restoreValue (t : SymbolTable) (id : SymbolId) (value : Option Value) :
    t.Rebound (t.restoreValue id value) := modify t id fun x => ⟨value, x.bindingDepth, rfl⟩

/-- Putting value cells back leaves everything else of the symbols. -/
theorem restoreAll : ∀ (saved : List SavedValue) (t : SymbolTable), t.Rebound (t.restoreAll saved)
  | [], t => refl t
  | x :: xs, t =>
    (restoreValue t x.symbol x.value).trans ((modify _ x.symbol fun y => ⟨y.value, _, rfl⟩).trans
      (restoreAll xs _))

theorem isConstant (h : t.Rebound t') : t'.isConstant id = t.isConstant id := by
  obtain ⟨v, d, heq⟩ := h.get id
  rw [SymbolTable.isConstant, heq, SymbolTable.isConstant]

theorem cell (h : t.Rebound t') : t'.cell id = t.cell id := by
  obtain ⟨v, d, heq⟩ := h.get id
  rw [SymbolTable.cell, heq, SymbolTable.cell]

/-- So the table keeps its symbols. -/
theorem keeps (h : t.Rebound t') : t.Keeps t' := by
  refine ⟨Nat.le_of_eq h.size.symm, fun id _ => ?_⟩
  obtain ⟨v, d, heq⟩ := h.get id
  rw [heq]
  exact ⟨rfl, rfl, rfl, fun h => h⟩

/-- The first ones are still the first ones. -/
theorem headed (h : t.Rebound t') (ht : t.Headed) : t'.Headed := by
  have hname (id : SymbolId) : t'.name id = t.name id := by
    obtain ⟨v, d, heq⟩ := h.get id
    rw [SymbolTable.name, heq, SymbolTable.name]
  exact ⟨h.size ▸ ht.size, (hname .nil).trans ht.nil, (hname .t).trans ht.t⟩

end SymbolTable.Rebound

namespace SymbolTable

variable {t : SymbolTable}

/-- The value of a symbol is its own then, or one that was put back. -/
theorem value_restoreAll (saved : List SavedValue) (id : SymbolId) :
    ((t.restoreAll saved).get id).value = (t.get id).value ∨
      ∃ x ∈ saved, ((t.restoreAll saved).get id).value = x.value := by
  induction saved generalizing t with
  | nil => exact .inl rfl
  | cons x saved ih =>
    rw [restoreAll_cons]
    rcases ih (t := (t.restoreValue x.symbol x.value).exitBinding x.symbol) with heq | ⟨y, hy, heq⟩
    · have hexit : (((t.restoreValue x.symbol x.value).exitBinding x.symbol).get id).value =
          ((t.restoreValue x.symbol x.value).get id).value := by
        rcases get_modify (t.restoreValue x.symbol x.value) x.symbol id
          (fun s => { s with bindingDepth := s.bindingDepth - 1 }) with heq | ⟨-, heq⟩ <;>
        rw [exitBinding, heq]
      rw [heq, hexit]
      rcases get_modify t x.symbol id (fun s => { s with value := x.value }) with heq | ⟨-, heq⟩
      · exact .inl (congrArg Symbol.value heq)
      · exact .inr ⟨x, List.mem_cons_self, congrArg Symbol.value heq⟩
    · exact .inr ⟨y, List.mem_cons_of_mem _ hy, heq⟩

/-- The bindings that are left are counted. -/
theorem Counts.restoreAll {popped below : List SavedValue} (ht : t.Counts (popped ++ below)) :
    (t.restoreAll popped).Counts below := by
  induction popped generalizing t with
  | nil => exact ht
  | cons x popped ih =>
    rw [restoreAll_cons]
    have hvalue : (t.restoreValue x.symbol x.value).Counts (x :: popped ++ below) := ht.modify rfl
    exact ih hvalue.exitBinding

/-- Bindings that are ended were of no constants. -/
theorem Consistent.restoreAll {saved : List SavedValue} (ht : t.Consistent)
    (hsaved : ∀ x ∈ saved, t.isSpecial x.symbol) : (t.restoreAll saved).Consistent := by
  induction saved generalizing t with
  | nil => exact ht
  | cons x saved ih =>
    rw [restoreAll_cons]
    have hspecial := hsaved x List.mem_cons_self
    have hvalue : (t.get x.symbol).Keeps { t.get x.symbol with value := x.value } :=
      ⟨rfl, rfl, rfl, fun h => h⟩
    have ht₁ : (t.restoreValue x.symbol x.value).Consistent :=
      ht.modify (ht.notConstant hspecial) hvalue
    have hkeeps₁ : t.Keeps (t.restoreValue x.symbol x.value) := .modify hvalue
    have hdepth {y : Symbol} : y.Keeps { y with bindingDepth := y.bindingDepth - 1 } :=
      ⟨rfl, rfl, rfl, fun h => h⟩
    refine ih (ht₁.modify (ht₁.notConstant (hkeeps₁.isSpecial hspecial)) hdepth) fun y hy => ?_
    exact (Keeps.modify hdepth).isSpecial
      (hkeeps₁.isSpecial (hsaved y (List.mem_cons_of_mem _ hy)))

end SymbolTable

/-- Ending bindings leaves the interpreter in order. -/
theorem Sound.unwind {L : Layout} {s : Interpreter} (hs : Sound L s)
    {popped below : List SavedValue} (hitems : s.machine.bindings.items = popped ++ below)
    {m : Machine} (hm : m.bindings.items = below) :
    Sound L { s with image.symbols := s.image.symbols.restoreAll popped, machine := m } := by
  have hvisible : ∀ x ∈ popped ++ below, ∀ v, x.value = some v → L.Visible v :=
    hitems ▸ hs.bindings
  have hrebound := SymbolTable.Rebound.restoreAll popped s.image.symbols
  have hbound : ∀ x ∈ popped ++ below, s.image.symbols.isSpecial x.symbol := hitems ▸ hs.bound
  refine hs.rebind (fun id v hv => ?_) (fun id f hf => ?_) hrebound.keeps (hrebound.headed hs.headed)
    (hs.consistent.restoreAll fun x hx => hbound x (List.mem_append_left _ hx)) (fun x hx => ?_)
    (fun x hx => ?_) ?_
  · rcases SymbolTable.value_restoreAll popped id with heq | ⟨x, hx, heq⟩
    · exact hs.values id v (heq ▸ hv)
    · exact hvisible x (List.mem_append_left _ hx) v (heq ▸ hv)
  · rw [hrebound.cell] at hf
    exact hs.cells id f hf
  · exact hvisible x (List.mem_append_right _ (hm ▸ hx))
  · exact hrebound.keeps.isSpecial (hbound x (List.mem_append_right _ (hm ▸ hx)))
  · rw [hm]
    exact (hitems ▸ hs.counts : s.image.symbols.Counts (popped ++ below)).restoreAll

/-! ## Snapshots -/

/-- What a machine can come back to: its environment, the code to go on with, and the
    heights of its registers. -/
structure Snapshot where
  env : Value
  control : Value
  stack : Nat
  dump : Nat
  exits : Nat
  bindings : Nat
deriving DecidableEq, Repr

/-- Comes back with a value. -/
def Snapshot.restore (p : Snapshot) (v : Value) : LispM Unit := do
  modifyMachine fun m =>
    { m with
      env := p.env
      control := p.control
      stack := (m.stack.truncate p.stack).push v
      dump := m.dump.truncate p.dump
      exits := m.exits.truncate p.exits }
  unwindBindings p.bindings

/-- The state that a machine comes back to. -/
theorem Snapshot.restore_eq (p : Snapshot) (v : Value) {s : Interpreter}
    {popped below : List SavedValue} (hs : s.machine.bindings.items = popped ++ below)
    (hp : p.bindings = below.length) :
    p.restore v s = .ok () { s with
      image.symbols := s.image.symbols.restoreAll popped
      machine := { s.machine with
        env := p.env
        control := p.control
        stack := (s.machine.stack.truncate p.stack).push v
        dump := s.machine.dump.truncate p.dump
        exits := s.machine.exits.truncate p.exits
        bindings := s.machine.bindings.truncate p.bindings } } := by
  have hunwind := unwindBindings_eq (s := { s with
    machine := { s.machine with
      env := p.env
      control := p.control
      stack := (s.machine.stack.truncate p.stack).push v
      dump := s.machine.dump.truncate p.dump
      exits := s.machine.exits.truncate p.exits } }) hs
  rw [← hp] at hunwind
  exact hunwind

/-- The machine as it was when a level was entered, on its way out of it. -/
def Level.snapshot (l : Level) (r : Nat) (K : Trail) : Snapshot where
  env := l.outer
  control := l.next
  stack := (Trail.operands (l :: K)).length
  dump := K.depth
  exits := (K.exits r).length
  bindings := K.saved.length + r

namespace Stack

variable {α : Type} {s t : Stack α}

/-- What is cut down to the height of a part is the part that is below. -/
theorem truncate_of_suffix {k : Nat} (h : t.items <:+ s.items) (hk : k ≤ t.height) :
    t.truncate k = s.truncate k := by
  obtain ⟨top, h⟩ := h
  ext1
  have hlen : s.height - k = top.length + (t.height - k) := by
    rw [t.height_eq] at hk ⊢
    rw [s.height_eq, ← h, List.length_append]
    omega
  simp [truncate, hlen, ← h, List.drop_append]

end Stack

/-- The second state is the first after some levels have been left. -/
structure Unwinds (s s' : Interpreter) : Prop where
  same : s' = { s with
    image.symbols := s'.image.symbols
    machine := { s.machine with
      env := s'.machine.env
      control := s'.machine.control
      dump := s'.machine.dump
      exits := s'.machine.exits
      bindings := s'.machine.bindings } }
  dump : s'.machine.dump.items <:+ s.machine.dump.items
  exits : s'.machine.exits.items <:+ s.machine.exits.items
  bindings : ∃ popped, s.machine.bindings.items = popped ++ s'.machine.bindings.items ∧
    s'.image.symbols = s.image.symbols.restoreAll popped

/-- Leaving some levels before makes no difference. -/
theorem Unwinds.restore_eq {s s' : Interpreter} (hu : Unwinds s s') {p : Snapshot} {v : Value}
    (hdump : p.dump ≤ s'.machine.dump.height) (hexits : p.exits ≤ s'.machine.exits.height)
    (hbindings : p.bindings ≤ s'.machine.bindings.height) :
    p.restore v s' = p.restore v s := by
  obtain ⟨popped, hitems, hsymbols⟩ := hu.bindings
  obtain ⟨popped', below, hsplit, hp⟩ : ∃ popped' below,
      s'.machine.bindings.items = popped' ++ below ∧ p.bindings = below.length := by
    refine ⟨_, _, (List.take_append_drop (s'.machine.bindings.height - p.bindings) _).symm, ?_⟩
    rw [List.length_drop, ← s'.machine.bindings.height_eq]
    omega
  have hsplit' : s.machine.bindings.items = (popped ++ popped') ++ below := by
    rw [hitems, hsplit, List.append_assoc]
  rw [Snapshot.restore_eq _ _ hsplit hp, Snapshot.restore_eq _ _ hsplit' hp,
    Stack.truncate_of_suffix hu.dump hdump, Stack.truncate_of_suffix hu.exits hexits,
    Stack.truncate_of_suffix ⟨popped, hitems.symm⟩ hbindings, hsymbols,
    SymbolTable.restoreAll_append, hu.same]

end StackLisp
