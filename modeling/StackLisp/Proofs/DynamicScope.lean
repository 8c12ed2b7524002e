import StackLisp.Proofs.Binding

/-!
# Dynamic scope

The machine binds a variable by overwriting its value cell, and undoes that from a log
of saved values. Programs see something simpler, *deep binding*: a list of bindings in
front of global values, where a variable means its innermost binding, or else its
global value (`DeepBinding`).

* `Logged` relates a value cell and the log to the list of bindings, one variable at a
  time;
* each single action keeps the relation (`Represents.perform`), and so does any sequence
  of actions (`Represents.performAll`);
* `bindings_scope_dynamically`: every value cell always holds what deep binding says, and
  every symbol counts its own bindings. Leaving bindings keeps just the assignments to
  variables that were not bound inside (`DeepBinding.kept`).
-/

namespace StackLisp

open Interpreter Machine

/-! ## Deep binding -/

/-- What is done to variables and their dynamic bindings. -/
inductive ScopeAction where
  | bind (x : SymbolId) (v : Value)
  /-- Ends the innermost binding, which is one of `x`. -/
  | unbind (x : SymbolId)
  | assign (x : SymbolId) (v : Value)
  /-- Ends bindings until at most `height` are in force. -/
  | unwind (height : Nat)

/-- Bindings, the innermost first, in front of global values. -/
structure DeepBinding where
  bindings : List (SymbolId × Value)
  globals : SymbolId → Option Value

namespace DeepBinding

/-- The value of a variable: that of its innermost binding, or else its global value. -/
def value (d : DeepBinding) (x : SymbolId) : Option Value :=
  (d.bindings.lookup x).or (d.globals x)

/-- Changes the innermost binding of a variable. -/
def assignInnermost (x : SymbolId) (v : Value) : List (SymbolId × Value) → List (SymbolId × Value)
  | [] => []
  | (y, w) :: bindings =>
    if y = x then (y, v) :: bindings else (y, w) :: assignInnermost x v bindings

/-- Changes the innermost binding of a variable, or else its global value. -/
def assign (d : DeepBinding) (x : SymbolId) (v : Value) : DeepBinding :=
  { bindings := assignInnermost x v d.bindings
    globals := fun y => if y = x ∧ d.bindings.lookup x = none then some v else d.globals y }

/-- Without the `n` innermost bindings. -/
def leave (d : DeepBinding) (n : Nat) : DeepBinding := { d with bindings := d.bindings.drop n }

/-- What an action does; nothing ends a binding of another variable than the innermost. -/
def act (d : DeepBinding) : ScopeAction → Option DeepBinding
  | .bind x v => some { d with bindings := (x, v) :: d.bindings }
  | .unbind x => if (d.bindings.head?.map Prod.fst) = some x then some (d.leave 1) else none
  | .assign x v => some (d.assign x v)
  | .unwind height => some (d.leave (d.bindings.length - height))

/-- What several actions do, one after the other. -/
def actAll (d : DeepBinding) (actions : List ScopeAction) : Option DeepBinding :=
  actions.foldlM act d

/-- The number of bindings never goes below a height. -/
def StaysAbove (height : Nat) (d : DeepBinding) (actions : List ScopeAction) : Prop :=
  ∀ before d', before <+: actions → d.actAll before = some d' → height ≤ d'.bindings.length

/-- Whether it is an assignment of a variable of which no binding is in force above a
    height. -/
def keeps (height : Nat) (d : DeepBinding) : ScopeAction → Bool
  | .assign x _ => ((d.bindings.take (d.bindings.length - height)).lookup x).isNone
  | _ => false

/-- Those of the actions that assign a variable while no binding of it is in force above a
    height. -/
def kept (height : Nat) : DeepBinding → List ScopeAction → List ScopeAction
  | _, [] => []
  | d, action :: actions =>
    let others := match d.act action with
      | some d' => kept height d' actions
      | none => []
    if d.keeps height action then action :: others else others

variable {d d' : DeepBinding} {x y : SymbolId} {v : Value} {bs cs : List (SymbolId × Value)}

theorem map_fst_assignInnermost : (assignInnermost x v bs).map Prod.fst = bs.map Prod.fst := by
  induction bs with
  | nil => rfl
  | cons b bs ih =>
    rw [assignInnermost]
    split <;> simp [ih]

theorem length_assignInnermost : (assignInnermost x v bs).length = bs.length := by
  have hmap : (assignInnermost x v bs).map Prod.fst = bs.map Prod.fst := map_fst_assignInnermost
  simpa using congrArg List.length hmap

/-- An assignment is seen below the `n` innermost bindings if the variable is not among
    these. -/
theorem drop_assignInnermost (n : Nat) : (assignInnermost x v bs).drop n =
    if (bs.take n).lookup x = none then assignInnermost x v (bs.drop n) else bs.drop n := by
  induction bs generalizing n with
  | nil => simp [assignInnermost]
  | cons b bs ih =>
    obtain ⟨y, w⟩ := b
    cases n with
    | zero => simp
    | succ n =>
      by_cases hy : y = x
      · subst hy
        simp [assignInnermost]
      · have hxy : (x == y) = false := beq_false_of_ne (Ne.symm hy)
        simp only [assignInnermost, if_neg hy, List.drop_succ_cons, ih, List.take_succ_cons,
          List.lookup_cons, hxy]

theorem leave_assign (n : Nat) : (d.assign x v).leave n =
    if (d.bindings.take n).lookup x = none then (d.leave n).assign x v else d.leave n := by
  obtain ⟨bindings, globals⟩ := d
  have hlookup : bindings.lookup x =
      ((bindings.take n).lookup x).or ((bindings.drop n).lookup x) := by
    rw [← List.lookup_append, List.take_append_drop]
  simp only [leave, assign, drop_assignInnermost, hlookup]
  cases (bindings.take n).lookup x with
  | none => rfl
  | some w => simp

theorem leave_zero : d.leave 0 = d := rfl

theorem leave_leave (m n : Nat) : (d.leave m).leave n = d.leave (m + n) := by
  simp [leave]

theorem mem_of_mem_kept {height : Nat} {actions : List ScopeAction} {a : ScopeAction}
    (ha : a ∈ kept height d actions) : a ∈ actions := by
  induction actions generalizing d with
  | nil => exact ha
  | cons action actions ih =>
    have hothers : a ∈ (match d.act action with
        | some d' => kept height d' actions
        | none => []) → a ∈ action :: actions := by
      split
      · exact fun h => List.mem_cons_of_mem _ (ih h)
      · exact nofun
    rw [kept] at ha
    split at ha
    · rcases List.mem_cons.1 ha with rfl | ha
      · exact List.mem_cons_self
      · exact hothers ha
    · exact hothers ha

/-- Leaving the bindings above a height keeps the assignments to variables not bound there,
    and nothing else. -/
theorem actAll_kept {height : Nat} {actions : List ScopeAction} (habove : StaysAbove height d actions)
    (hact : d.actAll actions = some d') :
    (d.leave (d.bindings.length - height)).actAll (kept height d actions) =
      some (d'.leave (d'.bindings.length - height)) := by
  -- The induction is on the actions. What is left of the state after leaving everything above
  -- `height` only changes with the actions that are kept.
  induction actions generalizing d with
  | nil =>
    cases hact
    rfl
  | cons action actions ih =>
    rw [actAll, List.foldlM_cons] at hact
    obtain ⟨d₁, hd₁, hact⟩ := Option.bind_eq_some_iff.1 hact
    have habove₁ : StaysAbove height d₁ actions := fun before d₂ hbefore hd₂ =>
      habove (action :: before) d₂ ((List.prefix_cons_inj action).2 hbefore) (by
        rw [actAll, List.foldlM_cons, hd₁]
        exact hd₂)
    have hlength : height ≤ d.bindings.length := habove [] d List.nil_prefix rfl
    have hlength₁ : height ≤ d₁.bindings.length := habove₁ [] d₁ List.nil_prefix rfl
    have ih := ih habove₁ hact
    rw [kept, hd₁]
    dsimp only
    -- A binding is left again, and an assignment is kept only if it does not hit one that is left.
    cases action with
    | bind x v =>
      cases hd₁
      have hleave : ({ d with bindings := (x, v) :: d.bindings } : DeepBinding).leave
          (d.bindings.length + 1 - height) = d.leave (d.bindings.length - height) := by
        rw [Nat.succ_sub hlength]
        rfl
      rwa [List.length_cons, hleave] at ih
    | unbind x =>
      simp only [act] at hd₁
      split at hd₁
      · next hhead =>
        cases hd₁
        have hpos : 0 < d.bindings.length := by
          refine List.length_pos_iff.2 fun hnil => ?_
          rw [hnil] at hhead
          cases hhead
        rw [leave_leave] at ih
        simp only [leave, List.length_drop] at ih hlength₁ ⊢
        have hsum : 1 + (d.bindings.length - 1 - height) = d.bindings.length - height := by omega
        rwa [hsum] at ih
      · cases hd₁
    | unwind lower =>
      cases hd₁
      rw [leave_leave] at ih
      simp only [leave, List.length_drop] at ih hlength₁ ⊢
      have hsum : d.bindings.length - lower +
          (d.bindings.length - (d.bindings.length - lower) - height) =
          d.bindings.length - height := by omega
      rwa [hsum] at ih
    | assign x v =>
      cases hd₁
      have hsame : (d.assign x v).bindings.length = d.bindings.length := length_assignInnermost
      rw [hsame, leave_assign] at ih
      simp only [keeps, Option.isNone_iff_eq_none]
      split
      · next hlookup =>
        rw [if_pos hlookup] at ih
        rw [actAll, List.foldlM_cons]
        exact ih
      · next hlookup => rwa [if_neg hlookup] at ih

end DeepBinding

/-! ## The log of saved values -/

/-- A value cell and the log, against the bindings and the global value of `x`. An entry of
    the log that is one of `x` saves what the cell has to hold once its binding is ended. -/
def Logged (x : SymbolId) (globalValue : Option Value) :
    Option Value → List SavedValue → List (SymbolId × Value) → Prop
  | cell, [], [] => cell = globalValue
  | cell, saved :: log, (y, v) :: bindings =>
    saved.symbol = y ∧
      if y = x then cell = some v ∧ Logged x globalValue saved.value log bindings
      else Logged x globalValue cell log bindings
  | _, _, _ => False

namespace Logged

variable {x y : SymbolId} {g cell : Option Value} {v : Value} {log : List SavedValue}
  {bindings : List (SymbolId × Value)}

/-- The cell holds the value of the innermost binding, or else the global value. -/
theorem cell_eq (h : Logged x g cell log bindings) : cell = (bindings.lookup x).or g := by
  induction log generalizing cell bindings with
  | nil =>
    cases bindings with
    | nil => exact h
    | cons => exact h.elim
  | cons saved log ih =>
    cases bindings with
    | nil => exact h.elim
    | cons b bindings =>
      obtain ⟨y, w⟩ := b
      obtain ⟨-, h⟩ := h
      rw [List.lookup_cons]
      split at h
      · next hy => simp [hy, h.1]
      · next hy => rw [beq_false_of_ne (Ne.symm hy), ih h]

/-- An assignment overwrites the cell, wherever the variable is bound. -/
theorem assign (h : Logged x g cell log bindings) (v : Value) :
    Logged x (if bindings.lookup x = none then some v else g) (some v) log
      (DeepBinding.assignInnermost x v bindings) := by
  induction log generalizing cell bindings with
  | nil =>
    cases bindings with
    | nil => rfl
    | cons => exact h.elim
  | cons saved log ih =>
    cases bindings with
    | nil => exact h.elim
    | cons b bindings =>
      obtain ⟨y, w⟩ := b
      obtain ⟨hsymbol, h⟩ := h
      -- The innermost entry for `x` takes the value; entries for other symbols are passed over in
      -- the log and in the list alike.
      by_cases hy : y = x
      · subst hy
        rw [if_pos rfl] at h
        rw [DeepBinding.assignInnermost, if_pos rfl, List.lookup_cons_self, if_neg nofun]
        exact ⟨hsymbol, (if_pos rfl).symm ▸ ⟨rfl, h.2⟩⟩
      · rw [if_neg hy] at h
        rw [DeepBinding.assignInnermost, if_neg hy, List.lookup_cons,
          beq_false_of_ne (Ne.symm hy)]
        exact ⟨hsymbol, (if_neg hy).symm ▸ ih h⟩

/-- Assigning another variable changes nothing. -/
theorem assign_other (h : Logged x g cell log bindings) (hne : y ≠ x) (v : Value) :
    Logged x g cell log (DeepBinding.assignInnermost y v bindings) := by
  induction log generalizing cell bindings with
  | nil =>
    cases bindings with
    | nil => exact h
    | cons => exact h.elim
  | cons saved log ih =>
    cases bindings with
    | nil => exact h.elim
    | cons b bindings =>
      obtain ⟨z, w⟩ := b
      obtain ⟨hsymbol, h⟩ := h
      rw [DeepBinding.assignInnermost]
      by_cases hz : z = x
      · rw [if_pos hz] at h
        rw [if_neg fun heq : z = y => hne (heq ▸ hz)]
        exact ⟨hsymbol, (if_pos hz).symm ▸ ⟨h.1, ih h.2⟩⟩
      · rw [if_neg hz] at h
        split
        · exact ⟨hsymbol, (if_neg hz).symm ▸ h⟩
        · exact ⟨hsymbol, (if_neg hz).symm ▸ ih h⟩

/-- Ending bindings puts back what the log has saved. -/
theorem leave {s : Symbol} (h : Logged x g s.value log bindings) (n : Nat) :
    Logged x g (s.unboundAll x (log.take n)).value (log.drop n) (bindings.drop n) := by
  induction log generalizing s bindings n with
  | nil =>
    cases bindings with
    | nil => simpa [Symbol.unboundAll] using h
    | cons => exact h.elim
  | cons saved log ih =>
    cases n with
    | zero => exact h
    | succ n =>
      cases bindings with
      | nil => exact h.elim
      | cons b bindings =>
        obtain ⟨hsymbol, h⟩ := h
        -- Undoing the innermost entry writes the cell just if the entry is for `x`.
        rw [List.take_succ_cons, Symbol.unboundAll_cons, Symbol.unbound, hsymbol]
        split at h
        · next hy =>
          rw [if_pos hy]
          exact ih h.2 n
        · next hy =>
          rw [if_neg hy]
          exact ih h n

end Logged

/-! ## The machine against deep binding -/

/-- What the machine does. -/
def ScopeAction.perform : ScopeAction → LispM Unit
  | .bind x v => bindSpecial x v
  | .unbind x => unbindSpecial x
  | .assign x v => SymbolTable.setValue x v
  | .unwind height => unwindBindings height

/-- The action is one on symbols that there are, and assigns no constant. -/
def ScopeAction.Allowed (t : SymbolTable) : ScopeAction → Prop
  | .bind x _ | .unbind x => x.index < t.size
  | .assign x _ => x.index < t.size ∧ t.isConstant x = false
  | .unwind _ => True

theorem ScopeAction.Allowed.rebound {t t' : SymbolTable} {action : ScopeAction}
    (h : action.Allowed t) (hsame : t.Rebound t') : action.Allowed t' := by
  cases action with
  | bind | unbind =>
    change _ < t'.size
    rw [hsame.size]
    exact h
  | assign => exact ⟨hsame.size ▸ h.1, hsame.isConstant ▸ h.2⟩
  | unwind => trivial

/-- The value cells and the log of the interpreter stand for the bindings and the globals. -/
structure DeepBinding.Represents (d : DeepBinding) (s : Interpreter) : Prop where
  symbols : s.machine.bindings.items.map (·.symbol) = d.bindings.map Prod.fst
  counts : s.image.symbols.Counts s.machine.bindings.items
  logged : ∀ x : SymbolId, x.index < s.image.symbols.size →
    Logged x (d.globals x) (s.image.symbols.get x).value s.machine.bindings.items d.bindings

namespace DeepBinding.Represents

variable {d d' : DeepBinding} {s : Interpreter}

theorem bind (h : d.Represents s) {x : SymbolId} (hx : x.index < s.image.symbols.size) (v : Value) :
    ({ d with bindings := (x, v) :: d.bindings } : DeepBinding).Represents (s.withBinding x v) where
  symbols := by simp [withBinding, h.symbols]
  counts := by
    refine SymbolTable.Counts.enterBinding ?_ (by simpa [SymbolTable.restoreValue] using hx) _
    exact h.counts.modify rfl
  logged y hy := by
    have hy : y.index < s.image.symbols.size := by
      simpa [withBinding, SymbolTable.restoreValue, SymbolTable.enterBinding] using hy
    refine ⟨rfl, ?_⟩
    simp only [withBinding, SymbolTable.restoreValue, SymbolTable.enterBinding]
    -- The bound symbol saves its cell on top of the log; any other one passes the new entry over.
    by_cases hxy : x = y
    · subst hxy
      rw [if_pos rfl, SymbolTable.get_modify_self _ (by simpa using hx),
        SymbolTable.get_modify_self _ hx]
      exact ⟨rfl, h.logged x hx⟩
    · rw [if_neg hxy, SymbolTable.get_modify_ne _ (Ne.symm hxy),
        SymbolTable.get_modify_ne _ (Ne.symm hxy)]
      exact h.logged y hy

theorem leave (h : d.Represents s) (n : Nat) : (d.leave n).Represents (s.withoutBindings n) where
  symbols := by
    simp only [withoutBindings, DeepBinding.leave, Stack.items_drop, List.map_drop, h.symbols]
  counts := by
    have hcounts := h.counts
    rw [← List.take_append_drop n s.machine.bindings.items] at hcounts
    exact hcounts.restoreAll
  logged x hx := by
    have hx : x.index < s.image.symbols.size := by
      simpa [withoutBindings, (SymbolTable.Rebound.restoreAll ..).size] using hx
    simp only [withoutBindings, DeepBinding.leave, Stack.items_drop, SymbolTable.get_restoreAll hx]
    exact (h.logged x hx).leave n

theorem assign (h : d.Represents s) {x : SymbolId} (hx : x.index < s.image.symbols.size) (v : Value) :
    (d.assign x v).Represents (s.withSymbol x fun y => { y with value := some v }) where
  symbols := h.symbols.trans map_fst_assignInnermost.symm
  counts := h.counts.modify rfl
  logged y hy := by
    replace hy : y.index < s.image.symbols.size := by simpa [withSymbol] using hy
    simp only [withSymbol, DeepBinding.assign]
    by_cases hxy : y = x
    · subst hxy
      rw [SymbolTable.get_modify_self _ hy]
      simp only [true_and]
      exact (h.logged y hy).assign v
    · rw [SymbolTable.get_modify_ne _ hxy]
      simpa [hxy] using (h.logged y hy).assign_other (Ne.symm hxy) v

/-- As many bindings are in force on both sides. -/
theorem height (h : d.Represents s) : s.machine.bindings.height = d.bindings.length := by
  rw [s.machine.bindings.height_eq, ← List.length_map (·.symbol), h.symbols, List.length_map]

/-- A single action does the same on both sides. -/
theorem perform (h : d.Represents s) {action : ScopeAction} (hallowed : action.Allowed s.image.symbols)
    (hact : d.act action = some d') :
    ∃ s', action.perform s = .ok () s' ∧ d'.Represents s' ∧
      s.image.symbols.Rebound s'.image.symbols := by
  cases action with
  | bind x v =>
    cases hact
    exact ⟨_, rfl, h.bind hallowed v, rebound_withBinding s x v⟩
  | unbind x =>
    simp only [act] at hact
    split at hact
    · next hhead =>
      cases hact
      refine ⟨s.withoutBindings 1, ?_, h.leave 1, rebound_withoutBindings s 1⟩
      -- The innermost entry of the log is one of the symbol that is bound innermost.
      rw [← List.head?_map, ← h.symbols, List.head?_map] at hhead
      obtain ⟨saved, hsaved, hx⟩ := Option.map_eq_some_iff.1 hhead
      obtain ⟨log, hlog⟩ := List.head?_eq_some_iff.1 hsaved
      rw [ScopeAction.perform, eq_iff_leads, leads_unbindSpecial, hlog]
      simp [hx]
    · cases hact
  | assign x v =>
    cases hact
    refine ⟨_, ?_, h.assign hallowed.1 v, .modify _ x fun y => ⟨some v, y.bindingDepth, rfl⟩⟩
    rw [ScopeAction.perform, eq_iff_leads, SymbolTable.setValue, leads_update, hallowed.2]
    simp
  | unwind height =>
    cases hact
    refine ⟨_, ?_, h.leave _, rebound_withoutBindings s _⟩
    rw [ScopeAction.perform, eq_iff_leads, leads_unwindBindings, h.height]

/-- So do any number of actions. -/
theorem performAll (h : d.Represents s) {actions : List ScopeAction}
    (hallowed : ∀ action ∈ actions, action.Allowed s.image.symbols)
    (hact : d.actAll actions = some d') :
    ∃ s', actions.forM ScopeAction.perform s = .ok () s' ∧ d'.Represents s' ∧
      s.image.symbols.Rebound s'.image.symbols := by
  induction actions generalizing d s with
  | nil =>
    cases hact
    exact ⟨s, rfl, h, .refl _⟩
  | cons action actions ih =>
    rw [actAll, List.foldlM_cons] at hact
    obtain ⟨d₁, hd₁, hact⟩ := Option.bind_eq_some_iff.1 hact
    obtain ⟨s₁, hs₁, h₁, hsame₁⟩ := h.perform (hallowed action List.mem_cons_self) hd₁
    obtain ⟨s₂, hs₂, h₂, hsame₂⟩ := ih h₁
      (fun a ha => (hallowed a (List.mem_cons_of_mem _ ha)).rebound hsame₁) hact
    -- The first action and the rest, run one after the other.
    refine ⟨s₂, ?_, h₂, hsame₁.trans hsame₂⟩
    change (action.perform >>= fun _ => actions.forM ScopeAction.perform) s = _
    simp only [Bind.bind, EStateM.bind, hs₁, hs₂]

/-- The value cells hold what deep binding says. -/
theorem value_eq (h : d.Represents s) {x : SymbolId} (hx : x.index < s.image.symbols.size) :
    (s.image.symbols.get x).value = d.value x := (h.logged x hx).cell_eq

end DeepBinding.Represents

namespace Interpreter

/-- The global values, when no binding is in force. -/
def globals (s : Interpreter) : DeepBinding where
  bindings := []
  globals x := (s.image.symbols.get x).value

variable {s : Interpreter} {actions : List ScopeAction} {d : DeepBinding}

/-- Dynamic bindings scope dynamically. From an interpreter without bindings on, whatever is
    bound, assigned, unbound and unwound: every value cell holds what deep binding says, and
    every symbol counts its bindings in force. Leaving all bindings made since some point has
    the effect, on every value cell, of the assignments since then to variables that were
    not bound since then, and of nothing else. -/
theorem bindings_scope_dynamically (hnone : s.machine.bindings.items = [])
    (hdepth : ∀ x, (s.image.symbols.get x).bindingDepth = 0)
    (hallowed : ∀ action ∈ actions, action.Allowed s.image.symbols)
    (hact : s.globals.actAll actions = some d) :
    ∃ s', actions.forM ScopeAction.perform s = .ok () s' ∧
      s'.machine.bindings.items.map (·.symbol) = d.bindings.map Prod.fst ∧
      (∀ x : SymbolId, x.index < s.image.symbols.size →
        (s'.image.symbols.get x).value = d.value x ∧
        (s'.image.symbols.get x).bindingDepth =
          s'.machine.bindings.items.countP (·.symbol = x)) ∧
      ∀ inside d₁, (∀ action ∈ inside, action.Allowed s.image.symbols) →
        d.actAll inside = some d₁ → d.StaysAbove d.bindings.length inside →
        ∃ s₁ s₂, (inside ++ [ScopeAction.unwind d.bindings.length]).forM ScopeAction.perform s' =
            .ok () s₁ ∧
          (d.kept d.bindings.length inside).forM ScopeAction.perform s' = .ok () s₂ ∧
          ∀ x : SymbolId, x.index < s.image.symbols.size →
            (s₁.image.symbols.get x).value = (s₂.image.symbols.get x).value := by
  -- Without bindings the symbols themselves hold the global values.
  have hstart : s.globals.Represents s := by
    refine ⟨by rw [hnone]; rfl, ⟨?_, fun x => ?_⟩, fun x hx => ?_⟩
    · rw [hnone]
      exact nofun
    · rw [hnone, hdepth x]
      rfl
    · rw [hnone]
      rfl
  obtain ⟨s', hs', h, hsame⟩ := hstart.performAll hallowed hact
  refine ⟨s', hs', h.symbols, fun x hx => ⟨h.value_eq (hsame.size ▸ hx), h.counts.depth x⟩, ?_⟩
  intro inside d₁ hinside hact₁ habove
  have hallowed' {as : List ScopeAction} (has : ∀ a ∈ as, a.Allowed s.image.symbols) :
      ∀ a ∈ as, a.Allowed s'.image.symbols := fun a ha => (has a ha).rebound hsame
  -- Leaving the inside by force gives the same deep binding as only doing what is kept of it.
  have hleft : d.actAll (inside ++ [ScopeAction.unwind d.bindings.length]) =
      some (d₁.leave (d₁.bindings.length - d.bindings.length)) := by
    rw [DeepBinding.actAll, List.foldlM_append, ← DeepBinding.actAll, hact₁]
    rfl
  have hkept := DeepBinding.actAll_kept habove hact₁
  rw [Nat.sub_self, DeepBinding.leave_zero] at hkept
  obtain ⟨s₁, hs₁, h₁, hsame₁⟩ := h.performAll (hallowed' fun a ha => by
    rcases List.mem_append.1 ha with ha | ha
    · exact hinside a ha
    · cases List.mem_singleton.1 ha
      trivial) hleft
  obtain ⟨s₂, hs₂, h₂, hsame₂⟩ := h.performAll
    (hallowed' fun a ha => hinside a (DeepBinding.mem_of_mem_kept ha)) hkept
  refine ⟨s₁, s₂, hs₁, hs₂, fun x hx => ?_⟩
  rw [h₁.value_eq (by rw [hsame₁.size, hsame.size]; exact hx),
    h₂.value_eq (by rw [hsame₂.size, hsame.size]; exact hx)]

/-- Symbols `nil`, `t`, `a` and `b`, of which `b` has no value. -/
def sampleVariables : Interpreter where
  image :=
    { heap := .empty 0
      symbols.symbols := #[{ name := "nil" }, { name := "t" }, { name := "a", value := some (.int 1) },
        { name := "b" }] }

/-- Both variables are bound, assigned and bound again, and all but one binding is left. -/
def sampleActions : List ScopeAction :=
  [.bind ⟨2⟩ (.int 2), .assign ⟨3⟩ (.int 3), .bind ⟨3⟩ (.int 4), .assign ⟨2⟩ (.int 5), .bind ⟨2⟩ (.int 6),
    .assign ⟨2⟩ (.int 7), .assign ⟨3⟩ (.int 8), .unbind ⟨2⟩, .unwind 1]

theorem bindings_scope_dynamically_sample :
    sampleVariables.machine.bindings.items = [] ∧
      (∀ x, (sampleVariables.image.symbols.get x).bindingDepth = 0) ∧
      (∀ action ∈ sampleActions, action.Allowed sampleVariables.image.symbols) ∧
      ∃ d s', sampleVariables.globals.actAll sampleActions = some d ∧
        sampleActions.forM ScopeAction.perform sampleVariables = .ok () s' ∧
        (s'.image.symbols.get ⟨2⟩).value = some (.int 5) ∧
        (s'.image.symbols.get ⟨3⟩).value = some (.int 3) ∧
        (s'.image.symbols.get ⟨2⟩).bindingDepth = 1 := by
  have hdepth : ∀ x, (sampleVariables.image.symbols.get x).bindingDepth = 0
    | ⟨0⟩ | ⟨1⟩ | ⟨2⟩ | ⟨3⟩ | ⟨_ + 4⟩ => rfl
  have hallowed : ∀ action ∈ sampleActions, action.Allowed sampleVariables.image.symbols := by
    simp [sampleActions, ScopeAction.Allowed, sampleVariables, SymbolTable.size,
      SymbolTable.isConstant, SymbolTable.get]
  obtain ⟨s', hs', hsymbols, hvalue, -⟩ :=
    @bindings_scope_dynamically sampleVariables sampleActions _ rfl hdepth hallowed rfl
  obtain ⟨ha, hcount⟩ := hvalue ⟨2⟩ (by decide)
  refine ⟨rfl, hdepth, hallowed, _, s', rfl, hs', ha.trans rfl, (hvalue ⟨3⟩ (by decide)).1.trans rfl, ?_⟩
  -- The depth counts the live entries for the symbol, read off the list of their symbols.
  have hmap : s'.machine.bindings.items.countP (·.symbol = ⟨2⟩) =
      (s'.machine.bindings.items.map (·.symbol)).countP (· = ⟨2⟩) := by
    rw [List.countP_map]
    rfl
  rw [hcount, hmap, hsymbols]
  rfl

end Interpreter

end StackLisp
