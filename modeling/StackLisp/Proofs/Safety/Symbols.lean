import StackLisp.Image.Symbol
import StackLisp.Machine.Registers

/-!
# Symbol tables

What stays true of the symbols of an image whatever happens to them. Symbols are only ever
added and changed one at a time (`get_modify`, `get_push`), so each invariant of a table comes
with a lemma for either.

* `SymbolTable.Headed`: the first symbols are `nil` and `t`.
* `SymbolTable.Counts`: each symbol counts the dynamic bindings of it that are in force.
* `SymbolTable.Consistent`: the name of an interned symbol leads to it, and the constants
  stand for themselves.
* `SymbolTable.Keeps`: a later table has the symbols of an earlier one, by the same names.
-/

namespace StackLisp

/-- The symbol `y` is `x`, perhaps with other cells. -/
structure Symbol.Keeps (x y : Symbol) : Prop where
  name : y.name = x.name
  interned : y.interned = x.interned
  constant : y.constant = x.constant
  special : x.special = true → y.special = true

theorem Symbol.Keeps.refl (x : Symbol) : x.Keeps x := ⟨rfl, rfl, rfl, id⟩

theorem Symbol.Keeps.trans {x y z : Symbol} (h : x.Keeps y) (h' : y.Keeps z) : x.Keeps z :=
  ⟨h'.name.trans h.name, h'.interned.trans h.interned, h'.constant.trans h.constant,
    h'.special ∘ h.special⟩

namespace SymbolTable

variable {t t' t'' : SymbolTable} {id i : SymbolId} {name name' : String}

/-- Where a symbol is changed, any other one is as before. -/
theorem get_modify (t : SymbolTable) (id i : SymbolId) (f : Symbol → Symbol) :
    (t.modify id f).get i = t.get i ∨ i = id ∧ (t.modify id f).get i = f (t.get i) := by
  by_cases hid : i = id
  · subst hid
    by_cases hlt : i.index < t.symbols.size
    · exact .inr ⟨rfl, by simp [get, SymbolTable.modify, Array.getElem_modify, hlt]⟩
    · refine .inl ?_
      simp only [get, SymbolTable.modify, Array.getD_eq_getD_getElem?]
      rw [Array.getElem?_eq_none (by simpa using hlt), Array.getElem?_eq_none (by simpa using hlt)]
  · have hne : id.index ≠ i.index := fun heq => hid (by cases id; cases i; simp_all)
    exact .inl (by simp [get, SymbolTable.modify, Array.getElem?_modify, hne])

@[simp]
theorem size_modify (f : Symbol → Symbol) : (t.modify id f).size = t.size := by
  simp [size, SymbolTable.modify]

/-- The symbols of a table with one more are the old ones and the new one. -/
theorem get_push {x : Symbol} {n : Nat} :
    ({ t with symbols := t.symbols.push x, gensyms := n } : SymbolTable).get i = t.get i ∨
      i = ⟨t.symbols.size⟩ ∧
        ({ t with symbols := t.symbols.push x, gensyms := n } : SymbolTable).get i = x := by
  by_cases hid : i = ⟨t.symbols.size⟩
  · subst hid
    exact .inr ⟨rfl, by simp [get]⟩
  · have hne : i.index ≠ t.symbols.size := fun heq => hid (by cases i; simp_all)
    exact .inl (by simp [get, Array.getElem?_push, hne])

/-- A symbol of the table is changed as told. -/
theorem get_modify_self (f : Symbol → Symbol) (hid : id.index < t.size) :
    (t.modify id f).get id = f (t.get id) := by
  rw [SymbolTable.size] at hid
  simp [get, SymbolTable.modify, Array.getElem_modify, hid]

theorem get_modify_ne (f : Symbol → Symbol) (hid : i ≠ id) :
    (t.modify id f).get i = t.get i :=
  (get_modify t id i f).resolve_right fun h => hid h.1

/-- A new keyword is a constant, with itself for its value. -/
theorem insert_of_keyword (hname : isKeywordName name = true) :
    t.insert name = { t with
      symbols := t.symbols.push
        { name, constant := true, value := some (.symbol ⟨t.symbols.size⟩) } } := by
  simp [insert, newSymbol, hname]

/-- Any other new symbol has nothing but its name. -/
theorem insert_of_not_keyword (hname : isKeywordName name = false) :
    t.insert name = { t with symbols := t.symbols.push { name } } := by
  simp [insert, newSymbol, hname]

/-- Nothing is known of a symbol that is not there. -/
theorem get_of_size_le (hid : t.size ≤ id.index) : t.get id = default := by
  rw [get, Array.getD_eq_getD_getElem?, Array.getElem?_eq_none hid, Option.getD_none]

/-- Beyond the table no symbol is special. -/
theorem lt_size_of_isSpecial (h : t.isSpecial id) : id.index < t.size := by
  refine Nat.lt_of_not_le fun hle => ?_
  rw [SymbolTable.isSpecial, get_of_size_le hle] at h
  cases h

/-- None is a constant, either. -/
theorem lt_size_of_isConstant (h : t.isConstant id) : id.index < t.size := by
  refine Nat.lt_of_not_le fun hle => ?_
  rw [SymbolTable.isConstant, get_of_size_le hle] at h
  cases h

/-! ## The first symbols -/

/-- The first symbols of a table are `nil` and `t`. -/
structure Headed (t : SymbolTable) : Prop where
  size : 2 ≤ t.size
  nil : t.name .nil = "nil"
  t : t.name .t = "t"

/-- Names do not change. -/
theorem Headed.modify (ht : t.Headed) {f : Symbol → Symbol}
    (hf : (f (t.get id)).name = (t.get id).name) : (t.modify id f).Headed := by
  have hname (i : SymbolId) : (t.modify id f).name i = t.name i := by
    rcases get_modify t id i f with heq | ⟨rfl, heq⟩
    · exact congrArg Symbol.name heq
    · exact (congrArg Symbol.name heq).trans hf
  refine ⟨?_, (hname .nil).trans ht.nil, (hname .t).trans ht.t⟩
  rw [size_modify]
  exact ht.size

/-- New symbols come behind the first ones. -/
theorem Headed.push (ht : t.Headed) (x : Symbol) (n : Nat) :
    ({ t with symbols := t.symbols.push x, gensyms := n } : SymbolTable).Headed := by
  have hname (i : SymbolId) (hi : i.index < t.symbols.size) :
      ({ t with symbols := t.symbols.push x, gensyms := n } : SymbolTable).name i = t.name i := by
    rcases get_push (t := t) (i := i) (x := x) (n := n) with heq | ⟨rfl, -⟩
    · exact congrArg Symbol.name heq
    · exact absurd hi (Nat.lt_irrefl _)
  have hsize : 2 ≤ t.symbols.size := ht.size
  refine ⟨?_, (hname .nil ?_).trans ht.nil, (hname .t ?_).trans ht.t⟩
  · simpa [SymbolTable.size] using Nat.le_succ_of_le hsize
  · exact Nat.lt_of_lt_of_le (by decide) hsize
  · exact Nat.lt_of_lt_of_le (by decide) hsize

/-- A symbol that comes after the first ones is neither of them. -/
theorem Headed.fresh (ht : t.Headed) :
    (⟨t.symbols.size⟩ : SymbolId) ≠ .nil ∧ (⟨t.symbols.size⟩ : SymbolId) ≠ .t := by
  have hsize : 2 ≤ t.symbols.size := ht.size
  refine ⟨fun heq => ?_, fun heq => ?_⟩
  · have hindex : t.symbols.size = 0 := congrArg SymbolId.index heq
    omega
  · have hindex : t.symbols.size = 1 := congrArg SymbolId.index heq
    omega

/-- A name other than theirs leads to neither of them. -/
theorem Headed.find? (ht : t.Headed) {name : String} (hfind : t.find? name = some id)
    (hnil : name ≠ "nil") (htrue : name ≠ "t") : id ≠ .nil ∧ id ≠ .t := by
  obtain ⟨i, hi, rfl⟩ := Option.map_eq_some_iff.1 hfind
  obtain ⟨hlt, hsat, -⟩ := Array.findIdx?_eq_some_iff_getElem.1 hi
  have hname : t.name ⟨i⟩ = name := by
    simp only [Bool.and_eq_true, beq_iff_eq] at hsat
    simpa [SymbolTable.name, get, hlt] using hsat.2
  refine ⟨fun heq => hnil ?_, fun heq => htrue ?_⟩
  · rw [← hname, heq, ht.nil]
  · rw [← hname, heq, ht.t]

/-! ## Counting bindings -/

/-- Each symbol counts the bindings of it among the given ones. -/
structure Counts (t : SymbolTable) (saved : List SavedValue) : Prop where
  known : ∀ x ∈ saved, x.symbol.index < t.size
  depth : ∀ id, (t.get id).bindingDepth = saved.countP (·.symbol = id)

section

variable {saved : List SavedValue} {f : Symbol → Symbol} {x : Symbol}

/-- A change that leaves the depth alone leaves all counts alone. -/
theorem Counts.modify (ht : t.Counts saved)
    (hf : (f (t.get id)).bindingDepth = (t.get id).bindingDepth) : (t.modify id f).Counts saved where
  known y hy := by
    rw [size_modify]
    exact ht.known y hy
  depth i := by
    rw [← ht.depth i]
    rcases get_modify t id i f with heq | ⟨rfl, heq⟩
    · rw [heq]
    · rw [heq, hf]

/-- A new symbol has no binding. -/
theorem Counts.push (ht : t.Counts saved) (hx : x.bindingDepth = 0) (n : Nat) :
    ({ t with symbols := t.symbols.push x, gensyms := n } : SymbolTable).Counts saved where
  known y hy := Nat.lt_of_lt_of_le (ht.known y hy) (by simp [size])
  depth i := by
    rcases get_push (t := t) (i := i) (x := x) (n := n) with heq | ⟨rfl, heq⟩
    · rw [heq]
      exact ht.depth i
    · -- No binding in force is one of a symbol that was not there.
      have hnone : saved.countP (·.symbol = ⟨t.symbols.size⟩) = 0 := by
        refine List.countP_eq_zero.2 fun y hy heq => ?_
        have hlt := ht.known y hy
        rw [of_decide_eq_true heq] at hlt
        exact Nat.lt_irrefl _ hlt
      rw [heq, hx, hnone]
      rfl

/-- A binding is counted when it begins. -/
theorem Counts.enterBinding (ht : t.Counts saved) (hid : id.index < t.size) (value : Option Value) :
    (t.enterBinding id).Counts (⟨id, value⟩ :: saved) where
  known y hy := by
    rw [SymbolTable.enterBinding, size_modify]
    rcases List.mem_cons.1 hy with rfl | hy
    · exact hid
    · exact ht.known y hy
  depth i := by
    by_cases hi : i = id
    · subst hi
      rw [SymbolTable.enterBinding, get_modify_self _ hid, List.countP_cons_of_pos (by simp)]
      simp [ht.depth i]
    · rw [SymbolTable.enterBinding, get_modify_ne _ hi,
        List.countP_cons_of_neg (by simpa using Ne.symm hi)]
      exact ht.depth i

/-- It is not when it has ended. -/
theorem Counts.exitBinding {y : SavedValue} (ht : t.Counts (y :: saved)) :
    (t.exitBinding y.symbol).Counts saved where
  known z hz := by
    rw [SymbolTable.exitBinding, size_modify]
    exact ht.known z (List.mem_cons_of_mem _ hz)
  depth i := by
    have hdepth := ht.depth i
    by_cases hi : i = y.symbol
    · subst hi
      rw [List.countP_cons_of_pos (by simp)] at hdepth
      rw [SymbolTable.exitBinding, get_modify_self _ (ht.known y List.mem_cons_self)]
      simp [hdepth]
    · rw [List.countP_cons_of_neg (by simpa using Ne.symm hi)] at hdepth
      rw [SymbolTable.exitBinding, get_modify_ne _ hi, hdepth]

end

/-! ## Symbols that their names lead to -/

/-- The symbol is in the table and known by its name. -/
def Interned (t : SymbolTable) (id : SymbolId) : Prop :=
  id.index < t.size ∧ (t.get id).interned = true

instance (t : SymbolTable) (id : SymbolId) : Decidable (t.Interned id) :=
  inferInstanceAs (Decidable (_ < _ ∧ _))

/-- The symbol is the one that its name leads to. -/
def Named (t : SymbolTable) (id : SymbolId) : Prop := t.find? (t.name id) = some id

instance (t : SymbolTable) (id : SymbolId) : Decidable (t.Named id) :=
  inferInstanceAs (Decidable (_ = _))

/-- What a name leads to is interned and has that name. -/
theorem of_find?_eq_some (h : t.find? name = some id) : t.Interned id ∧ t.name id = name := by
  obtain ⟨i, hi, rfl⟩ := Option.map_eq_some_iff.1 h
  obtain ⟨hlt, hsat, -⟩ := Array.findIdx?_eq_some_iff_getElem.1 hi
  simp only [Bool.and_eq_true, beq_iff_eq] at hsat
  refine ⟨⟨hlt, ?_⟩, ?_⟩
  · simpa [get, hlt] using hsat.1
  · simpa [SymbolTable.name, get, hlt] using hsat.2

/-- So it is the symbol that its name leads to. -/
theorem named_of_find? (h : t.find? name = some id) : t.Named id := by
  rw [Named, (of_find?_eq_some h).2, h]

theorem Named.interned (h : t.Named id) : t.Interned id := (of_find?_eq_some h).1

/-- Entering a name changes what this name leads to, and nothing else. -/
theorem find?_insert : (t.insert name).find? name' =
    (t.find? name').or (if name = name' then some ⟨t.size⟩ else none) := by
  have hnew (id : SymbolId) : (newSymbol name id).interned = true ∧ (newSymbol name id).name = name := by
    unfold newSymbol
    split <;> exact ⟨rfl, rfl⟩
  simp only [find?, insert, Array.findIdx?_push, hnew, Bool.true_and, beq_iff_eq]
  cases t.symbols.findIdx? _ with
  | some i => simp
  | none =>
    simp only [Option.none_or, Option.map_none]
    split <;> rfl

/-- The others keep their names. -/
theorem name_insert (hid : id.index < t.size) : (t.insert name).name id = t.name id := by
  rcases get_push (t := t) (i := id) (x := newSymbol name ⟨t.symbols.size⟩) (n := t.gensyms) with
    heq | ⟨rfl, -⟩
  · exact congrArg Symbol.name heq
  · exact absurd hid (Nat.lt_irrefl _)

/-- A name that leads to a symbol already goes on to do so. -/
theorem Named.insert (h : t.Named id) (name : String) : (t.insert name).Named id := by
  rw [Named, name_insert h.interned.1, find?_insert, h]
  rfl

/-- A name that led nowhere leads to the new symbol. -/
theorem named_insert (h : t.find? name = none) : (t.insert name).Named ⟨t.size⟩ := by
  have hfind : (t.insert name).find? name = some ⟨t.size⟩ := by
    rw [find?_insert, h, if_pos rfl]
    rfl
  exact named_of_find? hfind

/-- Names lead to the first symbol that has them. -/
theorem named_iff : t.Named id ↔
    t.Interned id ∧ ∀ i : SymbolId, i.index < id.index → (t.get i).interned = true →
      t.name i ≠ t.name id := by
  have hget (i : Nat) (hi : i < t.symbols.size) : t.symbols[i] = t.get ⟨i⟩ := by simp [get, hi]
  -- The search finds the first interned symbol of that name.
  constructor
  · intro h
    refine ⟨h.interned, fun i hi hinterned hname => ?_⟩
    obtain ⟨j, hj, rfl⟩ := Option.map_eq_some_iff.1 h
    obtain ⟨hlt, -, hbefore⟩ := Array.findIdx?_eq_some_iff_getElem.1 hj
    have hnot := hbefore i.index hi
    rw [hget _ (Nat.lt_trans hi hlt)] at hnot
    simp only [Bool.not_eq_true, Bool.and_eq_false_iff, beq_eq_false_iff_ne] at hnot
    rcases hnot with hnot | hnot
    · exact Bool.false_ne_true (hnot.symm.trans hinterned)
    · exact hnot hname
  · rintro ⟨⟨hlt, hinterned⟩, hbefore⟩
    refine Option.map_eq_some_iff.2 ⟨id.index, Array.findIdx?_eq_some_iff_getElem.2 ⟨hlt, ?_, ?_⟩, rfl⟩
    · rw [hget _ hlt]
      simpa using ⟨hinterned, rfl⟩
    · intro i hi
      rw [hget _ (Nat.lt_trans hi hlt)]
      simpa [SymbolTable.name] using hbefore ⟨i⟩ hi

/-- A name that leads nowhere is the name of no interned symbol. -/
theorem ne_of_find?_eq_none (h : t.find? name = none) (hid : t.Interned id) : t.name id ≠ name := by
  have hnone := Array.findIdx?_eq_none_iff.1 (Option.map_eq_none_iff.1 h) (t.get id) (by
    have hlt : id.index < t.symbols.size := hid.1
    simp [get, hlt])
  simpa [hid.2, SymbolTable.name] using hnone

/-! ## Tables that keep their symbols -/

/-- The table `t'` has the symbols of `t`. -/
structure Keeps (t t' : SymbolTable) : Prop where
  size : t.size ≤ t'.size
  get : ∀ id, id.index < t.size → (t.get id).Keeps (t'.get id)

theorem Keeps.refl (t : SymbolTable) : t.Keeps t := ⟨Nat.le_refl _, fun _ _ => .refl _⟩

/-- Symbols that are kept twice are kept. -/
theorem Keeps.trans (h : t.Keeps t') (h' : t'.Keeps t'') : t.Keeps t'' where
  size := Nat.le_trans h.size h'.size
  get id hid := (h.get id hid).trans (h'.get id (Nat.lt_of_lt_of_le hid h.size))

/-- A variable stays special. -/
theorem Keeps.isSpecial (h : t.Keeps t') (hid : t.isSpecial id) : t'.isSpecial id :=
  (h.get id (lt_size_of_isSpecial hid)).special hid

/-- Cells may be changed. -/
theorem Keeps.modify {f : Symbol → Symbol} (hf : (t.get id).Keeps (f (t.get id))) :
    t.Keeps (t.modify id f) where
  size := Nat.le_of_eq (size_modify f).symm
  get i _ := by
    rcases get_modify t id i f with heq | ⟨rfl, heq⟩
    · exact heq ▸ .refl _
    · exact heq ▸ hf

/-- Symbols may be added. -/
theorem Keeps.push (t : SymbolTable) (x : Symbol) (n : Nat) :
    t.Keeps { t with symbols := t.symbols.push x, gensyms := n } where
  size := by simp [SymbolTable.size]
  get i hi := by
    rcases get_push (t := t) (i := i) (x := x) (n := n) with heq | ⟨rfl, -⟩
    · exact heq ▸ .refl _
    · exact absurd hi (Nat.lt_irrefl _)

/-! ## Constants -/

/-- The symbol is `nil`, `t` or a keyword. -/
def StandsForItself (t : SymbolTable) (id : SymbolId) : Prop :=
  id = .nil ∨ id = .t ∨ t.Interned id ∧ isKeywordName (t.name id) = true

/-- The name of an interned symbol leads to it. The symbols that stand for themselves are
    constants, which have themselves for values, are not special and have no function. -/
structure Consistent (t : SymbolTable) : Prop where
  named : ∀ id, t.Interned id → t.Named id
  constant : ∀ id, t.StandsForItself id → t.isConstant id = true
  value : ∀ id, t.isConstant id = true → (t.get id).value = some (.ofSymbol id)
  special : ∀ id, t.isConstant id = true → t.isSpecial id = false
  cell : ∀ id, t.isConstant id = true → t.cell id = .unbound

/-- A special symbol is no constant. -/
theorem Consistent.notConstant (ht : t.Consistent) (hid : t.isSpecial id = true) :
    t.isConstant id = false := by
  refine Bool.eq_false_iff.2 fun hc => ?_
  rw [ht.special id hc] at hid
  cases hid

/-- Only symbols that are no constants are changed. -/
theorem Consistent.modify (ht : t.Consistent) (hid : t.isConstant id = false) {f : Symbol → Symbol}
    (hf : (t.get id).Keeps (f (t.get id))) : (t.modify id f).Consistent := by
  -- The change keeps what the symbol is known by, and the other symbols are as they were.
  have hget (i : SymbolId) : (t.get i).Keeps ((t.modify id f).get i) := by
    rcases get_modify t id i f with heq | ⟨rfl, heq⟩
    · exact heq ▸ .refl _
    · exact heq ▸ hf
  have hname (i : SymbolId) : (t.modify id f).name i = t.name i := (hget i).name
  have hsize : (t.modify id f).size = t.size := size_modify f
  have hinterned {i : SymbolId} (hi : (t.modify id f).Interned i) : t.Interned i :=
    ⟨hsize ▸ hi.1, (hget i).interned ▸ hi.2⟩
  -- Constants are not changed at all.
  have hsame {i : SymbolId} (hi : (t.modify id f).isConstant i = true) :
      t.isConstant i = true ∧ (t.modify id f).get i = t.get i := by
    have hi : t.isConstant i = true := (hget i).constant.symm.trans hi
    refine ⟨hi, (get_modify t id i f).resolve_right fun h => ?_⟩
    rw [← h.1, hi] at hid
    cases hid
  refine ⟨fun i hi => ?_, fun i hi => ?_, fun i hi => ?_, fun i hi => ?_, fun i hi => ?_⟩
  · refine named_iff.2 ⟨hi, fun j hj hjinterned => ?_⟩
    rw [hname, hname]
    exact (named_iff.1 (ht.named i (hinterned hi))).2 j hj ((hget j).interned ▸ hjinterned)
  · refine (hget i).constant.trans (ht.constant i ?_)
    exact hi.imp_right (.imp_right fun h => ⟨hinterned h.1, hname i ▸ h.2⟩)
  · rw [(hsame hi).2]
    exact ht.value i (hsame hi).1
  · rw [SymbolTable.isSpecial, (hsame hi).2]
    exact ht.special i (hsame hi).1
  · rw [SymbolTable.cell, (hsame hi).2]
    exact ht.cell i (hsame hi).1

/-- A new symbol, whose name leads to no other if it is interned. -/
theorem Consistent.push (ht : t.Consistent) (hheaded : t.Headed) {x : Symbol} (n : Nat)
    (hnamed : x.interned = true → t.find? x.name = none)
    (hkeyword : x.interned = true → isKeywordName x.name = true → x.constant = true)
    (hconstant : x.constant = true → x.value = some (.symbol ⟨t.symbols.size⟩) ∧ x.special = false ∧
      x.function = .unbound) :
    ({ t with symbols := t.symbols.push x, gensyms := n } : SymbolTable).Consistent := by
  let t₁ : SymbolTable := { t with symbols := t.symbols.push x, gensyms := n }
  have hnew : t₁.get ⟨t.symbols.size⟩ = x := by simp [t₁, get]
  -- All symbols but the new one are as before, and so is whether they are interned or constants.
  have hold {i : SymbolId} (hi : i ≠ ⟨t.symbols.size⟩) : t₁.get i = t.get i :=
    get_push.resolve_right fun h => hi h.1
  have hinterned {i : SymbolId} (hi : i ≠ ⟨t.symbols.size⟩) (h : t₁.Interned i) : t.Interned i := by
    have hlt := h.1
    have hne : i.index ≠ t.symbols.size := fun heq => hi (by cases i; simp_all)
    simp only [t₁, SymbolTable.size, Array.size_push] at hlt
    exact ⟨by rw [SymbolTable.size]; omega, hold hi ▸ h.2⟩
  have hsymbol : Value.ofSymbol ⟨t.symbols.size⟩ = .symbol ⟨t.symbols.size⟩ := by
    simp [Value.ofSymbol, hheaded.fresh]
  have hsame {i : SymbolId} (hi : i ≠ ⟨t.symbols.size⟩) (hc : t₁.isConstant i = true) :
      t.isConstant i = true := by
    rwa [SymbolTable.isConstant, hold hi] at hc
  have hvalue {i : SymbolId} (hc : t₁.isConstant i = true) :
      (t₁.get i).value = some (.ofSymbol i) ∧ t₁.isSpecial i = false ∧ t₁.cell i = .unbound := by
    by_cases hi : i = ⟨t.symbols.size⟩
    · subst hi
      rw [SymbolTable.isConstant, hnew] at hc
      rw [SymbolTable.isSpecial, SymbolTable.cell, hnew, hsymbol]
      exact hconstant hc
    · rw [SymbolTable.isSpecial, SymbolTable.cell, hold hi]
      exact ⟨ht.value i (hsame hi hc), ht.special i (hsame hi hc), ht.cell i (hsame hi hc)⟩
  refine ⟨fun i h => named_iff.2 ⟨h, fun j hj hjinterned hname => ?_⟩, fun i h => ?_,
    fun i hc => (hvalue hc).1, fun i hc => (hvalue hc).2.1, fun i hc => (hvalue hc).2.2⟩
  -- No name leads to two symbols: an interned name is only pushed if it is not found.
  · have hjne : j ≠ ⟨t.symbols.size⟩ := by
      rintro rfl
      have hlt := h.1
      simp only [SymbolTable.size, Array.size_push] at hlt hj
      omega
    have hj' : t.Interned j := hinterned hjne ⟨Nat.lt_trans hj h.1, hjinterned⟩
    rw [SymbolTable.name, hold hjne] at hname
    by_cases hi : i = ⟨t.symbols.size⟩
    · subst hi
      rw [SymbolTable.name, hnew] at hname
      exact ne_of_find?_eq_none (hnamed (hnew ▸ h.2)) hj' hname
    · rw [SymbolTable.name, hold hi] at hname
      exact (named_iff.1 (ht.named i (hinterned hi h))).2 j hj hj'.2 hname
  · by_cases hi : i = ⟨t.symbols.size⟩
    · subst hi
      obtain ⟨hint, hkey⟩ := (h.resolve_left hheaded.fresh.1).resolve_left hheaded.fresh.2
      rw [SymbolTable.name, hnew] at hkey
      rw [SymbolTable.isConstant, hnew]
      exact hkeyword (hnew ▸ hint.2) hkey
    · rw [SymbolTable.isConstant, hold hi]
      refine ht.constant i (h.imp_right (.imp_right fun hint => ⟨hinterned hi hint.1, ?_⟩))
      rw [SymbolTable.name, ← hold hi]
      exact hint.2

end SymbolTable

end StackLisp
