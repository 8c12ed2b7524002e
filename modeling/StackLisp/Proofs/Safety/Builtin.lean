import StackLisp.Proofs.Safety.Access

/-!
# Primitives in order

A primitive that is run on a number of arguments it takes finds them on the stack
and leaves one value in their place, or a request to whoever runs the machine
(`Delivers`). There is one lemma for each primitive that does more than to apply a
function to its arguments, and `safe_runBuiltin` is all of them together.
-/

namespace StackLisp

open Interpreter Layout Machine

section

variable {s : Interpreter}

/-! ## Arguments -/

/-- An argument of the wrong kind is refused, which is no broken rule. -/
theorem inert_wrongArgument {α : Type} {P : α → Prop} {expected : Expectation}
    {operation : String} {v : Value} :
    Inert (wrongArgument expected operation v : LispM α) s P := .inr ⟨_, rfl, trivial⟩

/-- Taking an integer argument changes nothing, whether or not it is one. -/
theorem inert_intArg {operation : String} {v : Value} :
    Inert (intArg operation v) s fun _ => True := by
  cases v with
  | int n => exact .pure trivial
  | _ => exact inert_wrongArgument

/-- Taking a symbol argument changes nothing, whether or not it is one. -/
theorem inert_symbolArg {operation : String} {v : Value} :
    Inert (symbolArg operation v) s fun _ => True := by
  unfold symbolArg
  cases v.symbol? with
  | some id => exact .pure trivial
  | none => exact inert_wrongArgument

/-- Taking a pair argument changes nothing; what is taken is that argument. -/
theorem inert_pairArg {operation : String} {v : Value} :
    Inert (pairArg operation v) s fun id => v = .pair id := by
  cases v with
  | pair id => exact .pure rfl
  | _ => exact inert_wrongArgument

/-- The elements of a list argument are as visible to programs as the list. -/
theorem inert_listArg {L : Layout} {operation : String} {v : Value} (hL : L.Fits s.image.heap)
    (hv : L.Visible v) :
    Inert (listArg operation v) s fun items => ∀ w ∈ items, L.Visible w := by
  refine inert_elements.bind fun r hr => ?_
  cases r with
  | some items => exact .pure (hL.elements? hv hr)
  | none => exact inert_wrongArgument

end

/-! ## Results of arithmetic -/

namespace Fixnum

/-- A result out of range is an overflow, an error that programs can bring about. -/
theorem exact_benign {operation : String} {n : Int} {e : Error}
    (he : exact operation n = .error e) : (Failure.error e).Benign := by
  unfold exact at he
  split at he <;> cases he
  trivial

/-- Calculating along a list fails as its single steps do. -/
theorem foldlM_benign {f : Int64 → Int64 → Except Error Int64}
    (hf : ∀ a b e, f a b = .error e → (Failure.error e).Benign) :
    ∀ {ns : List Int64} {acc : Int64} {e : Error}, ns.foldlM f acc = .error e →
      (Failure.error e).Benign
  | [], _, _, he => by cases he
  | n :: ns, acc, e, he => by
    rw [List.foldlM_cons] at he
    cases h : f acc n with
    | error e' =>
      rw [h] at he
      cases he
      exact hf acc n _ h
    | ok m =>
      rw [h] at he
      exact foldlM_benign hf he

/-- Sums fail by overflow only. -/
theorem sum_benign {ns : List Int64} {e : Error} (he : sum ns = .error e) :
    (Failure.error e).Benign := foldlM_benign (fun _ _ _ => exact_benign) he

/-- Products fail by overflow only. -/
theorem product_benign {ns : List Int64} {e : Error} (he : product ns = .error e) :
    (Failure.error e).Benign := foldlM_benign (fun _ _ _ => exact_benign) he

/-- Differences fail by overflow only. -/
theorem difference_benign {ns : List Int64} {e : Error} (he : difference ns = .error e) :
    (Failure.error e).Benign := by
  unfold difference at he
  split at he
  · cases he
  · exact exact_benign he
  · exact foldlM_benign (fun _ _ _ => exact_benign) he

/-- Remainders fail by a divisor of zero or by overflow. -/
theorem remainder_benign {operation : String} {a b : Int64} {e : Error}
    (he : remainder operation a b = .error e) : (Failure.error e).Benign := by
  unfold remainder at he
  split at he <;> cases he
  trivial

/-- So do remainders with the sign of the divisor. -/
theorem mod_benign {a b : Int64} {e : Error} (he : mod a b = .error e) :
    (Failure.error e).Benign := by
  unfold mod at he
  split at he
  · cases he
    trivial
  · cases h : remainder "mod" a b with
    | error e' =>
      rw [h] at he
      cases he
      exact remainder_benign h
    | ok r =>
      rw [h] at he
      cases he

end Fixnum

/-! ## Cells and comparisons -/

/-- A comparison fails only in that it does not end. -/
theorem Heap.equal_benign {h : Heap} {a b : Value} {e : Failure} (he : h.equal a b = .error e) :
    e.Benign := by
  rw [Heap.equal_error he]
  trivial

/-- A variable without a value is no broken rule. -/
theorem SymbolTable.value_benign {t : SymbolTable} {id : SymbolId} {e : Error}
    (he : t.value id = .error e) : (Failure.error e).Benign := by
  unfold SymbolTable.value at he
  split at he <;> cases he
  trivial

/-- Nor is a symbol without a function, or one that is still being defined. -/
theorem SymbolTable.functionValue_benign {t : SymbolTable} {id : SymbolId} {e : Error}
    (he : t.functionValue id = .error e) : (Failure.error e).Benign := by
  unfold SymbolTable.functionValue at he
  split at he <;> cases he <;> trivial

/-- Values of variables are visible to programs. -/
theorem Sound.value {L : Layout} {s : Interpreter} (hs : Sound L s) {id : SymbolId} {v : Value}
    (hv : s.image.symbols.value id = .ok v) : L.Visible v := by
  unfold SymbolTable.value at hv
  split at hv
  · next w hw =>
    cases hv
    exact hs.values id v hw
  · cases hv

/-- So are the functions of symbols. -/
theorem Sound.functionValue {L : Layout} {s : Interpreter} (hs : Sound L s) {id : SymbolId}
    {v : Value} (hv : s.image.symbols.functionValue id = .ok v) : L.Visible v := by
  unfold SymbolTable.functionValue at hv
  split at hv
  · next f hf =>
    cases hv
    exact hs.cells id f hf
  · cases hv
    trivial
  · cases hv
  · cases hv

/-! ## The primitives -/

section

variable {n : Nat} {L : Layout} {rest : List SavedValue} {K : Trail} {env : List FrameShape}
  {st : List Slot} {s : Interpreter} {argc : Nat}

/-- The action leaves one value on top of the stack `st`, or a request. -/
abbrev Delivers (n : Nat) (L : Layout) (rest : List SavedValue) (K : Trail) (env : List FrameShape)
    (st : List Slot) (x : LispM Flow) (s : Interpreter) : Prop :=
  Safe (Moves n) L x s fun L' flow s' => Yields n L' rest K env st flow s'

/-- A predicate takes one value and leaves a truth value. -/
theorem delivers_predicate (hi : Inside n L rest K env (.value :: st) s) {f : Value → Bool} :
    Delivers n L rest K env st (predicate f) s := by
  refine hi.safe_pop.bind ?_
  rintro L v s _ ⟨rfl, -, hi⟩
  exact hi.safe_doneBool

/-- Arithmetic takes all its arguments and leaves one number. -/
theorem delivers_arithmetic (hi : Inside n L rest K env (List.replicate argc .value ++ st) s)
    {operation : String} {f : List Int64 → Except Error Int64}
    (hf : ∀ ns e, f ns = .error e → (Failure.error e).Benign) :
    Delivers n L rest K env st (arithmetic operation argc f) s := by
  refine hi.safe_popMany.bind ?_
  rintro L vs s _ ⟨rfl, -, -, hi⟩
  refine (Inert.mapM fun v _ => inert_intArg).safe_bind hi.moves fun ns _ => ?_
  refine (inert_ofExcept (hf ns)).safe_bind hi.moves fun m _ => ?_
  exact hi.safe_done trivial

/-- Arithmetic on one number leaves a number in its place. -/
theorem delivers_arithmeticOne (hi : Inside n L rest K env (.value :: st) s) {operation : String}
    {f : Int64 → Except Error Int64} (hf : ∀ m e, f m = .error e → (Failure.error e).Benign) :
    Delivers n L rest K env st (arithmeticOne operation f) s := by
  refine hi.safe_pop.bind ?_
  rintro L v s _ ⟨rfl, -, hi⟩
  refine inert_intArg.safe_bind hi.moves fun m _ => ?_
  refine (inert_ofExcept (hf m)).safe_bind hi.moves fun m _ => ?_
  exact hi.safe_done trivial

/-- A comparison takes all its arguments and leaves a truth value. -/
theorem delivers_comparison (hi : Inside n L rest K env (List.replicate argc .value ++ st) s)
    {operation : String} {f : List Int64 → Bool} :
    Delivers n L rest K env st (comparison operation argc f) s := by
  refine hi.safe_popMany.bind ?_
  rintro L vs s _ ⟨rfl, -, -, hi⟩
  refine (Inert.mapM fun v _ => inert_intArg).safe_bind hi.moves fun ns _ => ?_
  exact hi.safe_doneBool

/-- Copies of lists, one in front of the other, are new data. -/
theorem safe_appendLists (hs : Sound L s) {lists : List Value} {tail : Value}
    (hlists : ∀ v ∈ lists, L.Visible v) (htail : L.Visible tail) :
    Safe Evolves L (appendLists lists tail) s fun L' v _ => L'.Visible v := by
  refine Safe.foldrM (I := fun _ L' v _ => L'.Visible v) hs.evolves htail
    fun v after L' result s' hsuffix e hresult => ?_
  have hv : L'.Visible v := e.visible (hlists v (hsuffix.subset List.mem_cons_self))
  refine (inert_listArg e.sound.fits hv).safe_bind e.sound.evolves fun items hitems => ?_
  exact safe_heap e.sound (safe_listWithTail e.sound.fits hitems hresult)

/-- The last of visible values is visible, also if there is none. -/
theorem visible_getLastD {vs : List Value} (hvs : ∀ v ∈ vs, L.Visible v) :
    L.Visible (vs.getLastD .nil) := by
  rw [List.getLastD_eq_getLast?]
  cases h : vs.getLast? with
  | none => exact trivial
  | some v => exact hvs v (List.mem_of_getLast? h)

/-- A random number is drawn without touching anything but the draws. -/
theorem safe_chooseBelow (hs : Sound L s) {limit : Int64} :
    Safe Evolves L (chooseBelow limit) s fun _ _ _ => True :=
  ⟨L, ⟨.refl _ L _, hs.apart rfl rfl rfl rfl rfl rfl, rfl, rfl, fun hi => hi.of_eq rfl rfl rfl⟩,
    trivial⟩

/-- A primitive makes a tail call only before a return. -/
theorem continuationMode_eq {b : Base} {ctx : List Item}
    (hcode : L.Code s.image.heap b env st ctx s.machine.control) :
    ∃ mode, continuationMode s = .ok mode s ∧
      (mode = .tail → L.Returns s.image.heap s.machine.control) := by
  rcases htop : s.machine.dump.top? with _ | ⟨env, code, exits⟩ | code
  · exact ⟨.push, by simp [continuationMode, bind, EStateM.bind, pure, EStateM.pure, view, asks, htop], nofun⟩
  -- With a call on top of the dump, the mode is `tail` just if the code that comes next starts with
  -- `RTN`.
  · by_cases hr : ∃ id, s.machine.control = .pair id ∧ s.image.heap.car id = .op .rtn
    · obtain ⟨id, hc, hop⟩ := hr
      refine ⟨.tail, by simp [continuationMode, bind, EStateM.bind, pure, EStateM.pure, view, asks, htop, hc, hop],
        fun _ => ?_⟩
      rw [hc] at hcode ⊢
      exact hcode.returns hop
    · refine ⟨.push, ?_, nofun⟩
      cases hc : s.machine.control with
      | pair id =>
        have hop : s.image.heap.car id ≠ .op .rtn := fun hop => hr ⟨id, hc, hop⟩
        simp [continuationMode, bind, EStateM.bind, pure, EStateM.pure, view, asks, htop, hc, hop]
      | _ => simp [continuationMode, bind, EStateM.bind, pure, EStateM.pure, view, asks, htop, hc]
  · exact ⟨.push, by simp [continuationMode, bind, EStateM.bind, pure, EStateM.pure, view, asks, htop], nofun⟩

/-! ### Pairs and lists -/

/-- A pair of two values, if there is room for it. -/
theorem delivers_cons (hi : Inside n L rest K env (.value :: .value :: st) s) :
    Delivers n L rest K env st (runBuiltin .cons 2) s := by
  refine hi.safe_popTwo.bind ?_
  rintro L ⟨a, d⟩ s _ ⟨rfl, ha, hd, hi⟩
  refine (hi.quiet (safe_heap hi.sound (safe_cons hi.sound.fits ha hd))).bind ?_
  rintro L v s _ ⟨hv, hi⟩
  exact hi.safe_done hv

/-- The head of a list is visible as the list is. -/
theorem delivers_car (hi : Inside n L rest K env (.value :: st) s) :
    Delivers n L rest K env st (runBuiltin .car 1) s := by
  refine hi.safe_pop.bind ?_
  rintro L v s _ ⟨rfl, hv, hi⟩
  refine (inert_query fun _ => Heap.head_benign).safe_bind hi.moves fun w hw => ?_
  exact hi.safe_done (hi.sound.fits.head hv hw)

/-- So is its tail. -/
theorem delivers_cdr (hi : Inside n L rest K env (.value :: st) s) :
    Delivers n L rest K env st (runBuiltin .cdr 1) s := by
  refine hi.safe_pop.bind ?_
  rintro L v s _ ⟨rfl, hv, hi⟩
  refine (inert_query fun _ => Heap.tail_benign).safe_bind hi.moves fun w hw => ?_
  exact hi.safe_done (hi.sound.fits.tail hv hw)

/-- Replacing a head keeps the heap in order, as data stays data. -/
theorem delivers_rplaca (hi : Inside n L rest K env (.value :: .value :: st) s) :
    Delivers n L rest K env st (runBuiltin .rplaca 2) s := by
  refine hi.safe_popTwo.bind ?_
  rintro L ⟨x, v⟩ s _ ⟨rfl, hx, hv, hi⟩
  refine inert_pairArg.safe_bind hi.moves ?_
  rintro id rfl
  refine (hi.quiet (safe_modifyHeap hi.sound (hi.sound.fits.setCar hx hv))).bind ?_
  rintro L _ s _ ⟨rfl, hi'⟩
  exact hi'.safe_done hx

/-- Replacing a tail does, too. -/
theorem delivers_rplacd (hi : Inside n L rest K env (.value :: .value :: st) s) :
    Delivers n L rest K env st (runBuiltin .rplacd 2) s := by
  refine hi.safe_popTwo.bind ?_
  rintro L ⟨x, v⟩ s _ ⟨rfl, hx, hv, hi⟩
  refine inert_pairArg.safe_bind hi.moves ?_
  rintro id rfl
  refine (hi.quiet (safe_modifyHeap hi.sound (hi.sound.fits.setCdr hx hv))).bind ?_
  rintro L _ s _ ⟨rfl, hi'⟩
  exact hi'.safe_done hx

/-- A list of all arguments. -/
theorem delivers_list (hi : Inside n L rest K env (List.replicate argc .value ++ st) s) :
    Delivers n L rest K env st (runBuiltin .list argc) s := by
  refine hi.safe_popMany.bind ?_
  rintro L vs s _ ⟨rfl, -, hvs, hi⟩
  refine (hi.quiet (safe_heap hi.sound (safe_list hi.sound.fits hvs))).bind ?_
  rintro L v s _ ⟨hv, hi⟩
  exact hi.safe_done hv

/-- A list of all arguments but the last one, which is its tail. -/
theorem delivers_listStar (hi : Inside n L rest K env (List.replicate argc .value ++ st) s) :
    Delivers n L rest K env st (runBuiltin .listStar argc) s := by
  refine hi.safe_popMany.bind ?_
  rintro L vs s _ ⟨rfl, -, hvs, hi⟩
  refine (hi.quiet (safe_heap hi.sound (safe_listWithTail hi.sound.fits
    (fun v hv => hvs v (List.dropLast_subset vs hv)) (visible_getLastD hvs)))).bind ?_
  rintro L v s _ ⟨hv, hi⟩
  exact hi.safe_done hv

/-- The arguments copied onto each other, the last one shared. -/
theorem delivers_append (hi : Inside n L rest K env (List.replicate argc .value ++ st) s) :
    Delivers n L rest K env st (runBuiltin .append argc) s := by
  refine hi.safe_popMany.bind ?_
  rintro L vs s _ ⟨rfl, -, hvs, hi⟩
  refine (hi.quiet (safe_appendLists hi.sound
    (fun v hv => hvs v (List.dropLast_subset vs hv)) (visible_getLastD hvs))).bind ?_
  rintro L v s _ ⟨hv, hi⟩
  exact hi.safe_done hv

/-- The length of a list. -/
theorem delivers_length (hi : Inside n L rest K env (.value :: st) s) :
    Delivers n L rest K env st (runBuiltin .length 1) s := by
  refine hi.safe_pop.bind ?_
  rintro L v s _ ⟨rfl, hv, hi⟩
  refine (inert_listArg hi.sound.fits hv).safe_bind hi.moves fun items _ => ?_
  exact hi.safe_done trivial

/-- A new list of the same elements. -/
theorem delivers_reverse (hi : Inside n L rest K env (.value :: st) s) :
    Delivers n L rest K env st (runBuiltin .reverse 1) s := by
  refine hi.safe_pop.bind ?_
  rintro L v s _ ⟨rfl, hv, hi⟩
  refine (inert_listArg hi.sound.fits hv).safe_bind hi.moves fun items hitems => ?_
  refine (hi.quiet (safe_heap hi.sound (safe_list hi.sound.fits (by simpa using hitems)))).bind ?_
  rintro L v s _ ⟨hv, hi⟩
  exact hi.safe_done hv

/-! ### Equality and kinds -/

/-- A comparison of two structures leaves a truth value, if it ends. -/
theorem delivers_equal (hi : Inside n L rest K env (.value :: .value :: st) s) :
    Delivers n L rest K env st (runBuiltin .equal 2) s := by
  refine hi.safe_popTwo.bind ?_
  rintro L ⟨a, b⟩ s _ ⟨rfl, -, -, hi⟩
  refine (inert_walk fun _ => Heap.equal_benign).safe_bind hi.moves fun b _ => ?_
  exact hi.safe_doneBool

/-- Macros are functions of the table, but no values to be called. -/
theorem delivers_functionp (hi : Inside n L rest K env (.value :: st) s) :
    Delivers n L rest K env st (runBuiltin .functionp 1) s := by
  refine hi.safe_pop.bind ?_
  rintro L v s _ ⟨rfl, -, hi⟩
  cases v with
  | function f => exact safe_asks_bind.2 hi.safe_doneBool
  | _ => exact hi.safe_doneBool

/-! ### Numbers -/

/-- The remainder of two numbers. -/
theorem delivers_mod (hi : Inside n L rest K env (.value :: .value :: st) s) :
    Delivers n L rest K env st (runBuiltin .mod 2) s := by
  refine hi.safe_popTwo.bind ?_
  rintro L ⟨a, b⟩ s _ ⟨rfl, -, -, hi⟩
  refine inert_intArg.safe_bind hi.moves fun a _ => ?_
  refine inert_intArg.safe_bind hi.moves fun b _ => ?_
  refine (inert_ofExcept fun _ => Fixnum.mod_benign).safe_bind hi.moves fun m _ => ?_
  exact hi.safe_done trivial

/-- Whether a number is zero. -/
theorem delivers_zerop (hi : Inside n L rest K env (.value :: st) s) :
    Delivers n L rest K env st (runBuiltin .zerop 1) s := by
  refine hi.safe_pop.bind ?_
  rintro L v s _ ⟨rfl, -, hi⟩
  refine inert_intArg.safe_bind hi.moves fun m _ => ?_
  exact hi.safe_doneBool

/-- A random number below a limit. -/
theorem delivers_random (hi : Inside n L rest K env (.value :: st) s) :
    Delivers n L rest K env st (runBuiltin .random 1) s := by
  refine hi.safe_pop.bind ?_
  rintro L v s _ ⟨rfl, -, hi⟩
  refine inert_intArg.safe_bind hi.moves fun limit _ => ?_
  by_cases hlimit : limit ≤ 0
  · simp only [hlimit, if_true]
    exact safe_raise_bind hi.moves trivial
  · simp only [hlimit, if_false]
    refine (hi.quiet (safe_chooseBelow hi.sound)).bind ?_
    rintro L m s _ ⟨-, hi⟩
    exact hi.safe_done trivial

/-! ### Output and errors -/

/-- What is printed is left on the stack. -/
theorem delivers_print (hi : Inside n L rest K env (.value :: st) s) :
    Delivers n L rest K env st (runBuiltin .print 1) s := by
  refine hi.safe_pop.bind ?_
  rintro L v s _ ⟨rfl, hv, hi⟩
  refine safe_shown_bind.2 ?_
  refine (hi.quiet (safe_modify_apart hi.sound rfl rfl rfl rfl rfl rfl rfl)).bind ?_
  rintro L _ s _ ⟨rfl, hi'⟩
  exact hi'.safe_done hv

/-- An error that the program raises is no broken rule. -/
theorem delivers_error (hi : Inside n L rest K env (List.replicate argc .value ++ st) s) :
    Delivers n L rest K env st (runBuiltin .error argc) s := by
  refine hi.safe_popMany.bind ?_
  rintro L vs s _ ⟨rfl, -, -, hi⟩
  have hshown : ∀ v ∈ vs, Inert (shown v) s fun _ => True := fun v _ => .inl ⟨_, rfl, trivial⟩
  refine (Inert.mapM hshown).safe_bind hi.moves fun texts _ => ?_
  exact safe_raise hi.moves trivial

/-! ### Symbols -/

/-- The value of a variable, if it has one. -/
theorem delivers_symbolValue (hi : Inside n L rest K env (.value :: st) s) :
    Delivers n L rest K env st (runBuiltin .symbolValue 1) s := by
  refine hi.safe_pop.bind ?_
  rintro L v s _ ⟨rfl, -, hi⟩
  refine inert_symbolArg.safe_bind hi.moves fun id _ => ?_
  refine (inert_query fun _ => SymbolTable.value_benign).safe_bind hi.moves fun w hw => ?_
  exact hi.safe_done (hi.sound.value hw)

/-- What is assigned is left on the stack. A constant refuses it. -/
theorem delivers_set (hi : Inside n L rest K env (.value :: .value :: st) s) :
    Delivers n L rest K env st (runBuiltin .set 2) s := by
  refine hi.safe_popTwo.bind ?_
  rintro L ⟨x, v⟩ s _ ⟨rfl, -, hv, hi⟩
  refine inert_symbolArg.safe_bind hi.moves fun id _ => ?_
  refine (hi.quiet (safe_setValue hi.sound hv)).bind ?_
  rintro L _ s _ ⟨⟨rfl, -⟩, hi'⟩
  exact hi'.safe_done hv

/-- The function of a symbol, if it has one. -/
theorem delivers_symbolFunction (hi : Inside n L rest K env (.value :: st) s) :
    Delivers n L rest K env st (runBuiltin .symbolFunction 1) s := by
  refine hi.safe_pop.bind ?_
  rintro L v s _ ⟨rfl, -, hi⟩
  refine inert_symbolArg.safe_bind hi.moves fun id _ => ?_
  refine (inert_query fun _ => SymbolTable.functionValue_benign).safe_bind hi.moves fun w hw => ?_
  exact hi.safe_done (hi.sound.functionValue hw)

/-- Whether a symbol has a function. -/
theorem delivers_fboundp (hi : Inside n L rest K env (.value :: st) s) :
    Delivers n L rest K env st (runBuiltin .fboundp 1) s := by
  refine hi.safe_pop.bind ?_
  rintro L v s _ ⟨rfl, -, hi⟩
  refine inert_symbolArg.safe_bind hi.moves fun id _ => safe_asks_bind.2 ?_
  split <;> exact hi.safe_doneBool

/-- Whether a variable has a value. -/
theorem delivers_boundp (hi : Inside n L rest K env (.value :: st) s) :
    Delivers n L rest K env st (runBuiltin .boundp 1) s := by
  refine hi.safe_pop.bind ?_
  rintro L v s _ ⟨rfl, -, hi⟩
  refine inert_symbolArg.safe_bind hi.moves fun id _ => safe_asks_bind.2 ?_
  exact hi.safe_doneBool

/-- A new symbol. -/
theorem delivers_gensym (hi : Inside n L rest K env (List.replicate argc .value ++ st) s) :
    Delivers n L rest K env st (runBuiltin .gensym argc) s := by
  refine hi.safe_popMany.bind ?_
  rintro L vs s _ ⟨rfl, -, -, hi⟩
  have hgensym : ∀ stem, Delivers n L rest K env st
      (do done (.symbol (← SymbolTable.gensym stem)) : LispM Flow) s := by
    intro stem
    refine (hi.quiet (safe_gensym hi.sound stem)).bind ?_
    rintro L id s _ ⟨⟨rfl, -, -, -, hid⟩, hi'⟩
    exact hi'.safe_done hid
  cases vs with
  | nil => exact safe_pure_bind.2 (hgensym _)
  | cons v vs =>
    refine inert_symbolArg.safe_bind hi.moves fun id _ => safe_nameOf_bind.2 (hgensym _)

/-! ### Calls -/

/-- The stack is left as it is: the call finds its function and its arguments there. -/
theorem delivers_funcall (hb : 1 ≤ argc) (hi : Inside n L rest K env (List.replicate argc .value ++ st) s)
    (hcode : L.Code s.image.heap K.base env (.value :: st) K.context s.machine.control) :
    Delivers n L rest K env st (runBuiltin .funcall argc) s := by
  obtain ⟨mode, hmode, hreturns⟩ := continuationMode_eq hcode
  have hzero : argc ≠ 0 := by omega
  simp only [runBuiltin, hzero, if_false]
  refine (safe_bind_of_ok hmode).2 (Safe.pure hi.moves ⟨?_, hreturns⟩)
  rwa [Nat.sub_add_cancel hb]

/-- The elements of the last argument take its place on the stack, for the call to find. -/
theorem delivers_apply (hb : 2 ≤ argc) (hi : Inside n L rest K env (List.replicate argc .value ++ st) s)
    (hcode : L.Code s.image.heap K.base env (.value :: st) K.context s.machine.control) :
    Delivers n L rest K env st (runBuiltin .apply argc) s := by
  obtain ⟨argc, rfl⟩ : ∃ k, argc = k + 2 := ⟨argc - 2, (Nat.sub_add_cancel hb).symm⟩
  refine hi.safe_pop.bind ?_
  rintro L v s' m ⟨rfl, hv, hi⟩
  refine (inert_listArg hi.sound.fits hv).safe_bind hi.moves fun items hitems => ?_
  have hi' := hi.pushMany hitems
  -- The last argument is replaced by its elements, so the operands are counted anew.
  have hslots : List.replicate items.length Slot.value ++ (List.replicate (argc + 1) .value ++ st) =
      List.replicate (argc + 2 + items.length - 2 + 1) .value ++ st := by
    rw [← List.append_assoc, List.replicate_append_replicate]
    congr 2
    omega
  have hcode' : L.Code s'.image.heap K.base env (.value :: st) K.context s'.machine.control :=
    m.control ▸ hcode.grows m.grows
  refine (show Safe (Moves n) L (pushMany items) s' fun L' _ s'' => L' = L ∧
    s'' = { s' with machine.stack := s'.machine.stack.pushMany items } from
      ⟨L, hi.moves_setStack _, rfl, rfl⟩).bind ?_
  rintro L _ _ _ ⟨rfl, rfl⟩
  have hfew : ¬argc + 2 + items.length < 2 := by omega
  simp only [hfew, if_false]
  obtain ⟨mode, hmode, hreturns⟩ :=
    continuationMode_eq (s := { s' with machine.stack := s'.machine.stack.pushMany items }) hcode'
  exact (safe_bind_of_ok hmode).2 (Safe.pure hi'.moves ⟨hslots ▸ hi', hreturns⟩)

/-! ### All of them -/

/-- A primitive leaves one value in place of its arguments, or a request. -/
theorem safe_runBuiltin {b : Builtin} (hb : b.Takes argc)
    (hi : Inside n L rest K env (List.replicate argc .value ++ st) s)
    (hcode : L.Code s.image.heap K.base env (.value :: st) K.context s.machine.control) :
    Safe (Moves n) L (runBuiltin b argc) s fun L' flow s' =>
      Yields n L' rest K env st flow s' := by
  cases b with
  | cons =>
    obtain rfl : argc = 2 := hb
    exact delivers_cons hi
  | car =>
    obtain rfl : argc = 1 := hb
    exact delivers_car hi
  | cdr =>
    obtain rfl : argc = 1 := hb
    exact delivers_cdr hi
  | rplaca =>
    obtain rfl : argc = 2 := hb
    exact delivers_rplaca hi
  | rplacd =>
    obtain rfl : argc = 2 := hb
    exact delivers_rplacd hi
  | list => exact delivers_list hi
  | listStar => exact delivers_listStar hi
  | append => exact delivers_append hi
  | length =>
    obtain rfl : argc = 1 := hb
    exact delivers_length hi
  | reverse =>
    obtain rfl : argc = 1 := hb
    exact delivers_reverse hi
  | eq =>
    obtain rfl : argc = 2 := hb
    refine hi.safe_popTwo.bind ?_
    rintro L ⟨a, b⟩ s _ ⟨rfl, -, -, hi⟩
    exact hi.safe_doneBool
  | equal =>
    obtain rfl : argc = 2 := hb
    exact delivers_equal hi
  | atom | consp | listp | symbolp | numberp | null =>
    obtain rfl : argc = 1 := hb
    exact delivers_predicate hi
  | functionp =>
    obtain rfl : argc = 1 := hb
    exact delivers_functionp hi
  | add => exact delivers_arithmetic hi fun _ _ => Fixnum.sum_benign
  | sub => exact delivers_arithmetic hi fun _ _ => Fixnum.difference_benign
  | mul => exact delivers_arithmetic hi fun _ _ => Fixnum.product_benign
  | min | max => exact delivers_arithmetic hi nofun
  | mod =>
    obtain rfl : argc = 2 := hb
    exact delivers_mod hi
  | inc | dec | abs =>
    obtain rfl : argc = 1 := hb
    exact delivers_arithmeticOne hi fun _ _ => Fixnum.exact_benign
  | numEq | numNe | lt | gt | le | ge => exact delivers_comparison hi
  | zerop =>
    obtain rfl : argc = 1 := hb
    exact delivers_zerop hi
  | random =>
    obtain rfl : argc = 1 := hb
    exact delivers_random hi
  | print =>
    obtain rfl : argc = 1 := hb
    exact delivers_print hi
  | error => exact delivers_error hi
  | symbolValue =>
    obtain rfl : argc = 1 := hb
    exact delivers_symbolValue hi
  | set =>
    obtain rfl : argc = 2 := hb
    exact delivers_set hi
  | symbolFunction =>
    obtain rfl : argc = 1 := hb
    exact delivers_symbolFunction hi
  | fboundp =>
    obtain rfl : argc = 1 := hb
    exact delivers_fboundp hi
  | boundp =>
    obtain rfl : argc = 1 := hb
    exact delivers_boundp hi
  | gensym => exact delivers_gensym hi
  -- These three leave their work to a request, and only take the form off the stack.
  | macroexpandOnce | macroexpand | eval =>
    obtain rfl : argc = 1 := hb
    refine hi.safe_pop.bind ?_
    rintro L form s _ ⟨rfl, hform, hi⟩
    exact Safe.pure hi.moves ⟨hform, hi⟩
  | funcall => exact delivers_funcall hb hi hcode
  | apply => exact delivers_apply hb hi hcode

end

end StackLisp
