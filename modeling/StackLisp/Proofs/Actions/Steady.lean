import StackLisp.Proofs.Actions.Machine
import StackLisp.Proofs.Safety.Unwind

/-!
# What actions do to symbols and bindings

`Upholds R F x` says that the action `x` only does what the relation `R` between
interpreters allows, and fails as `F` says; `Steady R E x` is the case where nothing is
said of failures, but for those that count, after which `R` holds as well. For every
transitive relation that quiet actions respect, this is a congruence, so one has to
look only at the few actions that make or change symbols and bindings. What each
of those leads to is said here once (`leads_update`, `leads_bindSpecial`, ...), and
what a definition can end in (`leads_definitionBy`).

A first example: no symbol is lost, gets another name or becomes a constant (`Retains`).
-/

namespace StackLisp

open Interpreter Compiler Machine

variable {α β : Type}

/-- Whatever `x` does is allowed by `R`, and its failures are as `F` says. -/
structure Upholds (R : Interpreter → Interpreter → Prop)
    (F : Failure → Interpreter → Interpreter → Prop) (x : LispM α) : Prop where
  leads : ∀ s, Leads x s (fun _ s' => R s s') fun e s' => F e s s'

/-- Whatever `x` does is allowed by `R`, unless it fails in a way that does not count. -/
abbrev Steady (R : Interpreter → Interpreter → Prop) (E : Failure → Prop) (x : LispM α) : Prop :=
  Upholds R (fun e s s' => E e → R s s') x

/-- A relation between interpreters that quiet actions respect. -/
structure Steadiness (R : Interpreter → Interpreter → Prop) : Prop where
  still : ∀ {s s'}, Still s s' → R s s'
  trans : ∀ {s s' s''}, R s s' → R s' s'' → R s s''

/-- What is said of failures holds of those after which the relation holds, and what the relation
    allows may come before a failure, and after it when it is passed on. -/
structure FailsWith (R : Interpreter → Interpreter → Prop)
    (F : Failure → Interpreter → Interpreter → Prop) : Prop extends Steadiness R where
  of : ∀ {e s s'}, R s s' → F e s s'
  before : ∀ {e s s' s''}, R s s' → F e s' s'' → F e s s''
  after : ∀ {e s s' s''}, F e s s' → R s' s'' → F e s s''

/-- Failures that do not count may leave anything. -/
theorem Steadiness.failsWith {R : Interpreter → Interpreter → Prop} {E : Failure → Prop}
    (hR : Steadiness R) : FailsWith R fun e s s' => E e → R s s' where
  toSteadiness := hR
  of h _ := h
  before h h' he := hR.trans h (h' he)
  after h h' he := hR.trans (h he) h'

/-- Two properties that are congruences, together. -/
theorem BasicCongruence.and {𝓡 𝓢 : ⦃α : Type⦄ → LispM α → LispM α → Prop} (h𝓡 : BasicCongruence 𝓡)
    (h𝓢 : BasicCongruence 𝓢) : BasicCongruence fun _ x y => 𝓡 x y ∧ 𝓢 x y where
  quiet hx := ⟨h𝓡.quiet hx, h𝓢.quiet hx⟩
  bind hx hf := ⟨h𝓡.bind hx.1 fun a => (hf a).1, h𝓢.bind hx.2 fun a => (hf a).2⟩
  gensym stem := ⟨h𝓡.gensym stem, h𝓢.gensym stem⟩

/-- The same for what the compiler does. -/
theorem Congruence.and {𝓡 𝓢 : ⦃α : Type⦄ → LispM α → LispM α → Prop} (h𝓡 : Congruence 𝓡)
    (h𝓢 : Congruence 𝓢) : Congruence fun _ x y => 𝓡 x y ∧ 𝓢 x y where
  toBasicCongruence := h𝓡.toBasicCongruence.and h𝓢.toBasicCongruence
  reject kind name := ⟨h𝓡.reject kind name, h𝓢.reject kind name⟩
  tame hx he := ⟨h𝓡.tame hx he, h𝓢.tame hx he⟩
  guard hx hok herr heven := ⟨h𝓡.guard hx.1 hok herr heven, h𝓢.guard hx.2 hok herr heven⟩
  declareSpecial id := ⟨h𝓡.declareSpecial id, h𝓢.declareSpecial id⟩
  emitApply argc cont := ⟨h𝓡.emitApply argc cont, h𝓢.emitApply argc cont⟩
  forget := ⟨h𝓡.forget, h𝓢.forget⟩
  closeBlock hx := ⟨h𝓡.closeBlock hx.1, h𝓢.closeBlock hx.2⟩
  apart hx := ⟨h𝓡.apart hx.1, h𝓢.apart hx.2⟩

section

variable {R : Interpreter → Interpreter → Prop} {F : Failure → Interpreter → Interpreter → Prop}
  (hF : FailsWith R F)

include hF

/-- What is mild is allowed, whether or not it fails. -/
theorem FailsWith.mild {x : LispM α} (hx : Mild x) : Upholds R F x where
  leads s := (hx.leads s).mono (fun _ _ h => hF.still h) fun _ _ h => hF.of (hF.still h)

/-- What the first part does may come before the failure of the second. -/
theorem FailsWith.bind {x : LispM α} {f : α → LispM β} (hx : Upholds R F x)
    (hf : ∀ a, Upholds R F (f a)) : Upholds R F (x >>= f) where
  leads s := (leads_bind f).2 ((hx.leads s).mono
    (fun a _ h => ((hf a).leads _).mono (fun _ _ h' => hF.trans h h') fun _ _ h' => hF.before h h')
    fun _ _ h => h)

/-- After a failure only what is still may be done, and the failure is handed on. -/
theorem FailsWith.guard {x : LispM α} {f : Except Failure α → LispM β} (hx : Upholds R F x)
    (hok : ∀ a, Mild (f (.ok a))) (herr : ∀ e, Rethrows Still e (f (.error e))) :
    Upholds R F (attempt x >>= f) where
  leads s := by
    rw [leads_bind, leads_attempt]
    refine (hx.leads s).mono (fun a s₁ h => ?_) fun e s₁ h => ?_
    · exact ((hok a).leads s₁).mono (fun _ _ h' => hF.trans h (hF.still h')) fun _ _ h' =>
        hF.before h (hF.of (hF.still h'))
    · obtain ⟨s₂, hs₂, h'⟩ := (herr e).eq s₁
      exact (leads_of_error hs₂).2 (hF.after h (hF.still h'))

/-- Such a property is a congruence if making and declaring symbols has it. -/
theorem FailsWith.mildCongruence
    (hgensym : ∀ stem, Upholds R F (liftM (SymbolTable.gensym stem) : LispM SymbolId))
    (hdeclare : ∀ id, Upholds R F (liftM (SymbolTable.declareSpecial id) : LispM Unit)) :
    MildCongruence fun _ x _ => Upholds R F x where
  mild := hF.mild
  bind := hF.bind
  guard := hF.guard
  gensym := hgensym
  declareSpecial := hdeclare

end

/-! ## The actions on symbols and bindings -/

namespace Interpreter

/-- The interpreter with a symbol changed. -/
def withSymbol (s : Interpreter) (id : SymbolId) (f : Symbol → Symbol) : Interpreter :=
  { s with image.symbols := s.image.symbols.modify id f }

/-- The interpreter with another function cell. -/
def withCell (s : Interpreter) (id : SymbolId) (cell : FunctionCell) : Interpreter :=
  s.withSymbol id fun x => { x with function := cell }

/-- The interpreter with one more symbol. -/
def withGensym (s : Interpreter) (stem : String) : Interpreter :=
  { s with
    image.symbols :=
      { symbols := s.image.symbols.symbols.push
          { name := s!"{stem}{s.image.symbols.gensyms + 1}", interned := false }
        gensyms := s.image.symbols.gensyms + 1 } }

/-- The interpreter with a symbol bound. -/
def withBinding (s : Interpreter) (id : SymbolId) (v : Value) : Interpreter :=
  { s with
    image.symbols := (s.image.symbols.restoreValue id (some v)).enterBinding id
    machine.bindings := s.machine.bindings.push ⟨id, (s.image.symbols.get id).value⟩ }

/-- The interpreter without its `n` innermost bindings. -/
def withoutBindings (s : Interpreter) (n : Nat) : Interpreter :=
  { s with
    image.symbols := s.image.symbols.restoreAll (s.machine.bindings.items.take n)
    machine.bindings := s.machine.bindings.drop n }

end Interpreter

section

variable {s : Interpreter} {err : Failure → Interpreter → Prop} {ok : Unit → Interpreter → Prop}

/-- A constant is not changed. -/
theorem leads_update {id : SymbolId} {f : Symbol → Symbol} :
    Leads (liftM (SymbolTable.update id f) : LispM Unit) s ok err ↔
      if s.image.symbols.isConstant id then
        err (.error (.constantRedefinition (s.image.symbols.name id))) s
      else
        ok () (s.withSymbol id f) := by
  rw [leads_symbols]
  unfold Leads SymbolTable.update
  cases s.image.symbols.isConstant id <;> rfl

/-- The new symbol has the next number. -/
theorem leads_gensym {stem : String} {ok : SymbolId → Interpreter → Prop} :
    Leads (liftM (SymbolTable.gensym stem) : LispM SymbolId) s ok err ↔
      ok ⟨s.image.symbols.size⟩ (s.withGensym stem) := leads_symbols

/-- The value that was in force goes on the stack of bindings. -/
theorem leads_bindSpecial {id : SymbolId} {v : Value} :
    Leads (bindSpecial id v) s ok err ↔ ok () (s.withBinding id v) := Iff.rfl

/-- As many bindings are ended as there are above the height. -/
theorem leads_unwindBindings {height : Nat} :
    Leads (unwindBindings height) s ok err ↔
      ok () (s.withoutBindings (s.machine.bindings.height - height)) := by
  have hunwind : unwindBindings height s =
      .ok () (s.withoutBindings (s.machine.bindings.height - height)) := by
    simp only [unwindBindings, bind, EStateM.bind, view, modifyMachine_apply, forM_restore_eq, withoutBindings, Stack.truncate]
  exact leads_of_ok hunwind

/-- The innermost binding is ended if it is one of the symbol. It is gone in any case. -/
theorem leads_unbindSpecial {id : SymbolId} :
    Leads (unbindSpecial id) s ok err ↔
      match s.machine.bindings.items with
      | [] => err (.error (.fatal (.unbindWithoutBinding (s.image.symbols.name id)))) s
      | saved :: _ =>
        if saved.symbol = id then
          ok () (s.withoutBindings 1)
        else
          err (.error (.fatal (.unbindMismatch (s.image.symbols.name id)
            (s.image.symbols.name saved.symbol)))) { s with
              machine.bindings := s.machine.bindings.drop 1 } := by
  unfold unbindSpecial
  rw [leads_bind, leads_view]
  -- The entry on top is taken off before it is looked at, also if it is of another symbol.
  rcases hb : s.machine.bindings with ⟨items, height, hheight⟩
  cases items with
  | nil => simp [Stack.pop?]
  | cons saved rest =>
    simp only [Stack.pop?]
    rw [leads_bind, leads_modifyMachine]
    split
    · refine (leads_of_ok (restore_eq _ _)).trans ?_
      simp only [withoutBindings, hb, Stack.drop]
      rfl
    · simp [Stack.drop]

end

/-- The cell of a constant is not set. -/
theorem leads_setCell {id : SymbolId} {cell : FunctionCell} {s : Interpreter}
    {err : Failure → Interpreter → Prop} {ok : Unit → Interpreter → Prop} :
    Leads (liftM (SymbolTable.setCell id cell) : LispM Unit) s ok err ↔
      if s.image.symbols.isConstant id then
        err (.error (.constantRedefinition (s.image.symbols.name id))) s
      else
        ok () (s.withCell id cell) := leads_update

/-! ## Making pairs -/

/-- The action makes `n` pairs and does nothing else, and fails for want of room only. -/
structure Allocates (n : Nat) (x : LispM α) : Prop where
  leads : ∀ s, Leads x s
    (fun _ s' => ∃ h, s.image.heap.Gains n h ∧ s' = { s with image.heap := h })
    fun e s' => ∃ h, s.image.heap.OutOfRoom n e h ∧ s' = { s with image.heap := h }

/-- What is known of the action on the heap is all that there is to it. -/
theorem allocates_heap {x : HeapM α} {n : Nat}
    (hx : ∀ h, Leads x h (fun _ h' => h.Gains n h') fun e h' => h.OutOfRoom n e h') :
    Allocates n (liftM x : LispM α) where
  leads s := leads_heap.2 ((hx s.image.heap).mono (fun _ h g => ⟨h, g, rfl⟩) fun _ h he => ⟨h, he, rfl⟩)

/-- Two such actions make the pairs of both. -/
theorem Allocates.bind {x : LispM α} {f : α → LispM β} {m n : Nat} (hx : Allocates m x)
    (hf : ∀ a, Allocates n (f a)) : Allocates (m + n) (x >>= f) where
  leads s := by
    refine (leads_bind f).2 ((hx.leads s).mono ?_ ?_)
    · rintro a s₁ ⟨h₁, g₁, rfl⟩
      refine ((hf a).leads _).mono ?_ ?_
      · rintro _ s₂ ⟨h₂, g₂, rfl⟩
        exact ⟨h₂, g₁.trans g₂, rfl⟩
      · rintro e s₂ ⟨h₂, he, rfl⟩
        exact ⟨h₂, he.after g₁, rfl⟩
    · rintro e s₁ ⟨h₁, he, rfl⟩
      exact ⟨h₁, he.mono (Nat.le_add_right m n), rfl⟩

/-- What holds after pairs have been made, or could not be. -/
theorem Allocates.leads_bind {x : LispM α} {f : α → LispM β} {n : Nat} (hx : Allocates n x)
    {s : Interpreter} {ok : β → Interpreter → Prop} {err : Failure → Interpreter → Prop}
    (hf : ∀ a h, s.image.heap.Gains n h → Leads (f a) { s with image.heap := h } ok err)
    (herr : ∀ e h, s.image.heap.OutOfRoom n e h → err e { s with image.heap := h }) :
    Leads (x >>= f) s ok err := by
  rw [StackLisp.leads_bind]
  refine (hx.leads s).mono ?_ ?_
  · rintro a s' ⟨h, g, rfl⟩
    exact hf a h g
  · rintro e s' ⟨h, he, rfl⟩
    exact herr e h he

theorem allocates_cons (a d : Value) : Allocates 1 (liftM (Heap.cons a d) : LispM Value) :=
  allocates_heap (Heap.leads_cons_gains a d)

theorem allocates_list (vs : List Value) : Allocates vs.length (liftM (Heap.list vs) : LispM Value) :=
  allocates_heap (Heap.leads_listWithTail_gains vs .nil)

/-- An instruction takes a pair for each operand, and one for the operation. -/
theorem allocates_emit (code : Opcode) (operands : List Value) (cont : Value) :
    Allocates (operands.length + 1) (emit code operands cont) :=
  (allocates_heap (Heap.leads_listWithTail_gains operands cont)).bind fun _ => allocates_cons ..

/-! ## Definitions -/

/-- The name that the arguments of a definition start with. -/
def Heap.definedName? (h : Heap) : Value → Option SymbolId
  | .pair id => (h.car id).symbol?
  | _ => none

/-- The elements that have been gone along already come first. -/
theorem Heap.items_spineFrom (h : Heap) (fuel : Nat) (seen : List Value) (v : Value) :
    (h.spineFrom seen fuel v).items = seen.reverse ++ (h.spineFrom [] fuel v).items := by
  induction fuel generalizing seen v with
  | zero => cases v <;> simp [spineFrom]
  | succ fuel ih =>
    cases v with
    | pair id =>
      simp only [spineFrom]
      rw [ih (h.car id :: seen), ih [h.car id]]
      simp
    | _ => simp [spineFrom]

/-- A list with elements is a pair. -/
theorem Heap.spineFrom_cons {h : Heap} {fuel : Nat} {v a : Value} {l : List Value}
    (hv : (h.spineFrom [] fuel v).items = a :: l) :
    ∃ id fuel', v = .pair id ∧ h.car id = a ∧ (h.spineFrom [] fuel' (h.cdr id)).items = l := by
  cases fuel with
  | zero => cases v <;> simp [spineFrom] at hv
  | succ fuel =>
    cases v with
    | pair id =>
      simp only [spineFrom] at hv
      rw [items_spineFrom] at hv
      simp only [List.reverse_singleton, List.singleton_append, List.cons.injEq] at hv
      exact ⟨id, fuel, rfl, hv⟩
    | _ => simp [spineFrom] at hv

/-- Where a list has elements, they are those of its spine. -/
theorem Heap.items_of_elements? {h : Heap} {v : Value} {items : List Value}
    (hv : h.elements? v = .ok (some items)) : (h.spine v).items = items := by
  unfold elements? at hv
  split at hv <;> simp_all

/-- The arguments of a form, or a failure that leaves everything alone. -/
theorem leads_arguments {args : Value} {s : Interpreter} :
    Leads (arguments args) s (fun items s' => s' = s ∧ (s.image.heap.spine args).items = items)
      fun e s' => e.Ordinary ∧ s' = s := by
  unfold arguments elements?
  rw [leads_bind, leads_walk]
  split
  · next items hitems =>
    cases items with
    | some items => exact ⟨rfl, Heap.items_of_elements? hitems⟩
    | none => exact ⟨trivial, rfl⟩
  · next he => exact ⟨Heap.elements?_error he ▸ trivial, rfl⟩

/-- The image with an expander for a macro. -/
def Image.withExpander (image : Image) (f : FunctionId) : Image :=
  { image with
    functions := (image.functions.push { image.function f with kind := .function }).modify f.index
      fun d => { d with expander := some ⟨image.functions.size⟩ } }

/-- An expander shares its code with the macro. -/
theorem Image.keepsFunctions_withExpander (image : Image) (f : FunctionId) :
    image.KeepsFunctions (image.withExpander f) where
  size := by simp [withExpander]
  code g hg := by
    simp only [withExpander, function, Array.getD_eq_getD_getElem?, Array.getElem?_modify,
      Array.getElem?_push, Nat.ne_of_lt hg, if_false]
    by_cases hfg : f.index = g.index
    · simp [hfg, Array.getElem?_eq_getElem hg]
    · simp [hfg]

/-- The image with an expander if the kind is that of macros. -/
def Image.expandedFor (image : Image) (kind : FunctionKind) (f : FunctionId) : Image :=
  if kind = .macroFunction then image.withExpander f else image

/-- A function of any other kind gets no expander. -/
theorem Image.keepsFunctions_expandedFor (image : Image) (kind : FunctionKind) (f : FunctionId) :
    image.KeepsFunctions (image.expandedFor kind f) := by
  cases kind with
  | function => exact .refl image
  | macroFunction => exact image.keepsFunctions_withExpander f

section

variable {make : SymbolId → Value → Value → LispM FunctionId} {kind : FunctionKind}
  {args cont : Value} {s : Interpreter} {ok : Value → Interpreter → Prop}
  {err : Failure → Interpreter → Prop}

/-- A line that is no mark. -/
theorem leads_record {level : LogLevel} {text : Image → String} {ok : Unit → Interpreter → Prop}
    (hlevel : level ≠ .off)
    (h : ∀ log, log.marks = s.image.log.marks → ok () { s with image.log := log }) :
    Leads (liftM (Image.record level text) : LispM Unit) s ok err := by
  obtain ⟨log, hlog, hmarks⟩ := record_marks hlevel text s
  exact (leads_of_ok hlog).2 (h log hmarks)

/-- The end of a definition, when its function has been compiled. -/
theorem leads_define {name : SymbolId} {f : FunctionId}
    (hname : s.image.symbols.isConstant name = false)
    (hend : ∀ s', Tame (s.withCell name (.function f)) s' →
      s'.image.functions = (s.image.expandedFor kind f).functions →
      (∀ v, ok v s') ∧ (¬s'.image.heap.RoomFor 1 → err (.error .heapOverflow) s')) :
    Leads (do
        if kind = .macroFunction then
          addExpander f
        SymbolTable.setCell name (.function f)
        Image.record .debug fun image =>
          let what := if kind = .macroFunction then "macro" else "function"
          s!"defined {what} {image.symbols.name name}"
        emit .ldc [.ofSymbol name] cont) s ok err := by
  -- The cell is set in an image that may have got one more function.
  have hset (image : Image) (hsymbols : image.symbols = s.image.symbols)
      (hheap : image.heap = s.image.heap) (hlog : image.log = s.image.log) (hfunctions : image.functions = (s.image.expandedFor kind f).functions) :
      Leads (do
        SymbolTable.setCell name (.function f)
        Image.record .debug fun image =>
          let what := if kind = .macroFunction then "macro" else "function"
          s!"defined {what} {image.symbols.name name}"
        emit .ldc [.ofSymbol name] cont : LispM Value) { s with image } ok err := by
    rw [leads_bind, leads_setCell]
    simp only [hsymbols, hname, Bool.false_eq_true, if_false]
    rw [leads_bind]
    refine leads_record nofun fun log hmarks => ?_
    have hkept : s.image.KeepsFunctions image :=
      (s.image.keepsFunctions_expandedFor kind f).trans (.of_eq hfunctions)
    have hends (h : Heap) (he : image.heap.Extended h) := hend { s with image := { image with
      symbols := image.symbols.modify name fun x => { x with function := .function f }
      log
      heap := h } } ⟨⟨by rw [hsymbols]; rfl, rfl, rfl, hmarks.trans (congrArg Log.marks hlog)⟩,
        hheap ▸ he, ⟨hkept.size, hkept.code⟩, rfl, rfl, rfl⟩ hfunctions
    refine ((allocates_emit ..).leads _).mono ?_ ?_
    · rintro v s' ⟨h, g, rfl⟩
      exact (hends h g.extended).1 v
    · rintro e s' ⟨h, he, rfl⟩
      exact he.overflows.1 ▸ (hends h he.extended).2 he.full
  cases kind with
  | function => exact hset s.image rfl rfl rfl rfl
  | macroFunction => exact hset (s.image.withExpander f) rfl rfl rfl rfl

/-- What a definition can end in. It is refused before anything is done; there is no room for
    its body, and its name is left pending; its function does not compile, and the name has its
    earlier function again; or the function is there, with or without room for the code that
    gives its name. -/
theorem leads_definitionBy (refused : ∀ e : Failure, e.Ordinary → err e s)
    (noRoom : ∀ {name : SymbolId} {arity : Arity} {s₁ : Interpreter},
      s.image.heap.definedName? args = some name → s.image.symbols.isConstant name = false →
      ¬s.image.heap.RoomFor 3 → Calm (s.withCell name (.pending arity kind)) s₁ →
      err (.error .heapOverflow) s₁)
    (made : ∀ {name : SymbolId} {form : String} {params body : Value} {frame : LexicalFrame}
      {s₁ : Interpreter}, s.image.heap.definedName? args = some name →
      s.image.symbols.isConstant name = false → s.image.heap.second args = .ok params →
      parseLambdaList form params s = .ok frame s →
      Calm (s.withCell name (.pending (frameArity frame) kind)) s₁ →
      Leads (make name params body) s₁
        (fun f s₂ => s₂.image.symbols.isConstant name = false ∧
          ∀ s₃, Tame (s₂.withCell name (.function f)) s₃ →
            s₃.image.functions = (s₂.image.expandedFor kind f).functions →
            (∀ v, ok v s₃) ∧ (¬s₃.image.heap.RoomFor 1 → err (.error .heapOverflow) s₃))
        fun e s₂ => s₂.image.symbols.isConstant name = false ∧
          err e (s₂.withCell name (s.image.symbols.cell name))) :
    Leads (definitionBy make kind args cont) s ok err := by
  unfold definitionBy
  rw [leads_bind]
  refine leads_arguments.mono ?_ fun e s' hs' => hs'.2 ▸ refused e hs'.1
  rintro items s' ⟨hs', hitems⟩
  rw [hs']
  split
  · next nameForm params others =>
    obtain ⟨id, fuel, rfl, hcar, hrest⟩ := Heap.spineFrom_cons hitems
    obtain ⟨id', _, hcdr, hparams, -⟩ := Heap.spineFrom_cons hrest
    split
    · next name hname =>
      have hdefined : s.image.heap.definedName? (.pair id) = some name := by
        rw [← hname, ← hcar, Heap.definedName?]
      rw [leads_bind]
      have hcheck := looks_checkRedefinition (if kind = .macroFunction then "defmacro" else "defun") name
      refine ((hcheck.leads s).and (hcheck.ordinary s)).mono (fun _ s' hs' => ?_) fun e s' hs' =>
        hs'.1 ▸ refused e hs'.2
      replace hs' := hs'.1
      rw [hs', leads_bind]
      have hlooks := (looks_parseLambdaList
        (if kind = .macroFunction then "defmacro" else "defun") params).leads s
      have hordinary := (looks_parseLambdaList
        (if kind = .macroFunction then "defmacro" else "defun") params).ordinary s
      cases hparse : parseLambdaList (if kind = .macroFunction then "defmacro" else "defun") params s with
      | error e s' =>
        rw [leads_of_error hparse] at hlooks hordinary ⊢
        exact hlooks ▸ refused e hordinary
      | ok frame s' =>
        rw [leads_of_ok hparse] at hlooks ⊢
        rw [hlooks] at hparse ⊢
        rw [leads_bind, leads_asks, leads_bind, leads_setCell]
        split
        · exact refused _ trivial
        · next hconstant =>
          have hconstant := Bool.eq_false_iff.2 hconstant
          have htail : (do Heap.tail s.image.heap (← Heap.tail s.image.heap (.pair id))) =
              .ok (s.image.heap.cdr id') := by
            simp only [Heap.tail, hcdr]
            rfl
          rw [leads_bind, leads_query]
          simp only [withCell, withSymbol, htail]
          have hcalm (h : Heap) (he : s.image.heap.Extended h) :
              Calm (s.withCell name (.pending (frameArity frame) kind))
                { s.withCell name (.pending (frameArity frame) kind) with image.heap := h } :=
            ⟨⟨rfl, rfl, rfl, rfl⟩, he, rfl, rfl, rfl, rfl⟩
          -- Three pairs are needed: the body gets the name in front, `block` before that, and is
          -- made a list.
          have hfull {n : Nat} {e : Failure} {h : Heap} (hn : n ≤ 3)
              (he : s.image.heap.OutOfRoom n e h) :
              err e { s.withCell name (.pending (frameArity frame) kind) with image.heap := h } :=
            he.overflows.1 ▸ noRoom hdefined hconstant (he.overflows.mono hn).2 (hcalm h he.extended)
          refine (allocates_cons ..).leads_bind (fun body h₁ g₁ => ?_) fun e h he =>
            hfull (by decide) he
          refine (allocates_cons ..).leads_bind (fun block h₂ g₂ => ?_) fun e h he =>
            hfull (by decide) (he.after g₁)
          refine (allocates_list ..).leads_bind (fun body h₃ g₃ => ?_) fun e h he =>
            hfull (Nat.le_refl 3) (he.after (g₁.trans g₂))
          have hmade := ((g₁.trans g₂).trans g₃).extended
          have hsecond : s.image.heap.second (.pair id) = .ok params := by
            rw [← hparams]
            simp only [Heap.second, Heap.tail, hcdr]
            rfl
          rw [leads_bind, leads_attempt]
          refine (made hdefined hconstant hsecond hparse (hcalm h₃ hmade)).mono
            (fun f s₂ h => ?_) fun e s₂ h => ?_
          · exact leads_define h.1 h.2
          · dsimp only
            rw [leads_bind, leads_setCell, h.1, if_neg Bool.false_ne_true]
            exact h.2
    · exact refused _ trivial
  · exact refused _ trivial

end

/-! ## Runs in registers of their own -/

section

variable {run : LispM Unit} {code : Value} {args : List Value} {s : Interpreter}
  {ok : Value → Interpreter → Prop} {err : Failure → Interpreter → Prop}

/-- The interpreter when a run has begun. -/
def Interpreter.entering (s : Interpreter) (env code : Value) : Interpreter :=
  { s with
    machine := { s.machine with
      toRegisters := { env, control := code }
      steps := if s.machine.nesting = 0 then 0 else s.machine.steps
      nesting := s.machine.nesting + 1 } }

/-- The interpreter when a run is over, with the registers of before. -/
def Interpreter.leaving (s : Interpreter) (registers : Registers) : Interpreter :=
  { s with
    machine := { s.machine with toRegisters := registers, nesting := s.machine.nesting - 1 } }

/-- What a run can end in: there is no room for its arguments; it comes to an end; or it fails,
    and the bindings that it has left are ended. -/
theorem leads_execute
    (noRoom : ∀ h, argumentEnv args s.image.heap = .error (.error .heapOverflow) h →
      err (.error .heapOverflow) { s with image.heap := h })
    (ran : ∀ env h, argumentEnv args s.image.heap = .ok env h →
      Leads run (({ s with image.heap := h } : Interpreter).entering env code)
        (fun _ s₁ => (∀ v s₂, s₁.machine.stack.top? = some v → Calm s₁ s₂ →
            ok v (s₂.leaving s.machine.toRegisters)) ∧
          (s₁.machine.stack.top? = none → err (.error (.fatal .stackUnderflow))
            ((s₁.withoutBindings (s₁.machine.bindings.height - s.machine.bindings.height)).leaving
              s.machine.toRegisters)))
        fun e s₁ => err e
          ((s₁.withoutBindings (s₁.machine.bindings.height - s.machine.bindings.height)).leaving
            s.machine.toRegisters)) :
    Leads (Interpreter.execute run code args) s ok err := by
  unfold Interpreter.execute
  rw [leads_bind, leads_heap]
  have hroom := Heap.leads_argumentEnv_gains args s.image.heap
  cases hargs : argumentEnv args s.image.heap with
  | error e h =>
    rw [leads_of_error hargs] at hroom ⊢
    obtain rfl := hroom.overflows.1
    exact noRoom h hargs
  | ok env h =>
  rw [leads_of_ok hargs, leads_bind, leads_get]
  dsimp only
  rw [leads_bind, leads_modifyMachine, leads_bind, leads_attempt, leads_bind]
  have hfailed (e : Failure) (s₁ : Interpreter) (he : err e
      ((s₁.withoutBindings (s₁.machine.bindings.height - s.machine.bindings.height)).leaving
        s.machine.toRegisters)) :
      Leads (do
        modifyMachine fun m => { m with nesting := m.nesting - 1 }
        unwindBindings s.machine.bindings.height
        modifyMachine fun m => { m with toRegisters := s.machine.toRegisters }
        resume (.error e) : LispM Value) s₁ ok err := by
    rw [leads_bind, leads_modifyMachine, leads_bind, leads_unwindBindings]
    exact he
  refine (ran env h hargs).mono (fun _ s₁ h₁ => ?_) fun e s₁ he => hfailed e s₁ he
  -- The value of the run is on its stack.
  have hpop := quiet_pop.calm s₁
  cases heq : pop s₁ with
  | ok v s₂ =>
    rw [leads_of_ok heq] at hpop ⊢
    refine h₁.1 v s₂ ?_ hpop
    unfold pop at heq
    rw [Stack.top?_eq_pop?]
    split at heq
    · next v' stack hstack =>
      injection heq with hv
      rw [hstack, ← hv]
      rfl
    · cases heq
  | error e s₂ =>
    obtain ⟨rfl, rfl, hempty⟩ : e = .error (.fatal .stackUnderflow) ∧ s₂ = s₁ ∧
        s₁.machine.stack.pop? = none := by
      unfold pop at heq
      split at heq
      · cases heq
      · next hnone =>
        cases heq
        exact ⟨rfl, rfl, hnone⟩
    rw [leads_of_error heq]
    refine hfailed _ s₂ (h₁.2 ?_)
    rw [Stack.top?_eq_pop?, hempty]
    rfl

end

/-! ## What bindings leave alone -/

section

variable (s : Interpreter)

/-- A binding changes the value of its symbol and the number of its bindings. -/
theorem rebound_withBinding (id : SymbolId) (v : Value) :
    s.image.symbols.Rebound (s.withBinding id v).image.symbols :=
  (SymbolTable.Rebound.restoreValue _ id v).trans (.modify _ id fun x => ⟨x.value, _, rfl⟩)

/-- So does ending some. -/
theorem rebound_withoutBindings (n : Nat) :
    s.image.symbols.Rebound (s.withoutBindings n).image.symbols := .restoreAll ..

end

section

variable {R : Interpreter → Interpreter → Prop} {F : Failure → Interpreter → Interpreter → Prop}

/-- A relation that is only about what bindings leave alone. -/
structure BindingBlind (R : Interpreter → Interpreter → Prop) : Prop where
  rebound : ∀ {s s' : Interpreter}, s.image.symbols.Rebound s'.image.symbols → R s s'
  trans : ∀ {s s' s'' : Interpreter}, R s s' → R s' s'' → R s s''
  gensym : ∀ (s : Interpreter) (stem : String), R s (s.withGensym stem)
  declared : ∀ (s : Interpreter) (id : SymbolId), R s (s.withSymbol id fun x => { x with special := true })

/-- Where nothing of the symbols changes, the relation holds. -/
theorem BindingBlind.steadiness (hR : BindingBlind R) : Steadiness R :=
  ⟨fun h => hR.rebound (h.symbols ▸ .refl _), hR.trans⟩

/-- Dynamic bindings and runs uphold such a relation. -/
theorem BindingBlind.mildBindingCongruence (hR : BindingBlind R) (hF : FailsWith R F) :
    MildBindingCongruence fun _ x _ => Upholds R F x where
  toMildCongruence := by
    refine hF.mildCongruence (fun stem => ⟨fun s => ?_⟩) fun id => ⟨fun s => ?_⟩
    · rw [leads_gensym]
      exact hR.gensym s stem
    · rw [SymbolTable.declareSpecial, leads_update]
      split
      · exact hF.of (hR.rebound (.refl _))
      · exact hR.declared s id
  bindSpecial id v := ⟨fun s => leads_bindSpecial.2 (hR.rebound (rebound_withBinding s id v))⟩
  unbindSpecial id := ⟨fun s => by
    rw [leads_unbindSpecial]
    split
    · exact hF.of (hR.rebound (.refl _))
    · split
      · exact hR.rebound (rebound_withoutBindings s 1)
      · exact hF.of (hR.rebound (.refl _))⟩
  unwindBindings height := ⟨fun s => leads_unwindBindings.2 (hR.rebound (rebound_withoutBindings s _))⟩
  execute hrun code args := ⟨fun s => by
    -- A run begins with new registers and ends by leaving the bindings it has made, whichever way
    -- it ends.
    refine leads_execute (fun h _ => hF.of (hR.rebound (.refl _))) fun env h _ => ?_
    have hbegun : R s (({ s with image.heap := h } : Interpreter).entering env code) :=
      hR.rebound (.refl _)
    refine (hrun.leads _).mono (fun _ s₁ h₁ => ⟨fun v s₂ _ h₂ => ?_, fun _ => ?_⟩) fun e s₁ h₁ => ?_
    · exact hR.trans (hR.trans hbegun h₁) (hR.rebound (h₂.symbols.symm ▸ .refl s₁.image.symbols))
    · exact hF.of (hR.trans (hR.trans hbegun h₁) (hR.rebound (rebound_withoutBindings s₁ _)))
    · exact hF.after (hF.before hbegun h₁) (hR.rebound (rebound_withoutBindings s₁ _))⟩

/-- So it goes through all rules of the compiler but definitions. -/
theorem BindingBlind.congruence (hR : BindingBlind R) (hF : FailsWith R F) :
    Congruence fun _ x _ => Upholds R F x :=
  (hR.mildBindingCongruence hF).toMildCongruence.congruence

/-- So does everything, definitions apart. -/
theorem BindingBlind.runningCongruence (hR : BindingBlind R) (hF : FailsWith R F) :
    RunningCongruence fun _ x _ => Upholds R F x where
  toBindingCongruence := (hR.mildBindingCongruence hF).bindingCongruence
  setValue id v := ⟨fun s => by
    rw [SymbolTable.setValue, leads_update]
    split
    · exact hF.of (hR.rebound (.refl _))
    · exact hR.rebound (.modify _ id fun x => ⟨some v, x.bindingDepth, rfl⟩)⟩

end

/-! ## No symbol is lost -/

/-- No symbol is lost or known by another name, and none becomes a constant. -/
structure Retains (s s' : Interpreter) : Prop where
  keeps : s.image.symbols.Keeps s'.image.symbols
  constant : ∀ id, s'.image.symbols.isConstant id = true → s.image.symbols.isConstant id = true

theorem Retains.trans {s s' s'' : Interpreter} (h : Retains s s') (h' : Retains s' s'') :
    Retains s s'' := ⟨h.keeps.trans h'.keeps, fun id hid => h.constant id (h'.constant id hid)⟩

theorem Retains.size {s s' : Interpreter} (h : Retains s s') :
    s.image.symbols.size ≤ s'.image.symbols.size := h.keeps.size

/-- Variables stay variables. -/
theorem Retains.notConstant {s s' : Interpreter} (h : Retains s s') {id : SymbolId}
    (hid : s.image.symbols.isConstant id = false) : s'.image.symbols.isConstant id = false := by
  refine Bool.eq_false_iff.2 fun hc => ?_
  rw [h.constant id hc] at hid
  cases hid

/-- A symbol may be changed in what it may change in. -/
theorem retains_withSymbol (s : Interpreter) (id : SymbolId) {f : Symbol → Symbol}
    (hf : ∀ x : Symbol, x.Keeps (f x)) : Retains s (s.withSymbol id f) := by
  refine ⟨.modify (hf _), fun i hi => ?_⟩
  rw [SymbolTable.isConstant] at hi ⊢
  rcases SymbolTable.get_modify s.image.symbols id i f with heq | ⟨-, heq⟩
  · exact heq ▸ hi
  · rw [← (hf _).constant, ← heq]
    exact hi

theorem retains_withCell (s : Interpreter) (id : SymbolId) (cell : FunctionCell) :
    Retains s (s.withCell id cell) := retains_withSymbol s id fun _ => ⟨rfl, rfl, rfl, fun h => h⟩

/-- Names and constants have nothing to do with bindings. -/
theorem retains_bindingBlind : BindingBlind Retains where
  rebound h := ⟨h.keeps, fun id hid => h.isConstant ▸ hid⟩
  trans := Retains.trans
  gensym s stem := by
    refine ⟨.push .., fun id hid => ?_⟩
    rw [SymbolTable.isConstant] at hid ⊢
    rcases SymbolTable.get_push (t := s.image.symbols) (i := id) with heq | ⟨-, heq⟩
    · exact heq ▸ hid
    · rw [withGensym, heq] at hid
      cases hid
  declared s id := retains_withSymbol s id fun _ => ⟨rfl, rfl, rfl, fun _ => rfl⟩

/-- No failure is left out. -/
theorem retains_failsWith : FailsWith Retains fun _ s s' => True → Retains s s' :=
  retains_bindingBlind.steadiness.failsWith

/-- What a definition can end in, if compiling its function loses no symbol. -/
theorem leads_definitionBy_of_retains {make : SymbolId → Value → Value → LispM FunctionId}
    {kind : FunctionKind} {args cont : Value} {s : Interpreter} {ok : Value → Interpreter → Prop}
    {err : Failure → Interpreter → Prop}
    (hmake : ∀ name params body, Steady Retains (fun _ => True) (make name params body))
    (refused : ∀ e : Failure, e.Ordinary → err e s)
    (noRoom : ∀ {name : SymbolId} {arity : Arity} {s₁ : Interpreter},
      s.image.heap.definedName? args = some name → ¬s.image.heap.RoomFor 3 →
      Calm (s.withCell name (.pending arity kind)) s₁ → err (.error .heapOverflow) s₁)
    (made : ∀ {name : SymbolId} {form : String} {params body : Value} {frame : LexicalFrame}
      {s₁ : Interpreter}, s.image.heap.definedName? args = some name →
      s.image.heap.second args = .ok params → parseLambdaList form params s = .ok frame s →
      Calm (s.withCell name (.pending (frameArity frame) kind)) s₁ →
      Leads (make name params body) s₁
        (fun f s₂ => Retains s s₂ → ∀ s₃, Tame (s₂.withCell name (.function f)) s₃ →
          s₃.image.functions = (s₂.image.expandedFor kind f).functions →
          (∀ v, ok v s₃) ∧ (¬s₃.image.heap.RoomFor 1 → err (.error .heapOverflow) s₃))
        fun e s₂ => Retains s s₂ → err e (s₂.withCell name (s.image.symbols.cell name))) :
    Leads (definitionBy make kind args cont) s ok err := by
  -- All that is added to what `definitionBy` does is that the name stays no constant, so that the
  -- cell can be set at the end.
  refine leads_definitionBy refused (fun hdefined _ hfull h₁ => noRoom hdefined hfull h₁) ?_
  intro name form params body frame s₁ hdefined hname hparams hparse h₁
  have hr₁ : Retains s s₁ :=
    (retains_withCell s name _).trans (retains_bindingBlind.steadiness.still h₁.toStill)
  refine ((made hdefined hparams hparse h₁).and ((hmake name params body).leads s₁)).mono ?_ ?_
  · rintro f s₂ ⟨h₂, hr₂⟩
    exact ⟨(hr₁.trans hr₂).notConstant hname, h₂ (hr₁.trans hr₂)⟩
  · rintro e s₂ ⟨h₂, hr₂⟩
    exact ⟨(hr₁.trans (hr₂ trivial)).notConstant hname, h₂ (hr₁.trans (hr₂ trivial))⟩

/-- Nothing that the compiler and the machine do loses a symbol or makes a constant. -/
theorem retains_machineCongruence :
    MachineCongruence fun _ x _ => Steady Retains (fun _ => True) x := by
  have hstill {s s' : Interpreter} (h : Still s s') : Retains s s' :=
    retains_bindingBlind.steadiness.still h
  have hF := retains_failsWith
  refine { retains_bindingBlind.congruence hF, retains_bindingBlind.runningCongruence hF with
    definition := fun {make _} hmake kind args cont => ⟨fun s => ?_⟩ }
  refine leads_definitionBy_of_retains hmake (fun _ _ _ => hstill (.refl s)) ?_ ?_
  · intro name arity s₁ _ _ h₁ _
    exact (retains_withCell s name _).trans (hstill h₁.toStill)
  · intro name form params body frame s₁ _ _ _ h₁
    refine ((hmake name params body).leads s₁).mono (fun f s₂ _ hr₂ s₃ h₃ _ => ?_)
      fun e s₂ _ hr₂ _ => hr₂.trans (retains_withCell s₂ name _)
    have hr₃ : Retains s s₃ := hr₂.trans ((retains_withCell s₂ name _).trans (hstill h₃.toStill))
    exact ⟨fun _ => hr₃, fun _ _ => hr₃⟩

section

variable {𝓡 : ⦃α : Type⦄ → LispM α → LispM α → Prop}

/-- A congruence, together with losing no symbol. -/
theorem BindingCongruence.retaining (h𝓡 : BindingCongruence 𝓡) :
    BindingCongruence fun _ x y => Steady Retains (fun _ => True) x ∧ 𝓡 x y := by
  have h := retains_machineCongruence
  exact {
    h.toBasicCongruence.and h𝓡.toBasicCongruence with
    walk := fun g hg hends => ⟨h.walk g hg hends, h𝓡.walk g hg hends⟩
    count := ⟨h.count, h𝓡.count⟩
    turns := fun hx => ⟨h.turns hx, h𝓡.turns hx⟩
    returnToCaller := ⟨h.returnToCaller, h𝓡.returnToCaller⟩
    setCar := fun id v => ⟨h.setCar id v, h𝓡.setCar id v⟩
    setCdr := fun id v => ⟨h.setCdr id v, h𝓡.setCdr id v⟩
    bindSpecial := fun id v => ⟨h.bindSpecial id v, h𝓡.bindSpecial id v⟩
    unbindSpecial := fun id => ⟨h.unbindSpecial id, h𝓡.unbindSpecial id⟩
    unwindBindings := fun height => ⟨h.unwindBindings height, h𝓡.unwindBindings height⟩
    execute := fun {run run'} hrun code args =>
      ⟨@h.execute run run' hrun.1 code args, h𝓡.execute hrun.2 code args⟩ }

/-- It goes through definitions if it does so for functions that are compiled without losing
    a symbol. -/
theorem Congruence.retaining (h𝓡 : Congruence 𝓡)
    (hdefinition : ∀ {make make' : SymbolId → Value → Value → LispM FunctionId},
      (∀ name params body, Steady Retains (fun _ => True) (make name params body)) →
      (∀ name params body, 𝓡 (make name params body) (make' name params body)) →
      ∀ kind args cont, 𝓡 (definitionBy make kind args cont) (definitionBy make' kind args cont)) :
    DefiningCongruence fun _ x y => Steady Retains (fun _ => True) x ∧ 𝓡 x y := by
  have h := retains_machineCongruence
  exact {
    h.toCongruence.and h𝓡 with
    definition := fun {make make'} hmake kind args cont =>
      ⟨@h.definition make make' (fun n p b => (hmake n p b).1) kind args cont,
        hdefinition (fun n p b => (hmake n p b).1) (fun n p b => (hmake n p b).2) kind args cont⟩ }

/-- The property goes through everything, given what it says of definitions. -/
theorem RunningCongruence.machineCongruence (h𝓡 : RunningCongruence 𝓡) (hc : Congruence 𝓡)
    (hdefinition : ∀ {make make' : SymbolId → Value → Value → LispM FunctionId},
      (∀ name params body, Steady Retains (fun _ => True) (make name params body)) →
      (∀ name params body, 𝓡 (make name params body) (make' name params body)) →
      ∀ kind args cont, 𝓡 (definitionBy make kind args cont) (definitionBy make' kind args cont)) :
    MachineCongruence fun _ x y => Steady Retains (fun _ => True) x ∧ 𝓡 x y :=
  { hc.retaining hdefinition, h𝓡.toBindingCongruence.retaining with
    setValue := fun id v => ⟨retains_machineCongruence.setValue id v, h𝓡.setValue id v⟩ }

end

end StackLisp
