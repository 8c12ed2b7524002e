import StackLisp.Proofs.Safety.History
import StackLisp.Proofs.Safety.Memory

/-!
# Interpreters in order

`Sound L s` says that everything an interpreter holds apart from the registers of
its machine is as its layout tells: the heap, the functions and their code, the
cells of the symbols, the primitives, the values that dynamic bindings have
replaced, and what the compiler has noted about the form it is in.

`Evolves L s L' s'` is what every action does that leaves the registers alone: the
heap grows, and the interpreter stays in order. Actions on the heap and on the
symbols do so (`safe_heap`, `safe_intern`, `safe_setValue`, ...), and so do those
on the functions (`safe_addFunction`, `safe_setExpander`).
-/

namespace StackLisp

open Interpreter

/-- The numbers of arguments that a primitive can be run on. -/
def Builtin.Takes : Builtin → Nat → Prop
  | .cons | .rplaca | .rplacd | .eq | .equal | .mod | .set => (· = 2)
  | .car | .cdr | .length | .reverse | .atom | .consp | .listp | .symbolp | .numberp | .functionp
  | .null | .inc | .dec | .zerop | .abs | .random | .print | .symbolValue | .symbolFunction
  | .fboundp | .boundp | .macroexpandOnce | .macroexpand | .eval => (· = 1)
  | .funcall => (1 ≤ ·)
  | .apply => (2 ≤ ·)
  | .list | .listStar | .append | .add | .sub | .mul | .numEq | .numNe | .lt | .gt | .le | .ge
  | .min | .max | .error | .gensym => fun _ => True

namespace Layout

/-- A pair is a call that may be made a tail call. -/
structure TailCall (L : Layout) (h : Heap) (id : PairId) : Prop where
  own : L.own id
  op : h.car id = .op .ap ∨ h.car id = .op .tap
  returns : ∃ v k, L.Operands h [v] (h.cdr id) k ∧ L.Returns h k

/-- What the compiler has noted is in order. -/
structure Noted (L : Layout) (h : Heap) (scopes : Scopes) : Prop where
  tails : ∀ p ∈ scopes.pendingTails, L.TailCall h p.pair
  tagbodies : ∀ t ∈ scopes.tagbodies, ∃ id, t.id = .symbol id ∧ L.tags id = some t.tags ∧
    ∀ tag ∈ t.tags, tag.isTag

end Layout

open Layout

/-- The frames that the code of a function runs in: its own first, and no others if it has been
    defined by name, as definitions see no variables from around them. -/
def CompiledFunction.Frames (f : CompiledFunction) (env : List FrameShape) : Prop :=
  env.head? = some f.arity.frame ∧ (f.name.isSome → env = [f.arity.frame])

/-- A function has its own frame first, and a named one no other. -/
theorem CompiledFunction.frames_cons {f : CompiledFunction} {env : List FrameShape}
    (hname : f.name.isSome → env = []) : f.Frames (f.arity.frame :: env) :=
  ⟨rfl, fun h => by rw [hname h]⟩

/-- The interpreter is in order, its registers apart. -/
structure Sound (L : Layout) (s : Interpreter) : Prop where
  fits : L.Fits s.image.heap
  functions : ∀ f env, L.shape f = some env → f.index < s.image.functions.size ∧
    (s.image.function f).Frames env ∧
    L.Code s.image.heap .function env [] [] (s.image.function f).code
  bodies : ∀ f, f.index < s.image.functions.size → ∃ env, (s.image.function f).Frames env ∧
    L.Code s.image.heap .function env [] [] (s.image.function f).code
  macros : ∀ f env, L.shape f = some env → (s.image.function f).isMacro →
    ∃ e n, (s.image.function f).expander = some e ∧ L.shape e = some [n]
  values : ∀ id v, (s.image.symbols.get id).value = some v → L.Visible v
  cells : ∀ id f, s.image.symbols.cell id = .function f → L.Visible (.function f)
  tags : ∀ id ts, L.tags id = some ts → id.index < s.image.symbols.size
  primitives : ∀ id b n, (s.image.primitives.get id).builtin = some b →
    (s.image.primitives.get id).arity.accepts n → b.Takes n
  symbols : L.symbols.Keeps s.image.symbols
  headed : s.image.symbols.Headed
  consistent : s.image.symbols.Consistent
  bindings : ∀ saved ∈ s.machine.bindings.items, ∀ v, saved.value = some v → L.Visible v
  bound : ∀ saved ∈ s.machine.bindings.items, s.image.symbols.isSpecial saved.symbol
  counts : s.image.symbols.Counts s.machine.bindings.items
  noted : L.Noted s.image.heap s.scopes

/-- The interpreter has changed in an orderly way, and its registers have not. -/
structure Evolves (L : Layout) (s : Interpreter) (L' : Layout) (s' : Interpreter) : Prop where
  grows : Grows s.image.heap.frames.size L s.image.heap L' s'.image.heap
  sound : Sound L' s'
  registers : s'.machine.toRegisters = s.machine.toRegisters
  bindings : s'.machine.bindings = s.machine.bindings
  history : History L s.image → History L' s'.image

variable {L L' : Layout} {s s' : Interpreter} {α : Type}

/-- An interpreter in order has evolved from itself. -/
theorem Sound.evolves (hs : Sound L s) : Evolves L s L s :=
  ⟨.refl _ L _, hs, rfl, rfl, id⟩

instance : Evolution Evolves where
  refl e := e.sound.evolves
  trans e e' :=
    ⟨e.grows.trans (e'.grows.weaken e.grows.frames), e'.sound, e'.registers.trans e.registers,
      e'.bindings.trans e.bindings, e'.history ∘ e.history⟩

/-- Data stays data. -/
theorem Evolves.visible (e : Evolves L s L' s') {v : Value} (hv : L.Visible v) : L'.Visible v :=
  hv.within e.grows.within

/-! ## Facts that growth keeps -/

section

variable {n : Nat} {h h' : Heap}

/-- A call that may be made a tail call still may. -/
theorem Layout.TailCall.grows {id : PairId} (ht : L.TailCall h id) (g : Grows n L h L' h') :
    L'.TailCall h' id := by
  obtain ⟨v, k, hv, hk⟩ := ht.returns
  refine ⟨g.within.own id ht.own, ?_, v, k, ?_, hk.grows g⟩
  · rcases g.car id ht.own with heq | hp
    · rw [heq]
      exact ht.op
    · exact .inr hp.after
  · rw [g.cdr id ht.own]
    exact hv.grows g

/-- What the compiler has noted stays in order. -/
theorem Layout.Noted.grows {scopes : Scopes} (hn : L.Noted h scopes) (g : Grows n L h L' h') :
    L'.Noted h' scopes where
  tails p hp := (hn.tails p hp).grows g
  tagbodies t ht := (hn.tagbodies t ht).imp fun _ ⟨heq, hts, htag⟩ =>
    ⟨heq, g.within.tags _ _ hts, htag⟩

/-- A heap grows when only its layout does. -/
theorem Layout.Within.grows (hw : L.Within L') (h : Heap) : Grows n L h L' h :=
  { Grows.refl n L h with within := hw, car := fun _ _ => .inl rfl }

end

/-! ## Changes of one part -/

/-- A change of the heap. -/
theorem Sound.heap (hs : Sound L s) {n : Nat} {h : Heap} (e : Extends n L s.image.heap L' h) :
    Sound L' { s with image.heap := h } where
  fits := e.fits
  functions f env hf := by
    obtain ⟨hlt, hframes, hcode⟩ := hs.functions f env (e.shape ▸ hf)
    exact ⟨hlt, hframes, hcode.grows e.grows⟩
  bodies f hf := by
    obtain ⟨env, hframes, hcode⟩ := hs.bodies f hf
    exact ⟨env, hframes, hcode.grows e.grows⟩
  macros f env hf hm := by
    obtain ⟨x, n, hx, hn⟩ := hs.macros f env (e.shape ▸ hf) hm
    exact ⟨x, n, hx, e.grows.within.shape _ _ hn⟩
  values id v hv := (hs.values id v hv).within e.grows.within
  cells id f hf := (hs.cells id f hf).within e.grows.within
  tags id ts ht := hs.tags id ts (e.tags ▸ ht)
  primitives := hs.primitives
  symbols := e.symbols ▸ hs.symbols
  headed := hs.headed
  consistent := hs.consistent
  bindings saved hm v hv := (hs.bindings saved hm v hv).within e.grows.within
  bound := hs.bound
  counts := hs.counts
  noted := hs.noted.grows e.grows

/-- A change of the registers. -/
theorem Sound.registers (hs : Sound L s) {m : Machine}
    (hm : m.bindings.items = s.machine.bindings.items) : Sound L { s with machine := m } :=
  { hs with bindings := hm ▸ hs.bindings, bound := hm ▸ hs.bound, counts := hm ▸ hs.counts }

/-- A change of the notes of the compiler. -/
theorem Sound.scopes (hs : Sound L s) {scopes : Scopes} (hn : L.Noted s.image.heap scopes) :
    Sound L { s with scopes } :=
  { hs with noted := hn }

/-- A change of the symbols and of the bindings, which keep visible values. -/
theorem Sound.rebind (hs : Sound L s) {t : SymbolTable} {m : Machine}
    (hvalue : ∀ id v, (t.get id).value = some v → L.Visible v)
    (hcell : ∀ id f, t.cell id = .function f → L.Visible (.function f))
    (hkeeps : s.image.symbols.Keeps t) (hheaded : t.Headed) (hconsistent : t.Consistent)
    (hbindings : ∀ x ∈ m.bindings.items, ∀ v, x.value = some v → L.Visible v)
    (hbound : ∀ x ∈ m.bindings.items, t.isSpecial x.symbol)
    (hcounts : t.Counts m.bindings.items) :
    Sound L { s with image.symbols := t, machine := m } :=
  { hs with
    values := hvalue
    cells := hcell
    tags := fun id ts ht => Nat.lt_of_lt_of_le (hs.tags id ts ht) hkeeps.size
    symbols := hs.symbols.trans hkeeps
    headed := hheaded
    consistent := hconsistent
    bindings := hbindings
    bound := hbound
    counts := hcounts }

/-- A change that none of this is about. -/
theorem Sound.apart (hs : Sound L s) (heap : s'.image.heap = s.image.heap)
    (symbols : s'.image.symbols = s.image.symbols)
    (primitives : s'.image.primitives = s.image.primitives)
    (functions : s'.image.functions = s.image.functions)
    (bindings : s'.machine.bindings = s.machine.bindings) (scopes : s'.scopes = s.scopes) :
    Sound L s' := by
  have hfunction : ∀ f, s'.image.function f = s.image.function f := fun f => by
    simp only [Image.function, functions]
  refine ⟨heap ▸ hs.fits, fun f env hf => ?_, fun f hf => ?_, fun f env hf => ?_,
    symbols ▸ hs.values, symbols ▸ hs.cells, symbols ▸ hs.tags, primitives ▸ hs.primitives,
    symbols ▸ hs.symbols, symbols ▸ hs.headed, symbols ▸ hs.consistent, bindings ▸ hs.bindings,
    symbols ▸ bindings ▸ hs.bound, symbols ▸ bindings ▸ hs.counts, heap ▸ scopes ▸ hs.noted⟩
  · rw [hfunction, functions, heap]
    exact hs.functions f env hf
  · rw [hfunction, heap]
    exact hs.bodies f (functions ▸ hf)
  · rw [hfunction]
    exact hs.macros f env hf

/-! ## Views -/

section

variable {R : Layout → Interpreter → Layout → Interpreter → Prop} {β : Type}
  {post : Layout → β → Interpreter → Prop}

@[simp]
theorem safe_asks_bind {g : Image → α} {f : α → LispM β} :
    Safe R L (asks g >>= f) s post ↔ Safe R L (f (g s.image)) s post := safe_bind_of_ok rfl

@[simp]
theorem safe_view_bind {g : Machine → α} {f : α → LispM β} :
    Safe R L (Machine.view g >>= f) s post ↔ Safe R L (f (g s.machine)) s post :=
  safe_bind_of_ok rfl

@[simp]
theorem safe_shown_bind {v : Value} {f : String → LispM β} :
    Safe R L (shown v >>= f) s post ↔ Safe R L (f (s.image.print v)) s post := safe_bind_of_ok rfl

@[simp]
theorem safe_nameOf_bind {id : SymbolId} {f : String → LispM β} :
    Safe R L (nameOf id >>= f) s post ↔ Safe R L (f (s.image.symbols.name id)) s post :=
  safe_bind_of_ok rfl

/-- A view that may be endless, before another action. -/
theorem safe_walk_bind {g : Image → Except Failure α} {f : α → LispM β} (hr : R L s L s)
    (herr : ∀ e, g s.image = .error e → e.Benign)
    (hok : ∀ a, g s.image = .ok a → Safe R L (f a) s post) :
    Safe R L (walk g >>= f) s post := by
  unfold Safe
  rw [leads_bind, leads_walk]
  cases hg : g s.image with
  | ok a => exact hok a hg
  | error e => exact ⟨herr e hg, L, hr⟩

end

/-! ### Actions that change nothing -/

/-- The action changes nothing, and gives a result as `P` says or is refused. -/
def Inert (x : LispM α) (s : Interpreter) (P : α → Prop) : Prop :=
  (∃ a, x s = .ok a s ∧ P a) ∨ ∃ e, x s = .error e s ∧ e.Benign

section

variable {R : Layout → Interpreter → Layout → Interpreter → Prop} {β : Type} {P : α → Prop}

theorem Inert.pure {a : α} (ha : P a) : Inert (pure a) s P := .inl ⟨a, rfl, ha⟩

theorem Inert.imp {x : LispM α} {Q : α → Prop} (hx : Inert x s P) (h : ∀ a, P a → Q a) :
    Inert x s Q := by
  rcases hx with ⟨a, hx, ha⟩ | hx
  · exact .inl ⟨a, hx, h a ha⟩
  · exact .inr hx

theorem Inert.raise {e : Error} (he : (Failure.error e).Benign) : Inert (raise e : LispM α) s P :=
  .inr ⟨.error e, rfl, he⟩

theorem Inert.bind {x : LispM α} {f : α → LispM β} {Q : β → Prop} (hx : Inert x s P)
    (hf : ∀ a, P a → Inert (f a) s Q) : Inert (x >>= f) s Q := by
  rcases hx with ⟨a, hx, ha⟩ | ⟨e, hx, he⟩
  · have heq : (x >>= f) s = f a s := by simp only [Bind.bind, EStateM.bind, hx]
    rcases hf a ha with ⟨b, hb, hq⟩ | ⟨e, hb, he⟩
    · exact .inl ⟨b, heq.trans hb, hq⟩
    · exact .inr ⟨e, heq.trans hb, he⟩
  · exact .inr ⟨e, by simp only [Bind.bind, EStateM.bind, hx], he⟩

/-- Such an action for each item of a list. -/
theorem Inert.mapM {f : α → LispM β} {Q : β → Prop} :
    ∀ {l : List α}, (∀ a ∈ l, Inert (f a) s Q) →
      Inert (l.mapM f) s fun bs => bs.length = l.length ∧ ∀ b ∈ bs, Q b
  | [], _ => by
    rw [List.mapM_nil]
    exact .pure (by simp)
  | a :: l, hf => by
    rw [List.mapM_cons]
    refine (hf a List.mem_cons_self).bind fun b hb => ?_
    refine (Inert.mapM fun a' ha' => hf a' (List.mem_cons_of_mem _ ha')).bind fun bs hbs => ?_
    exact .pure (by simpa using ⟨hbs.1, hb, hbs.2⟩)

/-- Such an action, before another. -/
theorem Inert.safe_bind {x : LispM α} {f : α → LispM β} {post : Layout → β → Interpreter → Prop}
    (hx : Inert x s P) (hr : R L s L s) (hf : ∀ a, P a → Safe R L (f a) s post) :
    Safe R L (x >>= f) s post := by
  rcases hx with ⟨a, hx, ha⟩ | ⟨e, hx, he⟩
  · exact (safe_bind_of_ok hx).2 (hf a ha)
  · unfold Safe
    rw [leads_bind, leads_of_error hx]
    exact ⟨he, L, hr⟩

end

/-- Taking the elements of a list breaks no rule. -/
theorem Heap.elements?_benign {h : Heap} {v : Value} {e : Failure} (he : h.elements? v = .error e) :
    e.Benign := by
  rw [Heap.elements?_error he]
  trivial

theorem inert_elements {v : Value} :
    Inert (elements? v) s fun r => s.image.heap.elements? v = .ok r := by
  cases h : s.image.heap.elements? v with
  | ok r => exact .inl ⟨r, by simp [elements?, walk, h], rfl⟩
  | error e => exact .inr ⟨e, by simp [elements?, walk, h], Heap.elements?_benign h⟩

/-- A computed result, or its error. -/
theorem inert_ofExcept {x : Except Error α}
    (he : ∀ e, x = .error e → (Failure.error e).Benign) :
    Inert (Interpreter.ofExcept x) s fun a => x = .ok a := by
  cases x with
  | ok a => exact .pure rfl
  | error e => exact .raise (he e rfl)

/-- A view of the image that may be refused. -/
theorem inert_query {f : Image → Except Error α}
    (he : ∀ e, f s.image = .error e → (Failure.error e).Benign) :
    Inert (query f) s fun a => f s.image = .ok a := by
  cases h : f s.image with
  | ok a => exact .inl ⟨a, by simp [query, h], rfl⟩
  | error e => exact .inr ⟨.error e, by simp [query, h], he e h⟩

/-- A view of the image that may be endless. -/
theorem inert_walk {f : Image → Except Failure α}
    (he : ∀ e, f s.image = .error e → e.Benign) :
    Inert (walk f) s fun a => f s.image = .ok a := by
  cases h : f s.image with
  | ok a => exact .inl ⟨a, by simp [walk, h], rfl⟩
  | error e => exact .inr ⟨e, by simp [walk, h], he e h⟩

/-- A wrong number of arguments breaks no rule. -/
theorem Arity.check_benign {a : Arity} {name : String} {n : Nat} {e : Error}
    (he : a.check name n = .error e) : (Failure.error e).Benign := by
  unfold Arity.check at he
  split at he <;> cases he
  trivial

/-- The head of data is data. -/
theorem Layout.Fits.head {h : Heap} (hL : L.Fits h) {v w : Value} (hv : L.Visible v)
    (hw : h.head v = .ok w) : L.Visible w := by
  cases v with
  | nil => cases hw; trivial
  | pair id => cases hw; exact (hL.data id hv).2.1
  | _ => cases hw

/-- The tail of data is data. -/
theorem Layout.Fits.tail {h : Heap} (hL : L.Fits h) {v w : Value} (hv : L.Visible v)
    (hw : h.tail v = .ok w) : L.Visible w := by
  cases v with
  | nil => cases hw; trivial
  | pair id => cases hw; exact (hL.data id hv).2.2
  | _ => cases hw

theorem Heap.head_benign {h : Heap} {v : Value} {e : Error} (he : h.head v = .error e) :
    (Failure.error e).Benign := by
  cases v <;> cases he <;> trivial

theorem Heap.tail_benign {h : Heap} {v : Value} {e : Error} (he : h.tail v = .error e) :
    (Failure.error e).Benign := by
  cases v <;> cases he <;> trivial

/-! ## Actions on one part -/

/-- An action on the heap. -/
theorem safe_heap {x : HeapM α} {P : Layout → α → Heap → Prop} (hs : Sound L s)
    (hx : Safe (Extends s.image.heap.frames.size) L x s.image.heap P) :
    Safe Evolves L (liftM x : LispM α) s fun L' a s' => P L' a s'.image.heap := by
  unfold Safe
  rw [leads_heap]
  refine Leads.mono hx ?_ ?_
  · rintro a h ⟨L', e, hp⟩
    exact ⟨L', ⟨e.grows, hs.heap e, rfl, rfl, fun hi => hi.grows e.grows rfl rfl⟩, hp⟩
  · rintro f h ⟨hf, L', e⟩
    exact ⟨hf, L', e.grows, hs.heap e, rfl, rfl, fun hi => hi.grows e.grows rfl rfl⟩

/-- A change of the heap. -/
theorem safe_modifyHeap {f : Heap → Heap} (hs : Sound L s)
    (e : Extends s.image.heap.frames.size L s.image.heap L (f s.image.heap)) :
    Safe Evolves L (liftM (modify f : HeapM Unit) : LispM Unit) s fun L' _ _ => L' = L :=
  safe_heap (P := fun L' _ _ => L' = L) hs ⟨L, e, rfl⟩

/-- A change that none of this is about. -/
theorem safe_modify_apart {f : Interpreter → Interpreter} (hs : Sound L s)
    (heap : (f s).image.heap = s.image.heap) (symbols : (f s).image.symbols = s.image.symbols)
    (primitives : (f s).image.primitives = s.image.primitives)
    (functions : (f s).image.functions = s.image.functions)
    (machine : (f s).machine = s.machine) (scopes : (f s).scopes = s.scopes)
    (marks : (f s).image.log.marks = s.image.log.marks) :
    Safe Evolves L (modify f : LispM Unit) s fun L' _ _ => L' = L := by
  refine ⟨L, ⟨heap ▸ .refl _ L _, ?_, by rw [machine], by rw [machine],
    fun hi => hi.of_eq heap functions marks⟩, rfl⟩
  exact hs.apart heap symbols primitives functions (by rw [machine]) scopes

/-- An action on the symbols that leaves them in order. -/
theorem safe_symbols {x : SymbolM α} {P : α → SymbolTable → Prop}
    (hx : Leads x s.image.symbols
      (fun a t => Sound L { s with image.symbols := t } ∧ P a t)
      fun e t => e.Benign ∧ Sound L { s with image.symbols := t }) :
    Safe Evolves L (liftM x : LispM α) s fun L' a s' => L' = L ∧ P a s'.image.symbols ∧
      s'.image.heap = s.image.heap := by
  unfold Safe
  rw [leads_symbols]
  refine Leads.mono hx ?_ ?_
  · rintro a t ⟨ht, hp⟩
    exact ⟨L, ⟨.refl _ L _, ht, rfl, rfl, fun hi => hi.of_eq rfl rfl rfl⟩, rfl, hp, rfl⟩
  · rintro e t ⟨he, ht⟩
    exact ⟨he, L, .refl _ L _, ht, rfl, rfl, fun hi => hi.of_eq rfl rfl rfl⟩

/-- A change of the notes of the compiler. -/
theorem safe_modifyScopes {f : Scopes → Scopes} (hs : Sound L s)
    (hf : L.Noted s.image.heap (f s.scopes)) :
    Safe Evolves L (modifyScopes f) s fun L' _ s' => L' = L ∧ s' = { s with scopes := f s.scopes } :=
  ⟨L, ⟨.refl _ L _, hs.scopes hf, rfl, rfl, id⟩, rfl, rfl⟩

/-- A record in the log. -/
theorem safe_record {level : LogLevel} {text : Image → String} (hs : Sound L s)
    (hlevel : level ≠ .off) :
    Safe Evolves L (Image.record level text : LispM Unit) s fun L' _ s' =>
      L' = L ∧ s'.image.heap = s.image.heap := by
  unfold Safe
  obtain ⟨log, hlog, hmarks⟩ := Image.record_marks hlevel text s.image
  rw [leads_image, leads_of_ok hlog]
  exact ⟨L, ⟨.refl _ L _, hs.apart rfl rfl rfl rfl rfl rfl, rfl, rfl,
    fun hi => hi.of_eq rfl rfl hmarks⟩, rfl, rfl⟩

/-! ### Symbols -/

/-- A change of one symbol, to a visible value and a function in order. -/
theorem Sound.modifySymbol (hs : Sound L s) {id : SymbolId} (f : Symbol → Symbol)
    (hid : s.image.symbols.isConstant id = false)
    (hvalue : ∀ v, (f (s.image.symbols.get id)).value = some v → L.Visible v)
    (hcell : ∀ g, (f (s.image.symbols.get id)).function = .function g → L.Visible (.function g))
    (hkeeps : (s.image.symbols.get id).Keeps (f (s.image.symbols.get id)))
    (hdepth : (f (s.image.symbols.get id)).bindingDepth = (s.image.symbols.get id).bindingDepth) :
    Sound L { s with image.symbols := s.image.symbols.modify id f } := by
  have hkeeps' := SymbolTable.Keeps.modify hkeeps
  refine hs.rebind (fun i v hv => ?_) (fun i g hg => ?_) hkeeps' (hs.headed.modify hkeeps.name)
    (hs.consistent.modify hid hkeeps) hs.bindings (fun x hx => hkeeps'.isSpecial (hs.bound x hx))
    (hs.counts.modify hdepth)
  · rcases SymbolTable.get_modify s.image.symbols id i f with heq | ⟨rfl, heq⟩
    · exact hs.values i v (heq ▸ hv)
    · exact hvalue v (heq ▸ hv)
  · rcases SymbolTable.get_modify s.image.symbols id i f with heq | ⟨rfl, heq⟩
    · exact hs.cells i g ((congrArg Symbol.function heq).symm.trans hg)
    · exact hcell g ((congrArg Symbol.function heq).symm.trans hg)

/-- One more binding, of a symbol that had a visible value before. -/
theorem Sound.enterBinding (hs : Sound L s) {id : SymbolId} (hid : s.image.symbols.isSpecial id)
    {value : Option Value} (hvalue : ∀ v, value = some v → L.Visible v) :
    Sound L { s with
      image.symbols := s.image.symbols.enterBinding id
      machine.bindings := s.machine.bindings.push ⟨id, value⟩ } := by
  -- Only the depth of the symbol changes; its value and its cell stay.
  have hsame : (s.image.symbols.get id).Keeps { s.image.symbols.get id with
      bindingDepth := (s.image.symbols.get id).bindingDepth + 1 } := ⟨rfl, rfl, rfl, fun h => h⟩
  have hkeeps : s.image.symbols.Keeps (s.image.symbols.enterBinding id) := .modify hsame
  refine hs.rebind (fun i v hv => ?_) (fun i g hg => ?_) hkeeps (hs.headed.modify rfl)
    (hs.consistent.modify (hs.consistent.notConstant hid) hsame) (fun x hx => ?_) (fun x hx => ?_)
    (hs.counts.enterBinding (SymbolTable.lt_size_of_isSpecial hid) value)
  · rcases SymbolTable.get_modify s.image.symbols id i _ with heq | ⟨-, heq⟩
    · exact hs.values i v (heq ▸ hv)
    · exact hs.values i v ((congrArg Symbol.value heq).symm.trans hv)
  · rcases SymbolTable.get_modify s.image.symbols id i _ with heq | ⟨-, heq⟩
    · exact hs.cells i g ((congrArg Symbol.function heq).symm.trans hg)
    · exact hs.cells i g ((congrArg Symbol.function heq).symm.trans hg)
  · rcases List.mem_cons.1 hx with rfl | hx
    · exact hvalue
    · exact hs.bindings x hx
  · rcases List.mem_cons.1 hx with rfl | hx
    · exact hkeeps.isSpecial hid
    · exact hkeeps.isSpecial (hs.bound x hx)

/-- A new symbol, whose value is visible and which has no function. Its name leads to no other
    symbol, and it stands for itself if it is a constant. -/
theorem Sound.pushSymbol (hs : Sound L s) (x : Symbol) (n : Nat)
    (hvalue : ∀ v, x.value = some v → L.Visible v) (hcell : x.function = .unbound)
    (hdepth : x.bindingDepth = 0) (hnamed : x.interned = true → s.image.symbols.find? x.name = none)
    (hkeyword : x.interned = true → isKeywordName x.name = true → x.constant = true)
    (hconstant : x.constant = true →
      x.value = some (.symbol ⟨s.image.symbols.symbols.size⟩) ∧ x.special = false) :
    Sound L { s with
      image.symbols := { symbols := s.image.symbols.symbols.push x, gensyms := n } } := by
  have hkeeps := SymbolTable.Keeps.push s.image.symbols x n
  refine hs.rebind (fun i v hv => ?_) (fun i g hg => ?_) hkeeps (hs.headed.push x n)
    (hs.consistent.push hs.headed n hnamed hkeyword fun hc =>
      ⟨(hconstant hc).1, (hconstant hc).2, hcell⟩) hs.bindings
    (fun y hy => hkeeps.isSpecial (hs.bound y hy)) (hs.counts.push hdepth n)
  -- A symbol is an old one, or the one that is added: its value may be read, and it has no
  -- function.
  · rcases SymbolTable.get_push (t := s.image.symbols) (i := i) (x := x) (n := n) with
      heq | ⟨rfl, heq⟩
    · exact hs.values i v (heq ▸ hv)
    · exact hvalue v (heq ▸ hv)
  · rcases SymbolTable.get_push (t := s.image.symbols) (i := i) (x := x) (n := n) with
      heq | ⟨rfl, heq⟩
    · exact hs.cells i g ((congrArg Symbol.function heq).symm.trans hg)
    · cases hcell.symm.trans ((congrArg Symbol.function heq).symm.trans hg)

/-- Interning a name. -/
theorem safe_intern (hs : Sound L s) (name : String) :
    Safe Evolves L (liftM (SymbolTable.intern name) : LispM SymbolId) s fun L' id s' =>
      L' = L ∧ (name ≠ "nil" → name ≠ "t" → id ≠ .nil ∧ id ≠ .t) ∧
        s'.image.heap = s.image.heap := by
  refine (safe_symbols (P := fun id _ => name ≠ "nil" → name ≠ "t" → id ≠ .nil ∧ id ≠ .t) ?_).mono
    fun _ _ _ _ h => h
  unfold Leads SymbolTable.intern
  cases hfind : s.image.symbols.find? name with
  | some id => exact ⟨hs, hs.headed.find? hfind⟩
  | none =>
    refine ⟨?_, fun _ _ => hs.headed.fresh⟩
    -- A keyword stands for itself from the start; any other name has no value yet.
    cases hkeyword : isKeywordName name with
    | true =>
      rw [SymbolTable.insert_of_keyword hkeyword]
      refine hs.pushSymbol _ _ (fun v hv => ?_) rfl rfl (fun _ => hfind) (fun _ _ => rfl)
        fun _ => ⟨rfl, rfl⟩
      obtain rfl := Option.some.inj hv
      exact hs.headed.fresh
    | false =>
      rw [SymbolTable.insert_of_not_keyword hkeyword]
      exact hs.pushSymbol _ _ nofun rfl rfl (fun _ => hfind)
        (fun _ h => absurd (hkeyword.symm.trans h) Bool.false_ne_true) nofun

/-- A fresh symbol, which no tagbody has for its own. -/
theorem safe_gensym (hs : Sound L s) (stem : String) :
    Safe Evolves L (liftM (SymbolTable.gensym stem) : LispM SymbolId) s fun L' id s' =>
      L' = L ∧ L.tags id = none ∧ id.index < s'.image.symbols.size ∧
        s'.image.heap = s.image.heap ∧ id ≠ .nil ∧ id ≠ .t := by
  refine (safe_symbols (P := fun id t =>
    L.tags id = none ∧ id.index < t.size ∧ id ≠ .nil ∧ id ≠ .t) ?_).mono
    fun _ _ _ _ ⟨hL, ⟨hid, hlt, hne⟩, hh⟩ => ⟨hL, hid, hlt, hh, hne⟩
  refine ⟨hs.pushSymbol _ _ (by nofun) rfl rfl nofun nofun nofun, ?_, by simp [SymbolTable.size],
    hs.headed.fresh⟩
  cases ht : L.tags ⟨s.image.symbols.symbols.size⟩ with
  | none => rfl
  | some ts => exact absurd (hs.tags _ _ ht) (Nat.lt_irrefl _)

/-- A change of a symbol that is not a constant. -/
theorem safe_update (hs : Sound L s) {id : SymbolId} {f : Symbol → Symbol}
    (hf : s.image.symbols.isConstant id = false →
      Sound L { s with image.symbols := s.image.symbols.modify id f }) :
    Safe Evolves L (liftM (SymbolTable.update id f) : LispM Unit) s fun L' _ s' =>
      L' = L ∧ s'.image.symbols = s.image.symbols.modify id f ∧ s'.image.heap = s.image.heap := by
  refine safe_symbols (P := fun _ t => t = s.image.symbols.modify id f) ?_
  unfold Leads SymbolTable.update
  cases hc : s.image.symbols.isConstant id with
  | false => exact ⟨hf hc, rfl⟩
  | true => exact ⟨trivial, hs⟩

/-- Assigning a symbol. -/
theorem safe_setValue (hs : Sound L s) {id : SymbolId} {v : Value} (hv : L.Visible v) :
    Safe Evolves L (liftM (SymbolTable.setValue id v) : LispM Unit) s fun L' _ s' =>
      L' = L ∧ s'.image.heap = s.image.heap := by
  refine (safe_update hs fun hid => ?_).mono fun _ _ _ _ h => ⟨h.1, h.2.2⟩
  refine hs.modifySymbol _ hid (fun w hw => ?_) (hs.cells id) ⟨rfl, rfl, rfl, fun h => h⟩ rfl
  cases hw
  exact hv

/-- Setting a function cell. -/
theorem safe_setCell (hs : Sound L s) {id : SymbolId} {cell : FunctionCell}
    (hcell : ∀ f, cell = .function f → L.Visible (.function f)) :
    Safe Evolves L (liftM (SymbolTable.setCell id cell) : LispM Unit) s fun L' _ s' =>
      L' = L ∧ s'.image.heap = s.image.heap := by
  refine (safe_update hs fun hid => ?_).mono fun _ _ _ _ h => ⟨h.1, h.2.2⟩
  exact hs.modifySymbol _ hid (hs.values id) hcell ⟨rfl, rfl, rfl, fun h => h⟩ rfl

/-- Making a symbol special. -/
theorem safe_declareSpecial (hs : Sound L s) {id : SymbolId} :
    Safe Evolves L (liftM (SymbolTable.declareSpecial id) : LispM Unit) s fun L' _ s' =>
      L' = L ∧ (id.index < s.image.symbols.size → s'.image.symbols.isSpecial id) ∧
        s'.image.heap = s.image.heap := by
  refine (safe_update hs fun hid => ?_).mono fun _ _ s' _ h => ⟨h.1, fun hid => ?_, h.2.2⟩
  · exact hs.modifySymbol _ hid (hs.values id) (hs.cells id) ⟨rfl, rfl, rfl, fun _ => rfl⟩ rfl
  · rw [h.2.1, SymbolTable.isSpecial, SymbolTable.get_modify_self _ hid]

/-! ### Functions and tags -/

namespace Layout

/-- The layout with one more function. -/
def withShape (L : Layout) (f : FunctionId) (env : List FrameShape) : Layout :=
  { L with shape := fun g => if g = f then some env else L.shape g }

/-- The layout with one more tagbody. -/
def withTags (L : Layout) (id : SymbolId) (ts : List Value) : Layout :=
  { L with tags := fun i => if i = id then some ts else L.tags i }

/-- The layout with more symbols. -/
def withSymbols (L : Layout) (t : SymbolTable) : Layout := { L with symbols := t }

theorem within_withSymbols {t : SymbolTable} (ht : L.symbols.Keeps t) : L.Within (L.withSymbols t) :=
  { Within.refl L with symbols := ht }

theorem within_withShape {f : FunctionId} (hf : L.shape f = none) (env : List FrameShape) :
    L.Within (L.withShape f env) :=
  { Within.refl L with
    shape := fun g sh hg => by
      have hne : g ≠ f := fun heq => by simp [heq, hf] at hg
      simp only [withShape, hne, if_false, hg] }

theorem within_withTags {id : SymbolId} (hid : L.tags id = none) (ts : List Value) :
    L.Within (L.withTags id ts) :=
  { Within.refl L with
    tags := fun i us hi => by
      have hne : i ≠ id := fun heq => by simp [heq, hid] at hi
      simp only [withTags, hne, if_false, hi] }

/-- A heap stays in order when functions and tags are added to its layout. -/
theorem Fits.within {h : Heap} (hL : L.Fits h) (hw : L.Within L') (data : L'.data = L.data)
    (own : L'.own = L.own) (closure : L'.closure = L.closure) (slots : L'.slots = L.slots) :
    L'.Fits h where
  -- The new tags say nothing about pairs, so each clause is moved along as it is.
  apart := by
    rw [data, own]
    exact hL.apart
  data id hd := by
    obtain ⟨hlt, hcar, hcdr⟩ := hL.data id (data ▸ hd)
    exact ⟨hlt, hcar.within hw, hcdr.within hw⟩
  own id ho := hL.own id (own ▸ ho)
  closure id hc := by
    obtain ⟨ho, f, n, env, hcar, hshape, henv⟩ := hL.closure id (closure ▸ hc)
    exact ⟨hw.own id ho, f, n, env, hcar, hw.shape _ _ hshape, henv.grows (hw.grows (n := 0) h)⟩
  slots f n hs := hL.slots f n (slots ▸ hs)
  visible f v hv := (hL.visible f v hv).within hw
  instructions id code hop :=
    (hL.instructions id code hop).grows hop (hw.grows (n := 0) h) hop
  room := hL.room
  capacity := hL.capacity

end Layout

/-- A function without a place in the table has no shape. -/
theorem Sound.shape_fresh (hs : Sound L s) : L.shape ⟨s.image.functions.size⟩ = none := by
  cases hf : L.shape ⟨s.image.functions.size⟩ with
  | none => rfl
  | some env => exact absurd (hs.functions _ env hf).1 (Nat.lt_irrefl _)

/-- One more function in order, in a table that keeps the others. -/
theorem Sound.withShape (hs : Sound L s) {f : FunctionId} {env : List FrameShape}
    {functions : Array CompiledFunction} (hf : L.shape f = none)
    (hold : ∀ g sh, L.shape g = some sh → g.index < functions.size ∧
      ({ s.image with functions } : Image).function g = s.image.function g)
    (hlt : f.index < functions.size)
    (hbodies : ∀ g : FunctionId, g.index < functions.size → ∃ env,
      (({ s.image with functions } : Image).function g).Frames env ∧
      L.Code s.image.heap .function env [] [] (({ s.image with functions } : Image).function g).code)
    (hframes : (({ s.image with functions } : Image).function f).Frames env)
    (hcode : L.Code s.image.heap .function env [] []
      (({ s.image with functions } : Image).function f).code)
    (hexpander : (({ s.image with functions } : Image).function f).isMacro →
      ∃ e n, (({ s.image with functions } : Image).function f).expander = some e ∧
        L.shape e = some [n]) :
    Sound (L.withShape f env) { s with image.functions := functions } := by
  -- The layout only gains the shape of the one function, so everything else is in order as before.
  have hw := within_withShape hf env
  have hg : Grows 0 L s.image.heap (L.withShape f env) s.image.heap := hw.grows _
  refine ⟨hs.fits.within hw rfl rfl rfl rfl, fun g sh hshape => ?_,
    fun g hlt => (hbodies g hlt).imp fun _ h => h.imp_right fun hc => hc.grows hg,
    fun g sh hshape hm => ?_,
    fun id v hv => (hs.values id v hv).within hw, fun id g hcell => (hs.cells id g hcell).within hw,
    hs.tags, hs.primitives, hs.symbols, hs.headed, hs.consistent,
    fun saved hm v hv => (hs.bindings saved hm v hv).within hw, hs.bound, hs.counts, hs.noted.grows hg⟩
  · by_cases heq : g = f
    · subst heq
      obtain rfl : env = sh := by simpa [Layout.withShape] using hshape
      exact ⟨hlt, hframes, hcode.grows hg⟩
    · have hshape : L.shape g = some sh := by simpa [Layout.withShape, heq] using hshape
      obtain ⟨-, hframes', hc⟩ := hs.functions g sh hshape
      obtain ⟨hlt', hsame⟩ := hold g sh hshape
      rw [hsame]
      exact ⟨hlt', hframes', hc.grows hg⟩
  · obtain ⟨e, n, he, hn⟩ : ∃ e n, (({ s.image with functions } : Image).function g).expander = some e ∧
        L.shape e = some [n] := by
      by_cases heq : g = f
      · subst heq
        exact hexpander hm
      · have hshape : L.shape g = some sh := by simpa [Layout.withShape, heq] using hshape
        obtain ⟨-, hsame⟩ := hold g sh hshape
        rw [hsame] at hm ⊢
        exact hs.macros g sh hshape hm
    exact ⟨e, n, he, hw.shape _ _ hn⟩

section

variable {definition : CompiledFunction}

/-- All functions in order are in the table. -/
theorem Sound.within_below (hs : Sound L s) (hw : L.Within L') :
    L.Within (L'.below s.image.functions.size) :=
  Layout.within_below hw fun f env hf => (hs.functions f env hf).1

/-- The functions of a table with one more are the old ones and the new one. -/
theorem Image.function_push (image : Image) (f : FunctionId) :
    ({ image with functions := image.functions.push definition } : Image).function f =
      if f.index = image.functions.size then definition else image.function f := by
  by_cases h : f.index = image.functions.size
  · simp [Image.function, h]
  · simp [Image.function, Array.getElem?_push, h]

/-- The functions of a table have their code in order, with one more. -/
theorem Sound.bodies_push (hs : Sound L s) {env : List FrameShape} (hframes : definition.Frames env)
    (hcode : L.Code s.image.heap .function env [] [] definition.code)
    (f : FunctionId) (hf : f.index < (s.image.functions.push definition).size) :
    ∃ env, (({ s.image with functions := s.image.functions.push definition } : Image).function
        f).Frames env ∧
      L.Code s.image.heap .function env [] []
        (({ s.image with functions := s.image.functions.push definition } : Image).function f).code := by
  rw [Image.function_push]
  split
  · exact ⟨env, hframes, hcode⟩
  · next hne =>
    rw [Array.size_push] at hf
    exact hs.bodies f (by omega)

/-- The past of an image with one more function. -/
theorem Sound.history_push (hs : Sound L s) {env : List FrameShape}
    (hcode : L.Code s.image.heap .function (definition.arity.frame :: env) [] [] definition.code)
    (hw : L.Within L') (hi : History L s.image) :
    History L' { s.image with functions := s.image.functions.push definition } := by
  refine hi.extend (hw.grows (n := 0) _) (fun f hf => ?_) rfl
  rw [Image.function_push]
  split
  · next heq =>
    rw [heq]
    exact .inr ⟨env, hcode.grows ((hs.within_below hw).grows (n := 0) _)⟩
  · next hne =>
    rw [Array.size_push] at hf
    exact .inl ⟨by omega, rfl, rfl⟩

/-- Entering a function whose code is in order. -/
theorem safe_addFunction (env : List FrameShape) (hs : Sound L s) (hm : definition.isMacro = false)
    (hname : definition.name.isSome → env = [])
    (hcode : L.Code s.image.heap .function (definition.arity.frame :: env) [] [] definition.code) :
    Safe Evolves L (liftM (Image.addFunction definition) : LispM FunctionId) s fun L' f s' =>
      L'.shape f = some (definition.arity.frame :: env) ∧ s'.image.heap = s.image.heap ∧
        ∀ g : FunctionId, g.index < s.image.functions.size → L'.shape g = L.shape g ∧
          g.index < s'.image.functions.size ∧ s'.image.function g = s.image.function g := by
  unfold Safe
  rw [leads_image]
  have hw := within_withShape hs.shape_fresh (definition.arity.frame :: env)
  -- The new function is at the end of the table, where no other one has been known.
  have hnew : ({ s.image with functions := s.image.functions.push definition } : Image).function
      ⟨s.image.functions.size⟩ = definition := by
    rw [Image.function_push, if_pos rfl]
  refine ⟨L.withShape ⟨s.image.functions.size⟩ (definition.arity.frame :: env), ⟨hw.grows _, ?_, rfl,
    rfl, hs.history_push hcode hw⟩, by simp [Layout.withShape], rfl, fun g hg => ⟨?_, ?_, ?_⟩⟩
  · have hframes := CompiledFunction.frames_cons hname
    refine hs.withShape hs.shape_fresh (fun g sh hg => ?_) (by simp) (hs.bodies_push hframes hcode)
      (by rw [hnew]; exact hframes) (by rw [hnew]; exact hcode) (by rw [hnew, hm]; nofun)
    have hlt := (hs.functions g sh hg).1
    rw [Image.function_push, if_neg (Nat.ne_of_lt hlt)]
    exact ⟨by simpa using Nat.lt_succ_of_lt hlt, rfl⟩
  · have hne : g ≠ ⟨s.image.functions.size⟩ := fun heq => by simp [heq] at hg
    simp [Layout.withShape, hne]
  · simpa using Nat.lt_succ_of_lt hg
  · rw [Image.function_push, if_neg (Nat.ne_of_lt hg)]

/-- Entering a function that cannot be called yet. -/
theorem safe_addMacro (env : List FrameShape) (hs : Sound L s)
    (hname : definition.name.isSome → env = [])
    (hcode : L.Code s.image.heap .function (definition.arity.frame :: env) [] [] definition.code) :
    Safe Evolves L (liftM (Image.addFunction definition) : LispM FunctionId) s fun L' f s' =>
      L' = L ∧ s'.image.heap = s.image.heap ∧ s'.image.function f = definition ∧
        f.index < s'.image.functions.size ∧ L'.shape f = none := by
  unfold Safe
  rw [leads_image]
  refine ⟨L, ⟨.refl _ L _, ?_, rfl, rfl, hs.history_push hcode (.refl L)⟩, rfl, rfl, ?_, by simp,
    hs.shape_fresh⟩
  -- The layout does not know of the macro yet, so there is nothing to call.
  · have hsame (f : FunctionId) (sh : List FrameShape) (hf : L.shape f = some sh) :
        ({ s.image with functions := s.image.functions.push definition } : Image).function f =
          s.image.function f := by
      rw [Image.function_push, if_neg (Nat.ne_of_lt (hs.functions f sh hf).1)]
    refine { hs with
      functions := fun f sh hf => ?_
      bodies := hs.bodies_push (CompiledFunction.frames_cons hname) hcode
      macros := fun f sh hf => ?_ }
    · obtain ⟨hlt, hframes, hcode⟩ := hs.functions f sh hf
      rw [hsame f sh hf]
      exact ⟨by simpa using Nat.lt_succ_of_lt hlt, hframes, hcode⟩
    · rw [hsame f sh hf]
      exact hs.macros f sh hf
  · rw [Image.function_push, if_pos rfl]

end

/-- Giving a function an expander, after which it can be the function of a symbol. -/
theorem safe_setExpander (hs : Sound L s) {f e : FunctionId} {n : FrameShape} (hf : L.shape f = none)
    (hlt : f.index < s.image.functions.size) (he : L.shape e = some [n])
    (hcode : L.Code s.image.heap .function [(s.image.function f).arity.frame] [] []
      (s.image.function f).code) :
    Safe Evolves L
      (liftM (Image.modifyFunction f fun definition => { definition with expander := some e }) :
        LispM Unit) s fun L' _ s' => L'.Visible (.function f) ∧ s'.image.heap = s.image.heap := by
  unfold Safe
  rw [leads_image]
  have hnew : ({ s.image with functions := s.image.functions.modify f.index fun definition =>
      { definition with expander := some e } } : Image).function f =
        { s.image.function f with expander := some e } := by
    simp [Image.function, Array.getElem_modify, hlt]
  have hw := within_withShape hf [(s.image.function f).arity.frame]
  -- Only this function changes, and it keeps its code.
  have hothers (g : FunctionId) (hne : g ≠ f) :
      ({ s.image with functions := s.image.functions.modify f.index fun definition =>
        { definition with expander := some e } } : Image).function g = s.image.function g := by
    have hne' : f.index ≠ g.index := fun heq => hne (by cases f; cases g; simp_all)
    simp [Image.function, Array.getElem?_modify, hne']
  have hkept (g : FunctionId) :
      (({ s.image with functions := s.image.functions.modify f.index fun definition =>
        { definition with expander := some e } } : Image).function g).arity = (s.image.function g).arity ∧
      (({ s.image with functions := s.image.functions.modify f.index fun definition =>
        { definition with expander := some e } } : Image).function g).code = (s.image.function g).code := by
    by_cases heq : g = f
    · rw [heq, hnew]
      exact ⟨rfl, rfl⟩
    · rw [hothers g heq]
      exact ⟨rfl, rfl⟩
  refine ⟨L.withShape f [(s.image.function f).arity.frame], ⟨hw.grows _, ?_, rfl, rfl, fun hi =>
    hi.extend (hw.grows (n := 0) _) (fun g hg => .inl ⟨by simpa using hg, hkept g⟩) rfl⟩,
    ⟨_, by simp [Layout.withShape]; rfl⟩, rfl⟩
  refine hs.withShape hf (fun g sh hg => ?_) (by simpa using hlt) (fun g hg => ?_)
    (by rw [hnew]; exact ⟨rfl, fun _ => rfl⟩) (by rw [hnew]; exact hcode)
    fun _ => ⟨e, n, by rw [hnew], he⟩
  · refine ⟨by simpa using (hs.functions g sh hg).1, hothers g fun heq => ?_⟩
    rw [heq, hf] at hg
    cases hg
  · by_cases heq : g = f
    · rw [heq, hnew]
      exact ⟨_, ⟨rfl, fun _ => rfl⟩, hcode⟩
    · rw [hothers g heq]
      exact hs.bodies g (by simpa using hg)

/-- The tags of a new tagbody. -/
theorem Sound.withTags (hs : Sound L s) {id : SymbolId} (hid : L.tags id = none)
    (hlt : id.index < s.image.symbols.size) (ts : List Value) :
    Evolves L s (L.withTags id ts) s := by
  -- Entering the tags of one new tagbody is the only change, and no symbol had these before.
  have hw := within_withTags hid ts
  have hg : Grows s.image.heap.frames.size L s.image.heap (L.withTags id ts) s.image.heap :=
    hw.grows _
  refine ⟨hg, ⟨hs.fits.within hw rfl rfl rfl rfl, fun f sh hf => ?_,
    fun f hf => (hs.bodies f hf).imp fun _ h => h.imp_right fun hc => hc.grows hg, hs.macros,
    fun i v hv => ?_,
    fun i f hf => (hs.cells i f hf).within hw, fun i us hi => ?_, hs.primitives, hs.symbols,
    hs.headed, hs.consistent, fun saved hm v hv => (hs.bindings saved hm v hv).within hw, hs.bound,
    hs.counts, hs.noted.grows hg⟩,
    rfl, rfl, fun hi => hi.grows hg rfl rfl⟩
  · obtain ⟨hlt, hframes, hc⟩ := hs.functions f sh hf
    exact ⟨hlt, hframes, hc.grows hg⟩
  · exact (hs.values i v hv).within hw
  · by_cases heq : i = id
    · exact heq ▸ hlt
    · exact hs.tags i us (by simpa [Layout.withTags, heq] using hi)

/-- All symbols there are. -/
theorem Sound.withSymbols (hs : Sound L s) : Evolves L s (L.withSymbols s.image.symbols) s := by
  have hw := within_withSymbols hs.symbols
  have hg : Grows s.image.heap.frames.size L s.image.heap (L.withSymbols s.image.symbols)
      s.image.heap := hw.grows _
  refine ⟨hg, { hs with
    fits := hs.fits.within hw rfl rfl rfl rfl
    functions := fun f sh hf => ?_
    bodies := fun f hf => (hs.bodies f hf).imp fun _ h => h.imp_right fun hc => hc.grows hg
    values := fun i v hv => (hs.values i v hv).within hw
    cells := fun i f hf => (hs.cells i f hf).within hw
    symbols := .refl _
    bindings := fun saved hm v hv => (hs.bindings saved hm v hv).within hw
    noted := hs.noted.grows hg }, rfl, rfl, fun hi => hi.grows hg rfl rfl⟩
  obtain ⟨hlt, hframes, hc⟩ := hs.functions f sh hf
  exact ⟨hlt, hframes, hc.grows hg⟩

end StackLisp
