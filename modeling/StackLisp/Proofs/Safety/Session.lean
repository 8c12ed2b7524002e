import StackLisp.Interpreter.Session
import StackLisp.Proofs.Safety.Evaluation
import StackLisp.Proofs.Safety.Reading

/-!
# Sessions in order

An interpreter is in order when it starts (`sound_blank`, `safe_setUp`), and every
text that is evaluated leaves it so (`safe_evalText`).

A *session* starts an interpreter and goes through any commands: reading forms,
putting values together, compiling them, and running code, at any time and any
number of times, also after failures. Every command keeps a session in order
(`Session.Orderly.perform`), so no failure in any session is a broken rule of the
machine, unless it is a late exit.
-/

namespace StackLisp

open Interpreter Layout Machine Compiler

/-! ## The start -/

namespace Layout

/-- Nothing is known at the start. -/
def blank : Layout where
  data _ := False
  own _ := False
  closure _ := False
  slots _ := none
  shape _ := none
  tags _ := none
  symbols := {}

/-- Nothing is in the heap. -/
theorem fits_blank (capacity : Nat) : blank.Fits (.empty capacity) where
  apart _ hd := hd.elim
  data _ hd := hd.elim
  own _ ho := ho.elim
  closure _ hc := hc.elim
  slots _ _ hs := by cases hs
  visible f v hv := by
    rw [Heap.frameAt_of_size_le (Nat.zero_le _)] at hv
    exact absurd hv (Array.not_mem_empty v)
  instructions id code hop := by
    rw [Heap.car_of_size_le (Nat.zero_le _)] at hop
    cases hop
  room := Nat.zero_le _
  capacity := Nat.min_le_right _ _

end Layout

namespace SymbolTable

/-- The table holds no functions, and no values but `nil` and `t`; nothing is bound. -/
structure Plain (t : SymbolTable) : Prop where
  values : ∀ id v, (t.get id).value = some v → v = .nil ∨ v = .t
  cells : ∀ id, t.cell id = .unbound
  depths : ∀ id, (t.get id).bindingDepth = 0

/-- A name that is no keyword gets a symbol without a value. -/
theorem Plain.insert {t : SymbolTable} (ht : t.Plain) {name : String}
    (hname : isKeywordName name = false) : (t.insert name).Plain := by
  have hnew (id : SymbolId) : newSymbol name id = { name } := by simp [newSymbol, hname]
  refine ⟨fun id v hv => ?_, fun id => ?_, fun id => ?_⟩
  · rcases get_push (t := t) (i := id) (x := newSymbol name ⟨t.symbols.size⟩) (n := t.gensyms) with
      heq | ⟨rfl, heq⟩
    · exact ht.values id v (heq ▸ hv)
    · cases ((congrArg Symbol.value heq).trans (congrArg Symbol.value (hnew _))).symm.trans hv
  · rcases get_push (t := t) (i := id) (x := newSymbol name ⟨t.symbols.size⟩) (n := t.gensyms) with
      heq | ⟨rfl, heq⟩
    · exact (congrArg Symbol.function heq).trans (ht.cells id)
    · exact (congrArg Symbol.function heq).trans (congrArg Symbol.function (hnew _))
  · rcases get_push (t := t) (i := id) (x := newSymbol name ⟨t.symbols.size⟩) (n := t.gensyms) with
      heq | ⟨rfl, heq⟩
    · exact (congrArg Symbol.bindingDepth heq).trans (ht.depths id)
    · exact (congrArg Symbol.bindingDepth heq).trans (congrArg Symbol.bindingDepth (hnew _))

/-- The constants have values that are known. -/
theorem Plain.setConstant {t : SymbolTable} (ht : t.Plain) (id : SymbolId) {v : Value}
    (hv : v = .nil ∨ v = .t) :
    (t.modify id fun s => { s with constant := true, value := some v }).Plain := by
  refine ⟨fun i w hw => ?_, fun i => ?_, fun i => ?_⟩
  · rcases get_modify t id i _ with heq | ⟨rfl, heq⟩
    · exact ht.values i w (heq ▸ hw)
    · rw [heq] at hw
      cases hw
      exact hv
  · rcases get_modify t id i _ with heq | ⟨rfl, heq⟩
    · exact (congrArg Symbol.function heq).trans (ht.cells i)
    · exact (congrArg Symbol.function heq).trans (ht.cells i)
  · rcases get_modify t id i _ with heq | ⟨rfl, heq⟩
    · exact (congrArg Symbol.bindingDepth heq).trans (ht.depths i)
    · exact (congrArg Symbol.bindingDepth heq).trans (ht.depths i)

/-- One name after the other. -/
theorem plain_foldl_insert : ∀ {names : List String} {t : SymbolTable}, t.Plain →
    (∀ name ∈ names, isKeywordName name = false) → (names.foldl insert t).Plain
  | [], _, ht, _ => ht
  | name :: names, t, ht, hnames => by
    rw [List.foldl_cons]
    refine plain_foldl_insert (ht.insert (hnames name List.mem_cons_self)) fun name' hname' => ?_
    exact hnames name' (List.mem_cons_of_mem _ hname')

/-- None of the names that are referred to is a keyword. -/
theorem plain_initial : initial.Plain := by
  have hempty : ({} : SymbolTable).Plain := ⟨by rintro _ _ ⟨⟩, fun _ => rfl, fun _ => rfl⟩
  have hnames : ∀ name ∈ SymbolId.wellKnown, isKeywordName name = false := by decide +kernel
  exact ((plain_foldl_insert hempty hnames).setConstant .nil (.inl rfl)).setConstant .t (.inr rfl)

/-- The names of `nil` and `t` are entered first. -/
theorem headed_initial : initial.Headed :=
  ⟨by decide +kernel, by decide +kernel, by decide +kernel⟩

/-- The names differ, and `nil` and `t` stand for themselves. -/
theorem consistent_initial : initial.Consistent := by
  have hsize : initial.size = 22 := by decide +kernel
  have hnamed : ∀ i < 22, initial.Named ⟨i⟩ ∧ isKeywordName (initial.name ⟨i⟩) = false := by
    decide +kernel
  have hconstants : ∀ i < 22, initial.isConstant ⟨i⟩ = true →
      (initial.get ⟨i⟩).value = some (.ofSymbol ⟨i⟩) ∧ initial.isSpecial ⟨i⟩ = false ∧
        initial.cell ⟨i⟩ = .unbound := by decide +kernel
  have hlt {id : SymbolId} (hid : initial.isConstant id = true) : id.index < 22 :=
    hsize ▸ lt_size_of_isConstant hid
  refine ⟨fun id hid => (hnamed id.index (hsize ▸ hid.1)).1, ?_,
    fun id hid => (hconstants _ (hlt hid) hid).1, fun id hid => (hconstants _ (hlt hid) hid).2.1,
    fun id hid => (hconstants _ (hlt hid) hid).2.2⟩
  rintro id (rfl | rfl | ⟨hid, hkeyword⟩)
  · decide +kernel
  · decide +kernel
  · exact absurd ((hnamed id.index (hsize ▸ hid.1)).2.symm.trans hkeyword) Bool.false_ne_true

end SymbolTable

/-- An interpreter is in order before it is set up. -/
theorem sound_blank (config : Config) (level : LogLevel) :
    Sound Layout.blank (Interpreter.blank config level) where
  fits := fits_blank config.heapCapacity
  functions _ _ hf := by cases hf
  bodies _ hf := absurd hf (Nat.not_lt_zero _)
  macros _ _ hf := by cases hf
  values id v hv := by
    obtain rfl | rfl := SymbolTable.plain_initial.values id v hv
    · exact trivial
    · exact trivial
  cells id f hf := by cases (SymbolTable.plain_initial.cells id).symm.trans hf
  tags _ _ ht := by cases ht
  primitives _ _ _ hb := by cases hb
  symbols := ⟨Nat.zero_le _, fun _ hid => absurd hid (Nat.not_lt_zero _)⟩
  headed := SymbolTable.headed_initial
  consistent := SymbolTable.consistent_initial
  bindings _ hm := by cases hm
  bound _ hm := by cases hm
  counts := ⟨nofun, SymbolTable.plain_initial.depths⟩
  noted := ⟨nofun, nofun⟩

/-- Nothing has happened before an interpreter is set up. -/
theorem history_blank (config : Config) (level : LogLevel) :
    History Layout.blank (Interpreter.blank config level).image where
  bodies _ hf := absurd hf (Nat.not_lt_zero _)
  entered _ _ hm := absurd hm List.not_mem_nil
  faultless := List.not_mem_nil

/-- Every primitive can be run on the numbers of arguments it accepts. -/
theorem library_takes {d : PrimitiveDefinition} (hd : d ∈ Primitive.library) {b : Builtin} {n : Nat}
    (hb : d.builtin = some b) (hn : d.arity.accepts n) : b.Takes n := by
  simp only [Arity.accepts, Bool.and_eq_true, decide_eq_true_eq] at hn
  obtain ⟨hmin, hmax⟩ := hn
  simp only [Primitive.library, List.mem_cons, List.not_mem_nil, or_false] at hd
  repeat' obtain rfl | hd := hd
  all_goals cases hb
  all_goals first | trivial | exact hmin | exact Nat.le_antisymm (of_decide_eq_true hmax) hmin

section

variable {L : Layout} {s : Interpreter}

/-- A primitive is the new one, or it was there. -/
theorem PrimitiveTable.get_insert_of {t : PrimitiveTable} {p : Primitive} (id : PrimitiveId) :
    (t.insert p).2.get id = p ∨ (t.insert p).2.get id = t.get id := by
  unfold insert
  cases t.position? p.name with
  | none =>
    by_cases hid : id.index = t.entries.size
    · exact .inl (by simp [get, hid])
    · exact .inr (by simp [get, Array.getElem?_push, hid])
  | some i =>
    by_cases hid : i.index = id.index
    · by_cases hlt : i.index < t.entries.size
      · exact .inl (by simp [get, ← hid, hlt])
      · exact .inr (by simp [get, ← hid, hlt])
    · exact .inr (by simp [get, hid])

/-- Actions on the image, one after the other. -/
theorem safe_image_bind {α β : Type} {R : Layout → Interpreter → Layout → Interpreter → Prop}
    {x : ImageM α} {f : α → ImageM β} {post : Layout → β → Interpreter → Prop} :
    Safe R L (liftM (x >>= f) : LispM β) s post ↔
      Safe R L ((liftM x : LispM α) >>= fun a => (liftM (f a) : LispM β)) s post := by
  unfold Safe
  simp only [leads_image, leads_bind]

/-- Registering a primitive that can be run on what it accepts. -/
theorem safe_register {d : PrimitiveDefinition} (hs : Sound L s)
    (hd : ∀ b n, d.builtin = some b → d.arity.accepts n → b.Takes n) :
    Safe Evolves L (liftM (Image.register d) : LispM PrimitiveId) s fun _ _ _ => True := by
  unfold Image.register
  rw [safe_image_bind]
  refine Safe.bind (safe_intern hs d.name) ?_
  rintro L₁ name s₁ e₁ -
  rw [safe_image_bind]
  refine (safe_bind_of_ok (x := (liftM (get : ImageM Image) : LispM Image)) rfl).2 ?_
  cases name.isSpecialForm || s₁.image.symbols.isConstant name with
  -- A name that is a special form or a constant is refused before anything is changed.
  | true => exact ⟨trivial, L₁, e₁.sound.evolves⟩
  | false =>
    simp only [Bool.false_eq_true, if_false]
    rw [safe_image_bind]
    let p : Primitive := { d with name }
    -- The primitive may take the place of an older one of that name, or a new one.
    have hs₂ : Sound L₁ { s₁ with image.primitives := (s₁.image.primitives.insert p).2 } := by
      refine { e₁.sound with primitives := fun id b n hb hn => ?_ }
      rcases PrimitiveTable.get_insert_of (t := s₁.image.primitives) (p := p) id with heq | heq
      · rw [heq] at hb hn
        exact hd b n hb hn
      · rw [heq] at hb hn
        exact e₁.sound.primitives id b n hb hn
    refine safe_bind_of_step (a := (s₁.image.primitives.insert p).1) rfl
      ⟨.refl _ L₁ _, hs₂, rfl, rfl, fun hi => hi.of_eq rfl rfl rfl⟩ ?_
    rw [safe_image_bind]
    refine Safe.bind (safe_setCell hs₂ nofun) fun L₃ _ s₃ e₃ _ => ?_
    exact Safe.pure e₃.sound.evolves trivial

/-! ## Evaluation -/

/-- The machine runs in order. -/
theorem runs_runFrom (fuel : Nat) : RunsInOrder (runFrom fuel .next) :=
  fun hr => (compiles_and_runs fuel).2 hr

/-- A form at top level gives code in front of a stop. -/
theorem safe_compile {form : Value} (hs : Sound L s) (hform : L.Visible form) :
    Safe Evolves L (compile form) s fun L' c s' => L'.Code s'.image.heap .toplevel [] [] [] c :=
  safe_compileToplevel (compiles_and_runs horizon).1 hs hform

/-- The code of a form is run, and leaves its value. -/
theorem safe_eval {form : Value} (hs : Sound L s) (hform : L.Visible form) :
    Safe Evolves L (eval form) s fun L' v _ => L'.Visible v := by
  refine (safe_compile hs hform).bind fun L₁ code s₁ e₁ hcode => ?_
  refine safe_bind_of_step (a := ()) rfl ⟨.refl _ L₁ _, e₁.sound.registers rfl, rfl, rfl, id⟩ ?_
  exact safe_executeCode (runs_runFrom horizon) (e₁.sound.registers rfl) hcode

/-- By recursion on the bound, as each form is read on the heap that the one before has left. -/
theorem safe_evalForms : ∀ {fuel : Nat} {L : Layout} {s : Interpreter} {text : List Char}
    {last : Value}, Sound L s → L.Visible last →
    Safe Evolves L (evalForms fuel text last) s fun L' v _ => L'.Visible v
  | 0, _, _, _, _, hs, _ => Safe.throw hs.evolves trivial
  | fuel + 1, L, s, text, last, hs, hlast => by
    refine Safe.bind (safe_readWithin hs (fuel + 1) text) ?_
    rintro L₁ (_ | ⟨form, rest, count⟩) s₁ e₁ hform
    · exact Safe.pure e₁.sound.evolves (e₁.visible hlast)
    · refine Safe.bind (safe_eval e₁.sound (hform _ rfl)) fun L₂ v s₂ e₂ hv => ?_
      exact safe_evalForms e₂.sound hv

/-- A text without forms has the value `nil`. -/
theorem safe_evalText (hs : Sound L s) (text : String) :
    Safe Evolves L (evalText text) s fun L' v _ => L'.Visible v := by
  unfold evalText
  exact safe_evalForms hs (show L.Visible .nil from trivial)

/-- The prelude is evaluated as any text is. -/
theorem safe_loadPrelude (hs : Sound L s) :
    Safe Evolves L loadPrelude s fun _ _ _ => True := by
  unfold loadPrelude
  generalize Prelude.text = text
  refine (safe_modify_apart hs rfl rfl rfl rfl rfl rfl rfl).bind ?_
  rintro L₁ _ s₁ e₁ -
  refine safe_attempt_bind (safe_evalText e₁.sound _) ?_ ?_
  · rintro L₂ v s₂ e₂ -
    refine (safe_modify_apart e₂.sound rfl rfl rfl rfl rfl rfl rfl).bind ?_
    rintro L₃ _ s₃ e₃ -
    refine safe_pure_bind.2 (safe_modifyScopes_bind e₃.sound ?_ fun hs₃ =>
      (safe_record hs₃ (by decide)).mono fun _ _ _ _ _ => trivial)
    exact ⟨e₃.sound.noted.tails, e₃.sound.noted.tagbodies⟩
  · rintro L₂ e s₂ e₂ he
    refine (safe_modify_apart e₂.sound rfl rfl rfl rfl rfl rfl rfl).bind ?_
    rintro L₃ _ s₃ e₃ -
    exact ⟨he, L₃, e₃.sound.evolves⟩

/-- Registering all primitives. -/
theorem safe_registerAll (hs : Sound L s) :
    Safe Evolves L (Primitive.library.forM fun d => do let _ ← Image.register d : LispM Unit) s fun _ _ _ => True := by
  have hregister := @library_takes
  generalize Primitive.library = library at hregister ⊢
  refine Safe.forM hs.evolves fun d hd L₁ s₁ e₁ => ?_
  refine Safe.bind (safe_register e₁.sound fun b n => hregister hd) fun L₂ _ s₂ e₂ _ => ?_
  exact Safe.pure e₂.sound.evolves trivial

attribute [local irreducible] loadPrelude in
theorem safe_setUp (hs : Sound L s) (config : Config) :
    Safe Evolves L (setUp config) s fun _ _ _ => True := by
  unfold setUp
  refine (safe_registerAll hs).bind fun L₁ _ s₁ e₁ _ => ?_
  split
  · exact safe_loadPrelude e₁.sound
  · exact Safe.pure e₁.sound.evolves trivial

end

/-! ## Sessions -/

/-- Something to do in a session. Values and codes are named by their position, the latest
    first. -/
inductive Command where
  /-- Reads the first form of a text. -/
  | read (text : String)
  /-- Makes a pair of two values. -/
  | cons (head tail : Nat)
  /-- Compiles a form, within a bound. -/
  | compile (form fuel : Nat)
  /-- Runs code, within a bound. -/
  | execute (code fuel : Nat)

/-- What a session compiles and runs with, within any bound. -/
structure Engine where
  compile : Nat → CompileRule
  run : Nat → LispM Unit

/-- The compiler and the machine. -/
def Engine.plain : Engine := ⟨compileFrom, fun fuel => runFrom fuel .next⟩

/-- The engine compiles and runs in order. -/
structure Engine.InOrder (engine : Engine) : Prop where
  compiles (fuel : Nat) : Compiles (engine.compile fuel)
  runs (fuel : Nat) : RunsInOrder (engine.run fuel)

theorem Engine.plain_inOrder : plain.InOrder :=
  ⟨fun fuel => (compiles_and_runs fuel).1, runs_runFrom⟩

/-- An interpreter, with what has been made in it so far. -/
structure Session where
  interpreter : Interpreter
  /-- What was read, put together and computed. -/
  values : List Value := []
  /-- What was compiled. -/
  codes : List Value := []
  /-- How commands have failed. -/
  failures : List Failure := []

namespace Session

/-- Goes on by an action, whose result is kept and whose failure is noted. -/
def act {α : Type} (session : Session) (x : LispM α) (keep : α → Session → Session) : Session :=
  match x session.interpreter with
  | .ok a interpreter => keep a { session with interpreter }
  | .error e interpreter => { session with interpreter, failures := e :: session.failures }

/-- One more value. -/
def keepValue (v : Value) (session : Session) : Session :=
  { session with values := v :: session.values }

/-- One more piece of code. -/
def keepCode (code : Value) (session : Session) : Session :=
  { session with codes := code :: session.codes }

/-- Does what a command says; nothing if it names what is not there. -/
def perform (engine : Engine) (session : Session) : Command → Session
  | .read text => session.act (Image.readOne text) keepValue
  | .cons i j =>
    match session.values[i]?, session.values[j]? with
    | some a, some d => session.act (Heap.cons a d) keepValue
    | _, _ => session
  | .compile i fuel =>
    match session.values[i]? with
    | some form => session.act (compileToplevel (engine.compile fuel) form) keepCode
    | none => session
  | .execute i fuel =>
    match session.codes[i]? with
    | some code => session.act (execute (engine.run fuel) code []) keepValue
    | none => session

/-- A session that has just started, or failed to. -/
def start (config : Config) (level : LogLevel) : Session :=
  ({ interpreter := blank config level } : Session).act (setUp config) fun _ session => session

/-- A session that has gone through commands. -/
def run (engine : Engine) (config : Config) (level : LogLevel) (commands : List Command) : Session :=
  commands.foldl (perform engine) (start config level)

/-- No failure of the session is a broken rule of the machine, unless it is a late exit. -/
def BreaksNoRule (session : Session) : Prop := ∀ e ∈ session.failures, e.Benign

/-- The interpreter of a session and everything made in it are in order. -/
structure Orderly (L : Layout) (session : Session) : Prop where
  sound : Sound L session.interpreter
  history : History L session.interpreter.image
  values : ∀ v ∈ session.values, L.Visible v
  codes : ∀ c ∈ session.codes, L.Code session.interpreter.image.heap .toplevel [] [] [] c
  breaksNoRule : session.BreaksNoRule

section

variable {L L' : Layout} {session : Session} {s : Interpreter} {engine : Engine}

/-- What has been made in the session stays in order. -/
theorem Orderly.evolves (ho : session.Orderly L) (e : Evolves L session.interpreter L' s) :
    ({ session with interpreter := s } : Session).Orderly L' where
  sound := e.sound
  history := e.history ho.history
  values v hv := e.visible (ho.values v hv)
  codes c hc := (ho.codes c hc).grows e.grows
  breaksNoRule := ho.breaksNoRule

/-- The session may keep a value that programs can see. -/
theorem Orderly.keepValue (ho : session.Orderly L) {v : Value} (hv : L.Visible v) :
    (session.keepValue v).Orderly L :=
  { ho with values := fun w hw => (List.mem_cons.1 hw).elim (· ▸ hv) (ho.values w) }

/-- And code that has been compiled. -/
theorem Orderly.keepCode (ho : session.Orderly L) {c : Value}
    (hc : L.Code session.interpreter.image.heap .toplevel [] [] [] c) :
    (session.keepCode c).Orderly L :=
  { ho with codes := fun d hd => (List.mem_cons.1 hd).elim (· ▸ hc) (ho.codes d) }

/-- Safe actions keep a session in order. -/
theorem Orderly.act {α : Type} {x : LispM α} {keep : α → Session → Session}
    {post : Layout → α → Interpreter → Prop} (ho : session.Orderly L)
    (hx : Safe Evolves L x session.interpreter post)
    (hkeep : ∀ {L' : Layout} {a : α} {s : Interpreter}, post L' a s →
      ({ session with interpreter := s } : Session).Orderly L' →
      (keep a { session with interpreter := s }).Orderly L') :
    ∃ L', L.Within L' ∧ (session.act x keep).Orderly L' := by
  unfold Safe Leads at hx
  unfold Session.act
  split at hx
  · next a s heq =>
    rw [heq]
    obtain ⟨L', e, hp⟩ := hx
    exact ⟨L', e.grows.within, hkeep hp (ho.evolves e)⟩
  · next f s heq =>
    rw [heq]
    obtain ⟨hf, L', e⟩ := hx
    -- A command that fails leaves the same order behind, with one fault more that is no broken
    -- rule.
    refine ⟨L', e.grows.within, { ho.evolves e with breaksNoRule := fun g hg => ?_ }⟩
    rcases List.mem_cons.1 hg with rfl | hg
    · exact hf
    · exact ho.breaksNoRule g hg

/-- So does every command. -/
theorem Orderly.perform (ho : session.Orderly L) (he : engine.InOrder) (command : Command) :
    ∃ L', L.Within L' ∧ (session.perform engine command).Orderly L' := by
  -- A command finds what it is about among the values and the code that the session has kept, which
  -- are in order.
  cases command with
  | read text => exact ho.act (safe_readOne ho.sound text) fun hv ho => ho.keepValue hv
  | cons i j =>
    simp only [Session.perform]
    split
    · next a d ha hd =>
      refine ho.act (safe_heap (P := fun L' v _ => L'.Visible v) ho.sound
        (safe_cons ho.sound.fits ?_ ?_)) fun hv ho => ho.keepValue hv
      · exact ho.values a (List.mem_of_getElem? ha)
      · exact ho.values d (List.mem_of_getElem? hd)
    · exact ⟨L, .refl L, ho⟩
  | compile i fuel =>
    simp only [Session.perform]
    split
    · next form hform =>
      refine ho.act (safe_compileToplevel (he.compiles fuel) ho.sound ?_)
        fun hc ho => ho.keepCode hc
      exact ho.values form (List.mem_of_getElem? hform)
    · exact ⟨L, .refl L, ho⟩
  | execute i fuel =>
    simp only [Session.perform]
    split
    · next code hcode =>
      refine ho.act (safe_executeCode (he.runs fuel) ho.sound ?_) fun hv ho => ho.keepValue hv
      exact ho.codes code (List.mem_of_getElem? hcode)
    · exact ⟨L, .refl L, ho⟩

/-- A session is in order when it starts, even if there is no room for the prelude. -/
theorem orderly_start (config : Config) (level : LogLevel) : ∃ L, (start config level).Orderly L := by
  have ho : ({ interpreter := blank config level } : Session).Orderly .blank :=
    ⟨sound_blank config level, history_blank config level, nofun, nofun, nofun⟩
  have hstart : ∃ L, Layout.blank.Within L ∧ (start config level).Orderly L :=
    ho.act (safe_setUp ho.sound config) fun _ ho => ho
  exact hstart.imp fun L h => h.2

/-- Command after command. -/
theorem Orderly.performAll (ho : session.Orderly L) (he : engine.InOrder) (commands : List Command) :
    ∃ L', (commands.foldl (Session.perform engine) session).Orderly L' := by
  induction commands generalizing L session with
  | nil => exact ⟨L, ho⟩
  | cons command commands ih =>
    obtain ⟨L', -, ho'⟩ := ho.perform he command
    exact ih ho'

/-- Sessions on an engine in order break no rule. -/
theorem breaksNoRule_of_inOrder (he : engine.InOrder) (config : Config) (level : LogLevel)
    (commands : List Command) : (run engine config level commands).BreaksNoRule := by
  obtain ⟨L, ho⟩ := orderly_start config level
  obtain ⟨L', ho'⟩ := ho.performAll he commands
  exact ho'.breaksNoRule

end

/-- Compiled code is sound: in every session, whatever its settings and its commands, no
    command breaks a rule of the machine, other than by an exit whose target is gone. -/
theorem breaksNoRule_run (config : Config) (level : LogLevel) (commands : List Command) :
    (run .plain config level commands).BreaksNoRule :=
  breaksNoRule_of_inOrder Engine.plain_inOrder config level commands

end Session

end StackLisp
