import StackLisp.Proofs.Balance
import StackLisp.Proofs.Safety.Snapshot

/-!
# The shape of compiled code

`Heap.Parses h shape b env opened c` says, without a layout, that the stream `c` is made of
instructions, each with operands of its kinds, and that it is properly nested: inside of what
`opened` tells, the innermost first, every path closes everything that was opened, in turn,
and then comes to the end that `b` tells. So

* both arms of a branch with a `JOIN` end in that `JOIN`, and both arms of one without it
  go on to the same end;
* blocks, bindings and tagbodies are left by their own instructions;
* the tags of a tagbody stand for tails of its own code;
* variables are addressed within the frames `env` and those of the functions and dummy
  frames around.

`shape` tells the frames of every function: its own first, then those where its closure is
loaded, and none but its own if a definition has compiled it (`Interpreter.WellFormed`).
Whatever is compiled has this shape, up to the code it is put in front of
(`compiled_parses`).
-/

namespace StackLisp

open Interpreter Layout Compiler

/-- What a stream is in the middle of. -/
inductive Opening where
  | inside (construct : Construct)
  /-- Between a dummy frame of so many slots and the call that fills it. -/
  | dummy (count : Nat)

/-- Whether code comes to its end at `c`. -/
def Base.Ends (h : Heap) : Base → Value → Prop
  | .function, c => h.instruction? c = some (.rtn, [], .nil)
  | .toplevel, c => h.instruction? c = some (.stop, [], .nil)
  | .upTo next, c => c = next

/-- The operands are an address of a parameter, or of the rest parameter. -/
def Addresses (env : List FrameShape) (rest : Bool) (v w : Value) : Prop :=
  ∃ i j n, v.count? = some i ∧ w.count? = some j ∧ env[i]? = some n ∧
    if rest then j = n.params ∧ n.rest else j < n.params

/-- The operands are of the kinds that an instruction takes which goes on with the next one. -/
def Opcode.Takes (shape : FunctionId → Option (List FrameShape)) (env : List FrameShape) :
    Opcode → List Value → Prop
  | .ldc, [v] => v.isProper
  | .ld, [v, w] | .setl, [v, w] => Addresses env false v w
  | .ldr, [v, w] | .setlr, [v, w] => Addresses env true v w
  | .ldg, [v] | .gfn, [v] | .setg, [v] => ∃ name, v = .symbol name
  | .ldf, [v] => ∃ f n, v = .function f ∧ shape f = some (n :: env)
  | .ap, [v] | .tap, [v] => v.count?.isSome
  | .callp, [v, w] => (∃ p, v = .primitive p) ∧ w.count?.isSome
  | .retfrom, [name] => name.isSymbol
  | .go, [v, tag] => (∃ id, v = .symbol id) ∧ tag.isTag
  | .pop, [] => True
  | _, _ => False

/-- The value is an association list. -/
inductive Heap.Associates (h : Heap) : List (Value × Value) → Value → Prop
  | nil : Associates h [] .nil
  | cons {id entry : PairId} {entries : List (Value × Value)} (car : h.car id = .pair entry)
      (rest : Associates h entries (h.cdr id)) :
      Associates h ((h.car entry, h.cdr entry) :: entries) (.pair id)

/-- The stream is made of instructions and properly nested, up to its end. -/
inductive Heap.Parses (h : Heap) (shape : FunctionId → Option (List FrameShape)) (b : Base) :
    List FrameShape → List Opening → Value → Prop
  | done {env c} (ends : b.Ends h c) : Parses h shape b env [] c
  | straight {env opened c k code vs} (instr : h.instruction? c = some (code, vs, k))
      (takes : code.Takes shape env vs) (next : Parses h shape b env opened k) :
      Parses h shape b env opened c
  | dum {env opened c c' k v n} {f : FunctionId} (instr : h.instruction? c = some (.dum, [v], c'))
      (count : v.count? = some n) (load : h.instruction? c' = some (.ldf, [.function f], k))
      (function : shape f = some (⟨n, false⟩ :: env))
      (next : Parses h shape b (⟨n, false⟩ :: env) (.dummy n :: opened) k) :
      Parses h shape b env opened c
  | rap {env opened c k v n} (instr : h.instruction? c = some (.rap, [v], k))
      (count : v.count? = some n) (next : Parses h shape b env opened k) :
      Parses h shape b (⟨n, false⟩ :: env) (.dummy n :: opened) c
  | sel {env opened c k x y} (instr : h.instruction? c = some (.sel, [x, y], k))
      (yes : Parses h shape b env (.inside .join :: opened) x)
      (no : Parses h shape b env (.inside .join :: opened) y)
      (next : Parses h shape b env opened k) : Parses h shape b env opened c
  | join {env opened c} (instr : h.instruction? c = some (.join, [], .nil)) :
      Parses h shape b env (.inside .join :: opened) c
  | tsel {env opened c x y} (instr : h.instruction? c = some (.tsel, [x, y], .nil))
      (yes : Parses h shape b env opened x) (no : Parses h shape b env opened y) :
      Parses h shape b env opened c
  | bind {env opened c k} {name : SymbolId} (instr : h.instruction? c = some (.bind, [.symbol name], k))
      (body : Parses h shape b env (.inside (.bind name) :: opened) k) :
      Parses h shape b env opened c
  | unbind {env opened c k} {name : SymbolId}
      (instr : h.instruction? c = some (.unbind, [.symbol name], k))
      (next : Parses h shape b env opened k) :
      Parses h shape b env (.inside (.bind name) :: opened) c
  | block {env opened c k name} (instr : h.instruction? c = some (.block, [name], k))
      (symbol : name.isSymbol) (body : Parses h shape b env (.inside (.block name) :: opened) k) :
      Parses h shape b env opened c
  | blockend {env opened c k name} (instr : h.instruction? c = some (.blockend, [name], k))
      (next : Parses h shape b env opened k) :
      Parses h shape b env (.inside (.block name) :: opened) c
  | tagbody {env opened c k table} {id : SymbolId} {entries : List (Value × Value)}
      (instr : h.instruction? c = some (.tagbody, [.symbol id, table], k))
      (isTable : h.Associates entries table) (tails : ∀ e ∈ entries, e.1.isTag ∧ h.Suffix e.2 k)
      (targets : ∀ e ∈ entries, Parses h shape b env (.inside (.tagbody id) :: opened) e.2)
      (body : Parses h shape b env (.inside (.tagbody id) :: opened) k) :
      Parses h shape b env opened c
  | tagend {env opened c k} {id : SymbolId} (instr : h.instruction? c = some (.tagend, [], k))
      (next : Parses h shape b env opened k) :
      Parses h shape b env (.inside (.tagbody id) :: opened) c

/-- The code of every function has its shape, and so do the frames of its calls. The frames
    around a `lambda` are those where its closure is loaded, as `Heap.Parses` says of `LDF`.
    Nothing loads a closure of what a definition has compiled: there are no frames around that,
    and so none around what a symbol stands for and what expands it. -/
structure Interpreter.WellFormed (s : Interpreter)
    (shape : FunctionId → Option (List FrameShape)) : Prop where
  shapes : ∀ f, f.index < s.image.functions.size → (shape f).isSome
  bodies : ∀ f env, shape f = some env → f.index < s.image.functions.size ∧
    (s.image.function f).Frames env ∧
    s.image.heap.Parses shape .function env [] (s.image.function f).code
  cells : ∀ id f, s.image.symbols.cell id = .function f →
    shape f = some [(s.image.function f).arity.frame]
  expanders : ∀ id f, s.image.symbols.cell id = .function f → (s.image.function f).isMacro →
    ∃ e, (s.image.function f).expander = some e ∧
      shape e = some [(s.image.function e).arity.frame]

/-! ## Code in order has a shape -/

/-- The dummy frames that are waiting for operands. -/
def Slot.openings (st : List Slot) : List Opening :=
  st.filterMap fun
    | .value => none
    | .pending n => some (.dummy n)

@[simp]
theorem Slot.openings_value (st : List Slot) : openings (.value :: st) = openings st := rfl

@[simp]
theorem Slot.openings_replicate (n : Nat) (st : List Slot) :
    openings (List.replicate n .value ++ st) = openings st := by
  simp [openings, List.filterMap_append]

/-- What code inside of constructs is in the middle of. -/
def Item.openings (ctx : List Item) : List Opening :=
  ctx.flatMap fun item => .inside item.construct :: Slot.openings item.below

namespace Layout

variable {L : Layout} {h : Heap} {shape : FunctionId → Option (List FrameShape)}

theorem IsTable.associates {entries : List (Value × Value)} {table : Value}
    (ht : L.IsTable h entries table) : h.Associates entries table := by
  induction ht with
  | nil => exact .nil
  | cons _ car _ _ _ ih => exact .cons car ih

/-- Forgetting the layout, code that may run is properly nested. -/
theorem Code.parses {b : Base} {env : List FrameShape} {st : List Slot} {ctx : List Item} {c : Value}
    (hc : L.Code h b env st ctx c) (hshape : ∀ f env, L.shape f = some env → shape f = some env) :
    h.Parses shape b env (Slot.openings st ++ Item.openings ctx) c := by
  -- Forget from the contexts all but what is open, and each instruction keeps its way of nesting.
  induction hc with
  | ldc instr visible _ ih => exact .straight (instr.instruction? rfl) visible.isProper ih
  | ld instr frame slot size inside _ ih | setl instr frame slot size inside _ ih =>
    exact .straight (instr.instruction? rfl) ⟨_, _, _, frame, slot, size, inside⟩ ih
  | ldr instr frame slot size last _ ih | setlr instr frame slot size last _ ih =>
    exact .straight (instr.instruction? rfl) ⟨_, _, _, frame, slot, size, last⟩ ih
  | ldg instr _ ih | gfn instr _ ih | setg instr _ ih =>
    exact .straight (instr.instruction? rfl) ⟨_, rfl⟩ ih
  | ldf instr function _ ih =>
    exact .straight (instr.instruction? rfl) ⟨_, _, rfl, hshape _ _ function⟩ ih
  | ap instr count _ ih | tap instr count _ _ ih =>
    rw [Slot.openings_replicate]
    exact .straight (instr.instruction? rfl) (by simp [Opcode.Takes, count]) ih
  | callp instr count _ ih =>
    rw [Slot.openings_replicate]
    exact .straight (instr.instruction? rfl) ⟨⟨_, rfl⟩, by simp [count]⟩ ih
  | pop instr _ ih => exact .straight (instr.instruction? rfl) trivial ih
  | retfrom instr symbol _ ih => exact .straight (instr.instruction? rfl) symbol ih
  | go instr _ _ isTag _ ih => exact .straight (instr.instruction? rfl) ⟨⟨_, rfl⟩, isTag⟩ ih
  | dum instr count load function _ ih =>
    exact .dum (instr.instruction? rfl) count (load.instruction? rfl) (hshape _ _ function) ih
  | rap instr count _ ih =>
    rw [Slot.openings_replicate]
    exact .rap (instr.instruction? rfl) count ih
  | sel instr _ _ _ ihyes ihno ih => exact .sel (instr.instruction? rfl) ihyes ihno ih
  | tsel instr _ _ _ _ ihyes ihno => exact .tsel (instr.instruction? rfl) ihyes ihno
  | join instr => exact .join (instr.instruction? rfl)
  | bind instr _ _ _ ih => exact .bind (instr.instruction? rfl) ih
  | unbind instr _ ih => exact .unbind (instr.instruction? rfl) ih
  | block instr symbol _ _ ih => exact .block (instr.instruction? rfl) symbol ih
  | blockend instr _ ih => exact .blockend (instr.instruction? rfl) ih
  | tagbody instr _ isTable tails _ _ _ ihtargets ih =>
    exact .tagbody (instr.instruction? rfl) isTable.associates tails ihtargets ih
  | tagend instr _ ih => exact .tagend (instr.instruction? rfl) ih
  | rtn instr | stop instr => exact .done (instr.instruction? rfl)
  | reached => exact .done rfl

end Layout

variable {L : Layout} {s s' : Interpreter}

/-- A function that programs see has only its own frame. -/
theorem Sound.shape_of_visible (hs : Sound L s) {f : FunctionId} (hf : L.Visible (.function f)) :
    L.shape f = some [(s.image.function f).arity.frame] := by
  obtain ⟨n, hn⟩ := hf
  obtain ⟨rfl, -⟩ := hs.code hn
  exact hn

/-- The functions of an interpreter in order are well formed, in shapes that its layout knows
    or, for those that no code refers to, in some shapes. -/
theorem Sound.wellFormed (hs : Sound L s) : ∃ shape, s.WellFormed shape ∧
    ∀ f env, L.shape f = some env → shape f = some env := by
  -- Functions that no value refers to have no shape in the layout. Their frames are those of their
  -- code.
  let shape (f : FunctionId) : Option (List FrameShape) :=
    if hf : f.index < s.image.functions.size then
      some ((L.shape f).getD (hs.bodies f hf).choose)
    else none
  have hshape : ∀ f env, L.shape f = some env → shape f = some env := by
    intro f env hf
    simp [shape, (hs.functions f env hf).1, hf]
  refine ⟨shape, ⟨fun f hf => by simp [shape, hf], fun f env hf => ?_, fun id f hf => ?_,
    fun id f hf hm => ?_⟩, hshape⟩
  · by_cases hlt : f.index < s.image.functions.size
    · refine ⟨hlt, ?_⟩
      cases hknown : L.shape f with
      | some env' =>
        obtain rfl : env' = env := by simpa [shape, hlt, hknown] using hf
        obtain ⟨-, frames, code⟩ := hs.functions f env' hknown
        exact ⟨frames, code.parses hshape⟩
      | none =>
        obtain rfl : _ = env := by simpa [shape, hlt, hknown] using hf
        obtain ⟨frames, code⟩ := (hs.bodies f hlt).choose_spec
        exact ⟨frames, code.parses hshape⟩
    · simp [shape, hlt] at hf
  · exact hshape _ _ (hs.shape_of_visible (hs.cells id f hf))
  · obtain ⟨e, n, he, hn⟩ := hs.macros f _ (hs.shape_of_visible (hs.cells id f hf)) hm
    exact ⟨e, he, hshape _ _ (hs.shape_of_visible ⟨n, hn⟩)⟩

/-- What is compiled is well formed. The code of a form leads on every path to the code that it
    was put in front of, whatever the environment and that code are; the code of a top-level form
    leads to its own end; and all functions that there are then, also those that were made on the
    way, return. The same holds of all the code and the functions of a session. -/
theorem compiled_parses :
    (∀ {L : Layout} {s s' : Interpreter} {scope : LexicalEnv} {b : Base} {st : List Slot}
      {ctx : List Item} {form cont code : Value} {fuel : Nat},
      Ready L s scope b (.value :: st) ctx cont → L.Visible form →
      compileFrom fuel form scope cont s = .ok code s' →
      ∃ shape, s'.WellFormed shape ∧
        s'.image.heap.Parses shape (.upTo cont) scope.shapes [] code) ∧
    (∀ {L : Layout} {s s' : Interpreter} {form code : Value} {fuel : Nat},
      Sound L s → L.Visible form → compileToplevel (compileFrom fuel) form s = .ok code s' →
      ∃ shape, s'.WellFormed shape ∧ s'.image.heap.Parses shape .toplevel [] [] code) ∧
    ∀ (config : Config) (level : LogLevel) (commands : List Command),
      ∃ shape, (Session.run .plain config level commands).interpreter.WellFormed shape ∧
        ∀ code ∈ (Session.run .plain config level commands).codes,
          (Session.run .plain config level commands).interpreter.image.heap.Parses shape
            .toplevel [] [] code := by
  refine ⟨?_, ?_, ?_⟩
  · intro L s s' scope b st ctx form cont code fuel hr hform hok
    -- The code is judged up to the continuation only, whatever that is the end of.
    have hupTo : Ready L s scope (.upTo cont) [.value] [] cont :=
      ⟨hr.sound, hr.bounded, .reached hr.code⟩
    obtain ⟨L', -, hr'⟩ := (leads_of_ok hok).1 ((compiles_and_runs fuel).1 hupTo hform)
    obtain ⟨shape, hwell, hshape⟩ := hr'.sound.wellFormed
    exact ⟨shape, hwell, hr'.code.parses hshape⟩
  · intro L s s' form code fuel hs hform hok
    obtain ⟨L', e, hcode⟩ :=
      (leads_of_ok hok).1 (safe_compileToplevel (compiles_and_runs fuel).1 hs hform)
    obtain ⟨shape, hwell, hshape⟩ := e.sound.wellFormed
    exact ⟨shape, hwell, hcode.parses hshape⟩
  · intro config level commands
    obtain ⟨L, hi⟩ := Session.idle_start config level
    obtain ⟨L', hi'⟩ := hi.performAll Engine.plain_inOrder commands
    obtain ⟨shape, hwell, hshape⟩ := hi'.orderly.sound.wellFormed
    exact ⟨shape, hwell, fun code hcode => (hi'.orderly.codes code hcode).parses hshape⟩

/-- Reads a form where the primitives of compile time are known, and gives the symbol `x` with it. -/
def readWithX (text : String) : LispM (SymbolId × Value) := do
  let x ← SymbolTable.intern "x"
  (Primitive.library.filter (·.operator.isSome)).forM fun d => do let _ ← Image.register d
  let form ← Image.readOne text
  return (x, form)

theorem safe_readWithX (hs : Sound L s) (text : String) :
    Safe Evolves L (readWithX text) s fun L' (_, form) _ => L'.Visible form := by
  refine Safe.bind (safe_intern hs "x") fun L₁ x s₁ e₁ _ => ?_
  have hregister : Safe Evolves L₁ ((Primitive.library.filter (·.operator.isSome)).forM fun d => do
      let _ ← Image.register d : LispM Unit) s₁ fun _ _ _ => True := by
    refine Safe.forM e₁.sound.evolves fun d hd L₂ s₂ e₂ => ?_
    have htakes {b : Builtin} {n : Nat} := @library_takes d (List.mem_filter.1 hd).1 b n
    refine Safe.bind (safe_register e₂.sound fun _ _ => htakes) fun L₃ _ s₃ e₃ _ => ?_
    exact Safe.pure e₃.sound.evolves trivial
  refine hregister.bind fun L₂ _ s₂ e₂ _ => ?_
  refine Safe.bind (safe_readOne e₂.sound text) fun L₃ form s₃ e₃ hform => ?_
  exact Safe.pure e₃.sound.evolves hform

/-- Constructs of many kinds around one another, and the variable `x` free. -/
def nestedText : String :=
  "(let ((y (block b (if x (return-from b 1) x)))) (tagbody s (if y (go s)))" ++
    " (letrec ((f (lambda (n &rest r) (if n r f)))) f))"

/-- A definition where there is a variable, which it does not see. -/
def definitionText : String :=
  "(let ((y 1)) (defun f (x &rest r) (block y (if x (return-from y r) x))))"

/-- The first text in front of the return of a function whose parameter is `x`, and the second one
    as a top-level form. -/
theorem compiled_parses_nested :
    Leads (readWithX nestedText) (blank {} .warn)
      (fun (x, form) s => Leads (emit .rtn [] .nil) s
        (fun rtn s₁ => Leads (compileFrom 10 form [{ names := [x] }] rtn) s₁
          (fun code s₂ => ∃ shape, s₂.WellFormed shape ∧
            s₂.image.heap.Parses shape (.upTo rtn) [⟨1, false⟩] [] code)
          fun _ _ => False)
        fun _ _ => False)
      (fun _ _ => False) ∧
    Leads (readWithX definitionText) (blank {} .warn)
      (fun (_, form) s => Leads (compileToplevel (compileFrom 10) form) s
        (fun code s₁ => ∃ shape, s₁.WellFormed shape ∧ s₁.image.heap.Parses shape .toplevel [] [] code)
        fun _ _ => False)
      fun _ _ => False := by
  constructor
  -- It compiles, by running it. What comes of it is well formed by the theorem.
  · have hok : Leads (do
        let (x, form) ← readWithX nestedText
        let rtn ← emit .rtn [] .nil
        compileFrom 10 form [{ names := [x] }] rtn) (blank {} .warn)
        (fun _ _ => True) fun _ _ => False := by decide +kernel
    rw [leads_bind] at hok
    refine (hok.and (safe_readWithX (sound_blank {} .warn) _)).mono ?_ fun _ _ h => h.1
    rintro ⟨x, form⟩ s ⟨hok, L, e, hform⟩
    rw [leads_bind] at hok
    have hframe : ({ names := [x] } : LexicalFrame).Regular s.image.heap.pairCount :=
      ⟨Nat.le_add_left _ _, by simp⟩
    refine (hok.and (safe_emitReturn e.sound ⟨Nat.zero_le _, List.forall_mem_nil _⟩ hframe)).mono ?_
      fun _ _ h => h.1
    rintro rtn s₁ ⟨hok, L₁, e₁, hr⟩
    cases hrun : compileFrom 10 form [{ names := [x] }] rtn s₁ with
    | error => exact ((leads_of_error hrun).1 hok).elim
    | ok code s₂ => exact (leads_of_ok hrun).2 (compiled_parses.1 hr (e₁.visible hform) hrun)
  · have hok : Leads (do
        let (_, form) ← readWithX definitionText
        compileToplevel (compileFrom 10) form) (blank {} .warn)
        (fun _ _ => True) fun _ _ => False := by decide +kernel
    rw [leads_bind] at hok
    refine (hok.and (safe_readWithX (sound_blank {} .warn) _)).mono ?_ fun _ _ h => h.1
    rintro ⟨x, form⟩ s ⟨hok, L, e, hform⟩
    cases hrun : compileToplevel (compileFrom 10) form s with
    | error => exact ((leads_of_error hrun).1 hok).elim
    | ok code s₁ => exact (leads_of_ok hrun).2 (compiled_parses.2.1 e.sound hform hrun)

end StackLisp
