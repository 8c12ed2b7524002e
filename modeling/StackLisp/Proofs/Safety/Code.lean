import StackLisp.Proofs.Outcome
import StackLisp.Proofs.Safety.Symbols

/-!
# Well-formed code

What the machine takes for granted about the code it runs. A *layout* tells the
pairs that programs see, the *data*, from those that the interpreter keeps to
itself: instruction streams, environments and closures, which no program can
reach and which therefore never change. It also tells how many slots each frame
has at least, in which environments each function may run, which tags each tagbody
has, and some symbols that there are.

`Layout.Code h b env st ctx c` says that the code `c` may run

* in an environment whose frames are those of functions of the shapes `env`;
* with operands `st` on top of the stack, which belong to it;
* inside the constructs `ctx`, the innermost first, up to the function (or the
  top-level form, according to `b`) that it is part of.

Each construct of `ctx` names the code that follows it, so that every path
through a block ends at one and the same place. There is one rule for each
instruction. Where a rule speaks of the code after an instruction that never
gets there (`RETFROM`, `GO`), it is because a `return-from` walks that code.

Code may also be judged up to some point only (`Base.upTo`). So it can be said of
the code of a form that it gets to the code it was put in front of: where that
does not end the function, it is even a tail of it (`Code.suffix`).
-/

namespace StackLisp

/-- The count that an operand stands for. -/
def Value.count? : Value → Option Nat
  | .int n => if 0 ≤ n then some n.toNatClampNeg else none
  | _ => none

/-- Whether a value is one for programs to see. A symbol must not be `nil` or `t`, which have
    values of their own. -/
def Value.isProper : Value → Bool
  | .op _ | .frame _ => false
  | .symbol id => id ≠ .nil && id ≠ .t
  | _ => true

/-- What can be a tag of a tagbody. -/
def Value.isTag (v : Value) : Bool := v.isSymbol || v.isInt

/-- `k` is a tail of the list `c`. -/
inductive Heap.Suffix (h : Heap) (k : Value) : Value → Prop
  | refl : Suffix h k k
  | cdr {id : PairId} (rest : Suffix h k (h.cdr id)) : Suffix h k (.pair id)

theorem Heap.Suffix.trans {h : Heap} {k c c' : Value} (hk : h.Suffix k c) (hc : h.Suffix c c') :
    h.Suffix k c' := by
  induction hc with
  | refl => exact hk
  | cdr _ ih => exact .cdr ih

/-- The frames of calls of a function: so many parameters, and perhaps a rest parameter
    behind them. -/
structure FrameShape where
  params : Nat
  rest : Bool

/-- The frames of calls that pass so many arguments. -/
def Arity.frame (a : Arity) : FrameShape := ⟨a.min, a.max.isNone⟩

/-- A place on the operand stack. -/
inductive Slot where
  /-- Any value that programs see. -/
  | value
  /-- The closure of a `letrec`, whose dummy frame of `n` slots is to be filled. -/
  | pending (n : Nat)

/-- What a piece of code is the end of. -/
inductive Base where
  | function | toplevel
  /-- Of nothing: the code leads to `next`. -/
  | upTo (next : Value)

/-- The end of a function or of a top-level form, and not of less. -/
def Base.Whole : Base → Prop
  | upTo _ => False
  | _ => True

/-- A construct that code can be inside of. -/
inductive Construct where
  | join
  | block (name : Value)
  | tagbody (id : SymbolId)
  | bind (symbol : SymbolId)

/-- A construct around a piece of code: the environment it stands in, the operands
    below it, and the code that follows it. -/
structure Item where
  construct : Construct
  env : List FrameShape
  below : List Slot
  next : Value

/-- What is known about the tables of an image. -/
structure Layout where
  /-- The pairs that programs see. -/
  data : PairId → Prop
  /-- The pairs of code, environments and closures. -/
  own : PairId → Prop
  /-- The pairs that are closures. -/
  closure : PairId → Prop
  /-- The least number of slots of a frame. -/
  slots : FrameId → Option Nat
  /-- The environment that the code of a function runs in, its own frame first. -/
  shape : FunctionId → Option (List FrameShape)
  /-- The tags of a tagbody. -/
  tags : SymbolId → Option (List Value)
  /-- Some of the symbols that there are. -/
  symbols : SymbolTable

namespace Layout

/-- Whether programs may see a value. -/
def Visible (L : Layout) : Value → Prop
  | .pair id => L.data id
  | .symbol id => id ≠ .nil ∧ id ≠ .t
  | .function f => ∃ n, L.shape f = some [n]
  | .closure id => L.closure id
  | .frame _ | .op _ => False
  | _ => True

/-- A layout that knows at least as much. -/
structure Within (L L' : Layout) : Prop where
  data : ∀ id, L.data id → L'.data id
  own : ∀ id, L.own id → L'.own id
  closure : ∀ id, L.closure id → L'.closure id
  slots : ∀ f n, L.slots f = some n → L'.slots f = some n
  shape : ∀ f env, L.shape f = some env → L'.shape f = some env
  tags : ∀ id ts, L.tags id = some ts → L'.tags id = some ts
  symbols : L.symbols.Keeps L'.symbols

theorem Within.refl (L : Layout) : L.Within L :=
  ⟨fun _ h => h, fun _ h => h, fun _ h => h, fun _ _ h => h, fun _ _ h => h, fun _ _ h => h,
    .refl _⟩

theorem Within.trans {L L' L'' : Layout} (h : L.Within L') (h' : L'.Within L'') : L.Within L'' where
  data id hd := h'.data id (h.data id hd)
  own id ho := h'.own id (h.own id ho)
  closure id hc := h'.closure id (h.closure id hc)
  slots f n hs := h'.slots f n (h.slots f n hs)
  shape f env hs := h'.shape f env (h.shape f env hs)
  tags id ts ht := h'.tags id ts (h.tags id ts ht)
  symbols := h.symbols.trans h'.symbols

theorem Visible.within {L L' : Layout} {v : Value} (hv : L.Visible v) (h : L.Within L') :
    L'.Visible v := by
  cases v with
  | pair id => exact h.data id hv
  | function f => exact hv.imp fun n hn => h.shape f [n] hn
  | closure id => exact h.closure id hv
  | symbol _ | frame _ | op _ => exact hv
  | _ => trivial

theorem visible_ofSymbol (L : Layout) (id : SymbolId) : L.Visible (.ofSymbol id) := by
  unfold Value.ofSymbol
  split
  · trivial
  · next hnil =>
    split
    · trivial
    · next ht => exact ⟨hnil, ht⟩

/-- Every symbol after the first two stands for itself. -/
theorem visible_symbol (L : Layout) (id : SymbolId) (hid : 2 ≤ id.index) :
    L.Visible (.symbol id) := by
  constructor
  · rintro rfl
    exact absurd hid (by decide)
  · rintro rfl
    exact absurd hid (by decide)

theorem Visible.op?_eq_none {L : Layout} {v : Value} (hv : L.Visible v) : v.op? = none := by
  cases v with
  | op code => exact absurd hv id
  | _ => rfl

theorem Visible.isProper {L : Layout} {v : Value} (hv : L.Visible v) : v.isProper := by
  cases v with
  | symbol id =>
    obtain ⟨hnil, ht⟩ : id ≠ .nil ∧ id ≠ .t := hv
    simp [Value.isProper, hnil, ht]
  | frame _ | op _ => exact absurd hv id
  | _ => rfl

variable (L : Layout) (h : Heap)

/-! ## Streams -/

/-- The stream `c` starts with the operands `vs`, and `k` follows. -/
inductive Operands : List Value → Value → Value → Prop
  | nil {k : Value} : Operands [] k k
  | cons {id : PairId} {vs : List Value} {k : Value} (own : L.own id)
      (plain : (h.car id).op? = none) (rest : Operands vs (h.cdr id) k) :
      Operands (h.car id :: vs) (.pair id) k

/-- The stream `c` starts with an instruction, and `k` follows. -/
inductive Instr (code : Opcode) (vs : List Value) : Value → Value → Prop
  | mk {id : PairId} {k : Value} (own : L.own id) (op : h.car id = .op code)
      (operands : Operands L h vs (h.cdr id) k) : Instr code vs (.pair id) k

/-- The stream is a return, after the ends of some blocks. -/
inductive Returns : Value → Prop
  | rtn {c k : Value} (instr : Instr L h .rtn [] c k) : Returns c
  | blockend {c k name : Value} (instr : Instr L h .blockend [name] c k) (rest : Returns k) :
      Returns c

/-- The stream is the end of a function or of a top-level form, after the ends of some
    blocks. -/
inductive Finishes : Value → Prop
  | rtn {c k : Value} (instr : Instr L h .rtn [] c k) : Finishes c
  | stop {c k : Value} (instr : Instr L h .stop [] c k) : Finishes c
  | blockend {c k name : Value} (instr : Instr L h .blockend [name] c k) (rest : Finishes k) : Finishes c

/-- All pairs of a list are the interpreter's own. -/
inductive Chain : Value → Prop
  | nil : Chain .nil
  | cons {id : PairId} (own : L.own id) (rest : Chain (h.cdr id)) : Chain (.pair id)

/-- The value is a list of frames that have the slots of the given shapes. -/
inductive IsEnv : List FrameShape → Value → Prop
  | nil : IsEnv [] .nil
  | cons {id : PairId} {f : FrameId} {n : FrameShape} {env : List FrameShape} (own : L.own id)
      (car : h.car id = .frame f) (slots : L.slots f = some n.params)
      (rest : IsEnv env (h.cdr id)) : IsEnv (n :: env) (.pair id)

/-- The association list of tags and code. -/
inductive IsTable : List (Value × Value) → Value → Prop
  | nil : IsTable [] .nil
  | cons {id entry : PairId} {entries : List (Value × Value)} (own : L.own id)
      (car : h.car id = .pair entry) (ownEntry : L.own entry) (plain : (h.car entry).op? = none)
      (rest : IsTable entries (h.cdr id)) :
      IsTable ((h.car entry, h.cdr entry) :: entries) (.pair id)

/-- A pair starts an instruction of the interpreter's own, with as many operands as it takes;
    a `TAGBODY` has a table of tags. -/
structure Starts (id : PairId) (code : Opcode) : Prop where
  own : L.own id
  operands : ∃ vs k, Operands L h vs (h.cdr id) k ∧ vs.length = code.operandCount ∧
    (code = .tagbody → ∃ tag table entries, vs = [tag, table] ∧ IsTable L h entries table)

/-- The code may run in an environment, with operands, inside constructs. -/
inductive Code : Base → List FrameShape → List Slot → List Item → Value → Prop
  | ldc {b env st ctx c k v} (instr : Instr L h .ldc [v] c k) (visible : L.Visible v)
      (next : Code b env (.value :: st) ctx k) : Code b env st ctx c
  | ld {b env st ctx c k v w i j n} (instr : Instr L h .ld [v, w] c k) (frame : v.count? = some i)
      (slot : w.count? = some j) (size : env[i]? = some n) (inside : j < n.params)
      (next : Code b env (.value :: st) ctx k) : Code b env st ctx c
  | ldr {b env st ctx c k v w i j n} (instr : Instr L h .ldr [v, w] c k) (frame : v.count? = some i)
      (slot : w.count? = some j) (size : env[i]? = some n) (last : j = n.params ∧ n.rest)
      (next : Code b env (.value :: st) ctx k) : Code b env st ctx c
  | ldg {b env st ctx c k} {name : SymbolId} (instr : Instr L h .ldg [.symbol name] c k)
      (next : Code b env (.value :: st) ctx k) : Code b env st ctx c
  | gfn {b env st ctx c k} {name : SymbolId} (instr : Instr L h .gfn [.symbol name] c k)
      (next : Code b env (.value :: st) ctx k) : Code b env st ctx c
  | setl {b env st ctx c k v w i j n} (instr : Instr L h .setl [v, w] c k)
      (frame : v.count? = some i) (slot : w.count? = some j) (size : env[i]? = some n)
      (inside : j < n.params) (next : Code b env (.value :: st) ctx k) :
      Code b env (.value :: st) ctx c
  | setlr {b env st ctx c k v w i j n} (instr : Instr L h .setlr [v, w] c k)
      (frame : v.count? = some i) (slot : w.count? = some j) (size : env[i]? = some n)
      (last : j = n.params ∧ n.rest) (next : Code b env (.value :: st) ctx k) :
      Code b env (.value :: st) ctx c
  | setg {b env st ctx c k} {name : SymbolId} (instr : Instr L h .setg [.symbol name] c k)
      (next : Code b env (.value :: st) ctx k) : Code b env (.value :: st) ctx c
  | ldf {b env st ctx c k n} {f : FunctionId} (instr : Instr L h .ldf [.function f] c k)
      (shape : L.shape f = some (n :: env)) (next : Code b env (.value :: st) ctx k) : Code b env st ctx c
  | ap {b env st ctx c k v n} (instr : Instr L h .ap [v] c k) (count : v.count? = some n)
      (next : Code b env (.value :: st) ctx k) :
      Code b env (List.replicate (n + 1) .value ++ st) ctx c
  /-- A tail call stands before a return only. -/
  | tap {b env st ctx c k v n} (instr : Instr L h .tap [v] c k) (count : v.count? = some n)
      (returns : Returns L h k) (next : Code b env (.value :: st) ctx k) :
      Code b env (List.replicate (n + 1) .value ++ st) ctx c
  /-- A dummy frame, and the closure whose call will fill it. -/
  | dum {b env st ctx c c' k v n} {f : FunctionId} (instr : Instr L h .dum [v] c c')
      (count : v.count? = some n) (load : Instr L h .ldf [.function f] c' k)
      (shape : L.shape f = some (⟨n, false⟩ :: env))
      (next : Code b (⟨n, false⟩ :: env) (.pending n :: st) ctx k) : Code b env st ctx c
  | rap {b env st ctx c k v n} (instr : Instr L h .rap [v] c k) (count : v.count? = some n)
      (next : Code b env (.value :: st) ctx k) :
      Code b (⟨n, false⟩ :: env) (List.replicate n .value ++ .pending n :: st) ctx c
  | rtn {env c} (instr : Instr L h .rtn [] c .nil) : Code .function env [.value] [] c
  | sel {b env st ctx c k x y} (instr : Instr L h .sel [x, y] c k)
      (yes : Code b env [] (⟨.join, env, st, k⟩ :: ctx) x)
      (no : Code b env [] (⟨.join, env, st, k⟩ :: ctx) y)
      (next : Code b env (.value :: st) ctx k) : Code b env (.value :: st) ctx c
  /-- A branch without code of its own to follow stands before an end only. -/
  | tsel {b env st ctx c k x y} (instr : Instr L h .tsel [x, y] c .nil) (yes : Code b env st ctx x)
      (no : Code b env st ctx y) (finishes : Finishes L h k) (next : Code b env (.value :: st) ctx k) :
      Code b env (.value :: st) ctx c
  | join {b env st ctx c next} (instr : Instr L h .join [] c .nil) :
      Code b env [.value] (⟨.join, env, st, next⟩ :: ctx) c
  | pop {b env st ctx c k} (instr : Instr L h .pop [] c k) (next : Code b env st ctx k) :
      Code b env (.value :: st) ctx c
  | callp {b env st ctx c k v n} {p : PrimitiveId} (instr : Instr L h .callp [.primitive p, v] c k)
      (count : v.count? = some n) (next : Code b env (.value :: st) ctx k) :
      Code b env (List.replicate n .value ++ st) ctx c
  | bind {b env st ctx c k next} {name : SymbolId} (instr : Instr L h .bind [.symbol name] c k)
      (special : L.symbols.isSpecial name)
      (body : Code b env [] (⟨.bind name, env, st, next⟩ :: ctx) k)
      (after : Code b env (.value :: st) ctx next) : Code b env (.value :: st) ctx c
  | unbind {b env st ctx c k} {name : SymbolId} (instr : Instr L h .unbind [.symbol name] c k)
      (next : Code b env (.value :: st) ctx k) :
      Code b env [.value] (⟨.bind name, env, st, k⟩ :: ctx) c
  | block {b env st ctx c k next name} (instr : Instr L h .block [name] c k)
      (symbol : name.isSymbol) (body : Code b env [] (⟨.block name, env, st, next⟩ :: ctx) k)
      (after : Code b env (.value :: st) ctx next) : Code b env st ctx c
  | blockend {b env st ctx c k name} (instr : Instr L h .blockend [name] c k)
      (next : Code b env (.value :: st) ctx k) :
      Code b env [.value] (⟨.block name, env, st, k⟩ :: ctx) c
  | retfrom {b env st ctx c k name} (instr : Instr L h .retfrom [name] c k)
      (symbol : name.isSymbol) (next : Code b env (.value :: st) ctx k) : Code b env (.value :: st) ctx c
  | tagbody {b env st ctx c k next table} {id : SymbolId} {entries : List (Value × Value)}
      (instr : Instr L h .tagbody [.symbol id, table] c k) (tags : L.tags id = some (entries.map (·.1)))
      (isTable : IsTable L h entries table)
      (tails : ∀ e ∈ entries, e.1.isTag ∧ h.Suffix e.2 k)
      (targets : ∀ e ∈ entries, Code b env [] (⟨.tagbody id, env, st, next⟩ :: ctx) e.2)
      (body : Code b env [] (⟨.tagbody id, env, st, next⟩ :: ctx) k)
      (after : Code b env (.value :: st) ctx next) : Code b env st ctx c
  | tagend {b env st ctx c k} {id : SymbolId} (instr : Instr L h .tagend [] c k)
      (next : Code b env (.value :: st) ctx k) :
      Code b env [] (⟨.tagbody id, env, st, k⟩ :: ctx) c
  | go {b env st ctx c k tag} {id : SymbolId} {ts : List Value}
      (instr : Instr L h .go [.symbol id, tag] c k) (tags : L.tags id = some ts) (mem : tag ∈ ts)
      (isTag : tag.isTag) (next : Code b env (.value :: st) ctx k) : Code b env st ctx c
  | stop {env c} (instr : Instr L h .stop [] c .nil) : Code .toplevel env [.value] [] c
  | reached {b env env' st ctx c} (code : Code b env' st ctx c) : Code (.upTo c) env [.value] [] c

variable {L h}

/-- Code starts with an instruction and as many operands as it has. -/
theorem Code.instr {b : Base} {env : List FrameShape} {st : List Slot} {ctx : List Item} {c : Value}
    (hc : Code L h b env st ctx c) :
    ∃ code vs k, Instr L h code vs c k ∧ vs.length = code.operandCount := by
  induction hc with
  | reached _ ih => exact ih
  | _ => exact ⟨_, _, _, by assumption, rfl⟩

theorem Code.op?_eq_none {b : Base} {env : List FrameShape} {st : List Slot} {ctx : List Item} {c : Value}
    (hc : Code L h b env st ctx c) : c.op? = none := by
  obtain ⟨_, _, _, instr, -⟩ := hc.instr
  cases instr
  rfl

theorem Operands.nil_inv {c k : Value} (ho : Operands L h [] c k) : c = k := by
  cases ho
  rfl

theorem Operands.unique {vs vs' : List Value} {c k k' : Value} (hc : Operands L h vs c k)
    (hc' : Operands L h vs' c k') (hlen : vs.length = vs'.length) : vs = vs' ∧ k = k' := by
  induction hc generalizing vs' with
  | nil =>
    cases hc' with
    | nil => exact ⟨rfl, rfl⟩
    | cons => simp at hlen
  | cons _ _ _ ih =>
    cases hc' with
    | nil => simp at hlen
    | cons _ _ rest' =>
      obtain ⟨rfl, rfl⟩ := ih rest' (by simpa using hlen)
      exact ⟨rfl, rfl⟩

/-- A stream starts with one instruction. -/
theorem Instr.op_eq {code code' : Opcode} {vs vs' : List Value} {c k k' : Value}
    (hc : Instr L h code vs c k) (hc' : Instr L h code' vs' c k') : code = code' := by
  obtain ⟨-, op, -⟩ := hc
  obtain ⟨-, op', -⟩ := hc'
  simpa using op.symm.trans op'

theorem Instr.operands_eq {code code' : Opcode} {vs vs' : List Value} {c k k' : Value}
    (hc : Instr L h code vs c k) (hc' : Instr L h code' vs' c k') (hlen : vs.length = vs'.length) :
    vs = vs' ∧ k = k' := by
  obtain ⟨-, -, operands⟩ := hc
  obtain ⟨-, -, operands'⟩ := hc'
  exact operands.unique operands' hlen

/-- What the code at a return is. -/
theorem Code.rtn_inv {b : Base} {env : List FrameShape} {st : List Slot} {ctx : List Item}
    {c k : Value} (hc : Code L h b env st ctx c) (hb : b.Whole) (instr : Instr L h .rtn [] c k) :
    b = .function ∧ st = [.value] ∧ ctx = [] := by
  cases hc
  case rtn => exact ⟨rfl, rfl, rfl⟩
  case reached => exact absurd hb id
  all_goals exact absurd (Instr.op_eq instr ‹_›) (by decide)

/-- What the code at the end of a block is. -/
theorem Code.blockend_inv {b : Base} {env : List FrameShape} {st : List Slot} {ctx : List Item}
    {c k name : Value} (hc : Code L h b env st ctx c) (hb : b.Whole)
    (instr : Instr L h .blockend [name] c k) :
    ∃ below outer, st = [.value] ∧ ctx = ⟨.block name, env, below, k⟩ :: outer ∧
      Code L h b env (.value :: below) outer k := by
  cases hc
  case blockend next instr' =>
    obtain ⟨hname, rfl⟩ := instr.operands_eq instr' rfl
    obtain rfl := List.head_eq_of_cons_eq hname
    exact ⟨_, _, rfl, rfl, next⟩
  case reached => exact absurd hb id
  all_goals exact absurd (Instr.op_eq instr ‹_›) (by decide)

/-- The code at a return is a return. -/
theorem Code.returns {b : Base} {env : List FrameShape} {st : List Slot} {ctx : List Item} {id : PairId}
    (hc : Code L h b env st ctx (.pair id)) (hop : h.car id = .op .rtn) :
    Returns L h (.pair id) := by
  obtain ⟨code, vs, k, instr, hlen⟩ := hc.instr
  obtain ⟨own, op, operands⟩ := instr
  obtain rfl : code = .rtn := by simpa [op] using hop
  obtain rfl : vs = [] := List.length_eq_zero_iff.1 hlen
  exact .rtn (.mk own op operands)

/-! ## Tails -/

theorem Returns.finishes {c : Value} (hc : Returns L h c) : Finishes L h c := by
  induction hc with
  | rtn instr => exact .rtn instr
  | blockend instr _ ih => exact .blockend instr ih

theorem Operands.suffix {vs : List Value} {c k x : Value} (hc : Operands L h vs c k)
    (hx : h.Suffix x k) : h.Suffix x c := by
  induction hc with
  | nil => exact hx
  | cons _ _ _ ih => exact .cdr (ih hx)

theorem Instr.suffix {code : Opcode} {vs : List Value} {c k x : Value}
    (hc : Instr L h code vs c k) (hx : h.Suffix x k) : h.Suffix x c := by
  obtain ⟨-, -, operands⟩ := hc
  exact .cdr (operands.suffix hx)

theorem Operands.chain {vs : List Value} {c k : Value} (hc : Operands L h vs c k)
    (hk : Chain L h k) : Chain L h c := by
  induction hc with
  | nil => exact hk
  | cons own _ _ ih => exact .cons own (ih hk)

theorem Instr.chain {code : Opcode} {vs : List Value} {c k : Value} (hc : Instr L h code vs c k)
    (hk : Chain L h k) : Chain L h c := by
  obtain ⟨own, -, operands⟩ := hc
  exact .cons own (operands.chain hk)

/-- The pairs of a stream, to its very end, are the interpreter's own. -/
theorem Code.chain {b : Base} {env : List FrameShape} {st : List Slot} {ctx : List Item}
    {c : Value} (hc : Code L h b env st ctx c) : Chain L h c := by
  induction hc with
  | dum instr _ load _ _ ih => exact instr.chain (load.chain ih)
  | bind instr _ _ _ ih | block instr _ _ _ ih => exact instr.chain ih
  | tagbody instr _ _ _ _ _ _ _ ih => exact instr.chain ih
  | sel instr _ _ _ _ _ ih => exact instr.chain ih
  | rtn instr | tsel instr | join instr | stop instr => exact instr.chain .nil
  | reached _ ih => exact ih
  | _ => exact Instr.chain ‹_› ‹_›

/-- Where code up to `next` is before an end, so is `next`. -/
theorem Finishes.of_upTo {env : List FrameShape} {st : List Slot} {ctx : List Item} {c next : Value}
    (he : Finishes L h c) (hc : Code L h (.upTo next) env st ctx c) : Finishes L h next := by
  -- Only `BLOCKEND` may stand before the end of a stream that finishes; any other instruction
  -- contradicts the one that is there.
  induction he generalizing st ctx with
  | rtn instr =>
    cases hc
    case reached => exact .rtn instr
    all_goals exact absurd (Instr.op_eq instr ‹_›) (by decide)
  | stop instr =>
    cases hc
    case reached => exact .stop instr
    all_goals exact absurd (Instr.op_eq instr ‹_›) (by decide)
  | blockend instr rest ih =>
    cases hc
    case reached => exact .blockend instr rest
    case blockend next instr' =>
      obtain ⟨-, rfl⟩ := instr.operands_eq instr' rfl
      exact ih next
    all_goals exact absurd (Instr.op_eq instr ‹_›) (by decide)

/-- Code up to a point that is not before an end has that point for a tail, unless it is
    an arm of a branch. -/
theorem Code.suffix {b : Base} {env : List FrameShape} {st : List Slot} {ctx : List Item}
    {c next : Value} (hc : Code L h b env st ctx c) (hb : b = .upTo next) (hn : ¬Finishes L h next)
    (hctx : ∀ item ∈ ctx, item.construct ≠ .join) : h.Suffix next c := by
  -- Induction on the code: each instruction is a suffix step, and a construct that is opened is not
  -- a branch.
  induction hc with
  | reached =>
    cases hb
    exact .refl
  | rtn | stop => cases hb
  | tsel _ _ _ finishes next =>
    subst hb
    exact absurd (finishes.of_upTo next) hn
  | join => exact absurd rfl (hctx _ List.mem_cons_self)
  | dum instr _ load _ _ ih => exact instr.suffix (load.suffix (ih hb hctx))
  | sel instr _ _ _ _ _ ih => exact instr.suffix (ih hb hctx)
  | bind instr _ _ _ ih | block instr _ _ _ ih =>
    exact instr.suffix (ih hb (List.forall_mem_cons.2 ⟨nofun, hctx⟩))
  | tagbody instr _ _ _ _ _ _ _ ih =>
    exact instr.suffix (ih hb (List.forall_mem_cons.2 ⟨nofun, hctx⟩))
  | unbind instr _ ih | blockend instr _ ih | tagend instr _ ih =>
    exact instr.suffix (ih hb (List.forall_mem_cons.1 hctx).2)
  | _ =>
    rename_i ih
    exact Instr.suffix ‹_› (ih hb hctx)

end Layout

end StackLisp
