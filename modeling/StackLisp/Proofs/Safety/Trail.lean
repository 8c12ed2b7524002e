import StackLisp.Proofs.Safety.Sound

/-!
# The trail of a run

Code runs inside of calls, branches, blocks, tagbodies and dynamic bindings. The
*trail* of a run lists them, the innermost first, each with the operands that lie
below it on the stack, the environment it stands in and the code that follows it.

The registers of the machine hold nothing else: the dump is the calls and the
branches of the trail, the exits are its blocks and tagbodies, the bindings are
its dynamic bindings in front of those of the runs around, and the stack is the
operands of the code that is running on top of the operands of the trail. This is
`Inside`, the invariant of the machine; `Flows` adds the code itself.

Frames that are still to be filled are found in pending closures on the stack
only, the latest on top (`Dummies`).
-/

namespace StackLisp

open Interpreter Layout

/-! ## Trails -/

/-- What a level of a trail is. -/
inductive LevelKind where
  | call
  | join
  | block (name : Value)
  | tagbody (id : SymbolId) (table : Value)
  | bind (symbol : SymbolId) (saved : Option Value)

/-- The construct that code inside of a level is in; a call hides what is around. -/
def LevelKind.construct? : LevelKind → Option Construct
  | call => none
  | join => some .join
  | block name => some (.block name)
  | tagbody id _ => some (.tagbody id)
  | bind symbol _ => some (.bind symbol)

/-- A call or a construct that is active. -/
structure Level where
  kind : LevelKind
  /-- The shapes of the frames of its environment. -/
  env : List FrameShape
  /-- The operands below it. -/
  below : List Slot
  /-- The code that follows it. -/
  next : Value
  /-- Its environment. -/
  outer : Value
  values : List Value
  /-- The frames to be filled among its operands. -/
  frames : List (FrameId × Nat)

/-- The calls and constructs that are active, the innermost first. -/
abbrev Trail := List Level

namespace Trail

/-- What the innermost code is the end of. -/
def base : Trail → Base
  | [] => .toplevel
  | l :: K =>
    match l.kind with
    | .call => .function
    | _ => base K

theorem whole_base : ∀ K : Trail, K.base.Whole
  | [] => trivial
  | l :: K => by
    cases hk : l.kind with
    | call => simp [base, hk, Base.Whole]
    | _ => simpa [base, hk] using whole_base K

/-- The constructs around the innermost code, up to its function. -/
def context : Trail → List Item
  | [] => []
  | l :: K =>
    match l.kind.construct? with
    | none => []
    | some c => ⟨c, l.env, l.below, l.next⟩ :: context K

/-- The operands below the innermost code. -/
def operands : Trail → List Value
  | [] => []
  | l :: K => l.values ++ operands K

/-- The frames to be filled. -/
def frames : Trail → List (FrameId × Nat)
  | [] => []
  | l :: K => l.frames ++ frames K

/-- The value cells that are replaced. -/
def saved : Trail → List SavedValue
  | [] => []
  | l :: K =>
    match l.kind with
    | .bind symbol v => ⟨symbol, v⟩ :: saved K
    | _ => saved K

/-- How many continuations there are. -/
def depth : Trail → Nat
  | [] => 0
  | l :: K =>
    match l.kind with
    | .call | .join => depth K + 1
    | _ => depth K

/-- The active exits, where `r` bindings belong to the runs around. -/
def exits (r : Nat) : Trail → List Exit
  | [] => []
  | l :: K =>
    match l.kind with
    | .block name => .block name (operands (l :: K)).length l.outer :: exits r K
    | .tagbody id table =>
      .tagbody (.symbol id) table l.outer (depth K) (operands (l :: K)).length
        ((saved K).length + r) :: exits r K
    | _ => exits r K

/-- The continuations. -/
def dump (r : Nat) : Trail → List DumpEntry
  | [] => []
  | l :: K =>
    match l.kind with
    | .call => .call l.outer l.next (exits r K).length :: dump r K
    | .join => .join l.next :: dump r K
    | _ => dump r K

/-- What running one instruction can do to the trail: leave levels, or enter one. -/
def Follows (K K' : Trail) : Prop := K' <:+ K ∨ ∃ l, K' = l :: K

/-- The innermost construct is the innermost level. -/
theorem context_eq_cons {K : Trail} {c : Construct} {env : List FrameShape} {below : List Slot}
    {next : Value} {ctx : List Item} (h : K.context = ⟨c, env, below, next⟩ :: ctx) :
    ∃ (l : Level) (K' : Trail), K = l :: K' ∧ l.kind.construct? = some c ∧ l.env = env ∧
      l.below = below ∧ l.next = next ∧ ctx = K'.context ∧ K.base = K'.base := by
  cases K with
  | nil => cases h
  | cons l K' =>
    cases hk : l.kind.construct? with
    | none => simp [context, hk] at h
    | some c' =>
      have hbase : base (l :: K') = base K' := by
        cases hkind : l.kind with
        | call => simp [hkind, LevelKind.construct?] at hk
        | _ => simp [base, hkind]
      simp only [context, hk, List.cons.injEq, Item.mk.injEq] at h
      obtain ⟨⟨rfl, rfl, rfl, rfl⟩, rfl⟩ := h
      exact ⟨l, K', rfl, hk, rfl, rfl, rfl, rfl, hbase⟩

/-- In a function and outside of constructs, the innermost level is a call. -/
theorem eq_call {K : Trail} (hc : K.context = []) (hb : K.base = .function) :
    ∃ (l : Level) (K' : Trail), K = l :: K' ∧ l.kind = .call := by
  cases K with
  | nil => cases hb
  | cons l K' =>
    cases hk : l.kind with
    | call => exact ⟨l, K', rfl, hk⟩
    | _ => simp [context, hk, LevelKind.construct?] at hc

/-- Outside of functions and constructs there are no levels. -/
theorem eq_nil {K : Trail} (hc : K.context = []) (hb : K.base = .toplevel) : K = [] := by
  cases K with
  | nil => rfl
  | cons l K' =>
    cases hk : l.kind with
    | call => simp [base, hk] at hb
    | _ => simp [context, hk, LevelKind.construct?] at hc

/-- The registers of a trail end in those of the trail further out. -/
theorem suffix_of_cons {α : Type} {f : Trail → List α} (hf : ∀ l K, f K <:+ f (l :: K))
    {K K' : Trail} (hs : K' <:+ K) : f K' <:+ f K := by
  obtain ⟨pre, rfl⟩ := hs
  induction pre with
  | nil => exact List.suffix_refl _
  | cons l pre ih => exact ih.trans (hf l _)

theorem exits_suffix (r : Nat) {K K' : Trail} (hs : K' <:+ K) : K'.exits r <:+ K.exits r := by
  refine suffix_of_cons (f := exits r) (fun l K => ?_) hs
  cases hk : l.kind <;> simp [exits, hk]

theorem dump_suffix (r : Nat) {K K' : Trail} (hs : K' <:+ K) : K'.dump r <:+ K.dump r := by
  refine suffix_of_cons (f := dump r) (fun l K => ?_) hs
  cases hk : l.kind <;> simp [dump, hk]

theorem saved_suffix {K K' : Trail} (hs : K' <:+ K) : K'.saved <:+ K.saved := by
  refine suffix_of_cons (f := saved) (fun l K => ?_) hs
  cases hk : l.kind <;> simp [saved, hk]

theorem operands_suffix {K K' : Trail} (hs : K' <:+ K) : K'.operands <:+ K.operands :=
  suffix_of_cons (f := operands) (fun _ _ => List.suffix_append _ _) hs

theorem frames_suffix {K K' : Trail} (hs : K' <:+ K) : K'.frames <:+ K.frames :=
  suffix_of_cons (f := frames) (fun _ _ => List.suffix_append _ _) hs

theorem length_dump (r : Nat) : ∀ K : Trail, (dump r K).length = K.depth
  | [] => rfl
  | l :: K => by
    have ih := length_dump r K
    cases hk : l.kind <;> simp [dump, depth, hk, ih]

end Trail

/-! ## Operands -/

/-- The values are operands of the given kinds, and hold the frames `fs`. -/
inductive Operate (L : Layout) (h : Heap) : List Slot → List Value → List (FrameId × Nat) → Prop
  | nil : Operate L h [] [] []
  | value {st : List Slot} {v : Value} {vs : List Value} {fs : List (FrameId × Nat)}
      (visible : L.Visible v) (rest : Operate L h st vs fs) :
      Operate L h (.value :: st) (v :: vs) fs
  | pending {st : List Slot} {id e : PairId} {vs : List Value} {fs : List (FrameId × Nat)} {n : Nat}
      {env : List FrameShape} {g : FunctionId} {f : FrameId} (own : L.own id)
      (function : h.car id = .function g) (shape : L.shape g = some (⟨n, false⟩ :: env))
      (environment : h.cdr id = .pair e) (isEnv : L.IsEnv h (⟨n, false⟩ :: env) (.pair e))
      (frame : h.car e = .frame f) (rest : Operate L h st vs fs) :
      Operate L h (.pending n :: st) (.closure id :: vs) ((f, n) :: fs)

/-- The frames are still to be filled, the latest first, and none of them is before
    position `n`. -/
structure Dummies (n : Nat) (h : Heap) (fs : List (FrameId × Nat)) : Prop where
  ordered : fs.Pairwise fun a b => b.1.index < a.1.index
  dummy : ∀ p ∈ fs, n ≤ p.1.index ∧ h.Dummy p.1 p.2

section

variable {n m : Nat} {L L' : Layout} {h h' : Heap}

theorem Operate.grows {st : List Slot} {vs : List Value} {fs : List (FrameId × Nat)}
    (ho : Operate L h st vs fs) (g : Grows n L h L' h') : Operate L' h' st vs fs := by
  induction ho with
  | nil => exact .nil
  | value visible _ ih => exact .value (visible.within g.within) ih
  | @pending st id e vs fs n env f frame own function shape environment isEnv car _ ih =>
    have howne : L.own e := by
      cases isEnv
      assumption
    refine .pending (g.within.own _ own) ?_ (g.within.shape _ _ shape) ?_ (isEnv.grows g) ?_ ih
    · rw [g.car_eq own (by rw [function]; nofun), function]
    · rw [g.cdr _ own, environment]
    · rw [g.car_eq howne (by rw [car]; nofun), car]

/-- Values that programs see. -/
theorem Operate.replicate_append_iff {k : Nat} {st : List Slot} {vs : List Value}
    {fs : List (FrameId × Nat)} :
    Operate L h (List.replicate k .value ++ st) vs fs ↔
      ∃ top rest, vs = top ++ rest ∧ top.length = k ∧ (∀ v ∈ top, L.Visible v) ∧
        Operate L h st rest fs := by
  -- The values for `k` slots are taken off one by one.
  induction k generalizing vs with
  | zero =>
    constructor
    · intro ho
      exact ⟨[], vs, rfl, rfl, by simp, ho⟩
    · rintro ⟨top, rest, rfl, hlen, -, ho⟩
      rw [List.length_eq_zero_iff] at hlen
      subst hlen
      exact ho
  | succ k ih =>
    rw [List.replicate_succ, List.cons_append]
    constructor
    · rintro (_ | ⟨visible, rest⟩)
      obtain ⟨top, rest', rfl, rfl, hv, ho⟩ := ih.1 rest
      exact ⟨_ :: top, rest', rfl, rfl, by simpa using ⟨visible, hv⟩, ho⟩
    · rintro ⟨_ | ⟨v, top⟩, rest, rfl, hlen, hv, ho⟩
      · simp at hlen
      · refine .value (hv v List.mem_cons_self) (ih.2 ⟨top, rest, rfl, ?_, ?_, ho⟩)
        · simpa using hlen
        · exact fun w hw => hv w (List.mem_cons_of_mem _ hw)

theorem Dummies.grows {fs : List (FrameId × Nat)} (hd : Dummies n h fs)
    (g : Grows h.frames.size L h L' h') : Dummies n h' fs where
  ordered := hd.ordered
  dummy p hp := ⟨(hd.dummy p hp).1, g.dummies _ _ (hd.dummy p hp).2.valid (hd.dummy p hp).2⟩

theorem Dummies.suffix {fs gs : List (FrameId × Nat)} (hd : Dummies n h fs) (hs : gs <:+ fs) :
    Dummies n h gs where
  ordered := hd.ordered.sublist hs.sublist
  dummy p hp := hd.dummy p (hs.subset hp)

end

/-! ## Trails in order -/

/-- A level is in order on top of a trail. -/
structure Level.Valid (L : Layout) (h : Heap) (l : Level) (K : Trail) : Prop where
  code : L.Code h K.base l.env (.value :: l.below) K.context l.next
  operands : Operate L h l.below l.values l.frames
  outer : L.IsEnv h l.env l.outer
  targets : ∀ id table, l.kind = .tagbody id table → ∃ entries : List (Value × Value),
    L.tags id = some (entries.map (·.1)) ∧ L.IsTable h entries table ∧
      ∀ e ∈ entries, L.Code h (Trail.base (l :: K)) l.env [] (Trail.context (l :: K)) e.2

/-- Every level of a trail is in order. -/
def Trail.Valid (L : Layout) (h : Heap) : Trail → Prop
  | [] => True
  | l :: K => l.Valid L h K ∧ Valid L h K

section

variable {n : Nat} {L L' : Layout} {h h' : Heap}

theorem Level.Valid.grows {l : Level} {K : Trail} (hl : l.Valid L h K) (g : Grows n L h L' h') :
    l.Valid L' h' K where
  code := hl.code.grows g
  operands := hl.operands.grows g
  outer := hl.outer.grows g
  targets id table hk := by
    obtain ⟨entries, htags, htable, hcode⟩ := hl.targets id table hk
    exact ⟨entries, g.within.tags _ _ htags, htable.grows g, fun e he => (hcode e he).grows g⟩

theorem Trail.Valid.grows (g : Grows n L h L' h') : ∀ {K : Trail}, K.Valid L h → K.Valid L' h'
  | [], _ => trivial
  | _ :: _, ⟨hl, hK⟩ => ⟨hl.grows g, hK.grows g⟩

theorem Trail.Valid.suffix {K K' : Trail} (hK : K.Valid L h) (hs : K' <:+ K) : K'.Valid L h := by
  obtain ⟨pre, rfl⟩ := hs
  induction pre with
  | nil => exact hK
  | cons l pre ih => exact ih hK.2

end

/-- Before a return there are only blocks between the code and its function, and no
    operands. -/
theorem Trail.Valid.returns {L : Layout} {h : Heap} {K : Trail} {env : List FrameShape} {st : List Slot}
    {c : Value} (hK : K.Valid L h) (hc : L.Code h K.base env (.value :: st) K.context c)
    (hr : L.Returns h c) :
    st = [] ∧ ∃ (l : Level) (K' : Trail), l.kind = .call ∧ l :: K' <:+ K ∧
      K.operands = Trail.operands (l :: K') ∧ K.frames = Trail.frames (l :: K') ∧ K.saved = Trail.saved (l :: K') ∧
      ∀ r, K.dump r = Trail.dump r (l :: K') := by
  -- The code leads out of blocks, which have no values of their own below them, and then returns.
  induction hr generalizing K env st with
  | rtn instr =>
    obtain ⟨hb, hst, hctx⟩ := hc.rtn_inv K.whole_base instr
    obtain ⟨l, K', rfl, hl⟩ := Trail.eq_call hctx hb
    exact ⟨by simpa using hst, l, K', hl, List.suffix_refl _, rfl, rfl, rfl, fun _ => rfl⟩
  | @blockend c k name instr _ ih =>
    obtain ⟨below, outer, hst, hctx, hnext⟩ := hc.blockend_inv K.whole_base instr
    obtain ⟨l, K', rfl, hl, -, rfl, -, rfl, hb⟩ := Trail.context_eq_cons hctx
    rw [hb] at hnext
    obtain ⟨hbelow, l', K'', hl', hs, ho, hf, hsaved, hd⟩ := ih hK.2 hnext
    have hop := hK.1.operands
    rw [hbelow] at hop
    obtain ⟨hvs, hfs⟩ : l.values = [] ∧ l.frames = [] := by
      generalize l.values = vs, l.frames = fs at hop
      cases hop
      exact ⟨rfl, rfl⟩
    cases hk : l.kind <;> simp [hk, LevelKind.construct?] at hl
    refine ⟨by simpa using hst, l', K'', hl', hs.trans (List.suffix_cons _ _), ?_, ?_, ?_, ?_⟩
    · simpa [Trail.operands, hvs] using ho
    · simpa [Trail.frames, hfs] using hf
    · simpa [Trail.saved, hk] using hsaved
    · simpa [Trail.dump, hk] using hd

/-! ## The machine on a trail -/

/-- The machine is at the end of a trail, in an environment of frames of the shapes
    `env` and with the operands `st`. The bindings of the runs around are `rest`, and
    their frames are before position `n`. -/
structure Inside (n : Nat) (L : Layout) (rest : List SavedValue) (K : Trail) (env : List FrameShape)
    (st : List Slot) (s : Interpreter) : Prop where
  sound : Sound L s
  around : n ≤ s.image.heap.frames.size
  valid : K.Valid L s.image.heap
  isEnv : L.IsEnv s.image.heap env s.machine.env
  operands : ∃ vs fs, Operate L s.image.heap st vs fs ∧
    s.machine.stack.items = vs ++ K.operands ∧ Dummies n s.image.heap (fs ++ K.frames)
  dump : s.machine.dump.items = K.dump rest.length
  exits : s.machine.exits.items = K.exits rest.length
  bindings : s.machine.bindings.items = K.saved ++ rest

/-- A dummy frame of `m` slots has been made, and the closure over it comes next. -/
structure Loading (n : Nat) (L : Layout) (rest : List SavedValue) (K : Trail) (env : List FrameShape)
    (st : List Slot) (m : Nat) (s : Interpreter) : Prop where
  inside : Inside n L rest K (⟨m, false⟩ :: env) st s
  pending : ∃ e f vs fs, s.machine.env = .pair e ∧ s.image.heap.car e = .frame f ∧
    Operate L s.image.heap st vs fs ∧ s.machine.stack.items = vs ++ K.operands ∧
    Dummies n s.image.heap ((f, m) :: (fs ++ K.frames))

/-- What comes after an instruction that leaves one value on top of the operands
    `st`. -/
def Yields (n : Nat) (L : Layout) (rest : List SavedValue) (K : Trail) (env : List FrameShape)
    (st : List Slot) : Flow → Interpreter → Prop
  | .next, s => Inside n L rest K env (.value :: st) s
  | .stop, _ => False
  | .request (.call argc mode), s =>
    Inside n L rest K env (List.replicate (argc + 1) .value ++ st) s ∧
      (mode = .tail → L.Returns s.image.heap s.machine.control)
  | .request (.returnFrom _ v), s => L.Visible v ∧ Inside n L rest K env st s
  | .request (.macroexpandOnce form), s | .request (.macroexpand form), s
  | .request (.eval form), s => L.Visible form ∧ Inside n L rest K env st s

/-- The machine is about to run the code `c`, which is in order. -/
inductive Runs (n : Nat) (L : Layout) (rest : List SavedValue) (K : Trail) (c : Value)
    (s : Interpreter) : Prop
  | code {env : List FrameShape} {st : List Slot} (inside : Inside n L rest K env st s)
      (code : L.Code s.image.heap K.base env st K.context c)
  | load {env : List FrameShape} {st : List Slot} {m : Nat} {f : FunctionId} {k : Value}
      (loading : Loading n L rest K env st m s) (instr : L.Instr s.image.heap .ldf [.function f] c k)
      (shape : L.shape f = some (⟨m, false⟩ :: env))
      (next : L.Code s.image.heap K.base (⟨m, false⟩ :: env) (.pending m :: st) K.context k)

/-- The states that a run goes through. -/
def Flows (n : Nat) (L : Layout) (rest : List SavedValue) (K : Trail) :
    Flow → Interpreter → Prop
  | .next, s => Runs n L rest K s.machine.control s
  | .stop, s => ∃ env, K = [] ∧ s.machine.control = .nil ∧ Inside n L rest [] env [.value] s
  | .request r, s => ∃ env st, Yields n L rest K env st (.request r) s ∧
    L.Code s.image.heap K.base env (.value :: st) K.context s.machine.control

/-- The run goes on, on the trail or a level further in. -/
def Continues (n : Nat) (rest : List SavedValue) (K : Trail) (L : Layout) (flow : Flow)
    (s : Interpreter) : Prop :=
  ∃ K', K.Follows K' ∧ Flows n L rest K' flow s

/-- The interpreter has changed in an orderly way, its registers included; the bindings
    of the runs around are still there. -/
structure Goes (n : Nat) (rest : List SavedValue) (L : Layout) (s : Interpreter) (L' : Layout)
    (s' : Interpreter) : Prop where
  grows : Grows n L s.image.heap L' s'.image.heap
  sound : Sound L' s'
  history : History L s.image → History L' s'.image
  bindings : rest <:+ s'.machine.bindings.items

instance {n : Nat} {rest : List SavedValue} : Evolution (Goes n rest) where
  refl g := ⟨.refl n _ _, g.sound, id, g.bindings⟩
  trans g g' := ⟨g.grows.trans g'.grows, g'.sound, g'.history ∘ g.history, g'.bindings⟩

end StackLisp
