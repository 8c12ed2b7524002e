import StackLisp.Proofs.Actions.Steady
import StackLisp.Proofs.Text.Template

/-!
# Backquote is substitution

What a template is read as, when it is evaluated, gives the template with every `,x` replaced
by the value of `x`, and every `,@x` by the elements of the value of `x`
(`expandBackquote_substitutes`).

The evaluator knows `quote` and calls of the primitives `list`, `cons` and `append`
(`evaluateFrom`), and leaves everything else to a parameter. The forms after commas may do
whatever they like but change a pair: `GivesValues` says of them, one after the other, that they
come to a value, which is a proper list where it is spliced. They are evaluated from left to
right, each once (`InTurn`), with nothing done in between but that pairs are made. Then the
value of the whole is the template filled with their values (`Template.Fills`).
-/

namespace StackLisp

open Interpreter

/-! ## Evaluation -/

/-- How a form is evaluated. -/
inductive Evaluation where
  /-- It has a value of its own. -/
  | constant (v : Value)
  /-- A primitive is called with the values of some forms. -/
  | call (b : Builtin) (forms : List Value)
  /-- In some other way. -/
  | other
deriving DecidableEq

namespace Evaluation

/-- The primitive that is called by the name of a symbol. -/
def primitive? (head : SymbolId) (argc : Nat) : Option Builtin :=
  if head = .list then some .list
  else if head = .append then some .append
  else if head = .cons ∧ argc = 2 then some .cons
  else none

/-- How a call is evaluated. -/
def ofCall (head : SymbolId) (forms : List Value) : Evaluation :=
  if head = .quote ∧ forms.length = 1 then .constant (forms.headD .nil)
  else
    match primitive? head forms.length with
    | some b => .call b forms
    | none => .other

/-- How a form is evaluated, by what it is on the heap. -/
def of (h : Heap) : Value → Evaluation
  | .symbol _ => .other
  | .pair id =>
    match h.car id, h.elements? (h.cdr id) with
    | .symbol head, .ok (some forms) => ofCall head forms
    | _, _ => .other
  | v => .constant v

/-- An atom that is no variable has itself for its value. -/
theorem of_atom {h : Heap} {v : Value} (atom : v.isAtom = true) (unequal : ∀ id, v ≠ .symbol id) :
    of h v = .constant v := by
  cases v with
  | symbol id => exact absurd rfl (unequal id)
  | pair => cases atom
  | _ => rfl

/-- A list that begins with a symbol is a call. -/
theorem of_call {h : Heap} {f : Value} {head : SymbolId} {forms : List Value}
    (hf : h.Line .nil (.symbol head :: forms) f) : of h f = ofCall head forms := by
  obtain ⟨id, rfl, -, hcar, hcdr⟩ := hf.cons_inv
  simp only [of, hcar, hcdr.elements?]

end Evaluation

/-- Calls a primitive. -/
def callBuiltin (b : Builtin) (args : List Value) : LispM Value := do
  Machine.pushMany args
  let _ ← Machine.runBuiltin b args.length
  Machine.pop

/-- Evaluates a form nested at most as deep as the bound says. `other` evaluates symbols, and
    all forms but constants and calls of the primitives known here. -/
def evaluateFrom (other : Value → LispM Value) : Nat → Value → LispM Value
  | 0, _ => throw .endless
  | fuel + 1, f => do
    match ← asks (Evaluation.of ·.heap f) with
    | .constant v => return v
    | .call b forms => callBuiltin b (← forms.mapM (evaluateFrom other fuel))
    | .other => other f

/-- From the first interpreter on, pairs have been made and nothing else has been done. -/
def Interpreter.Conses (s s' : Interpreter) : Prop :=
  ∃ h, s.image.heap.Extended h ∧ s' = { s with image.heap := h }

namespace Interpreter.Conses

variable {s s' s'' : Interpreter}

theorem refl (s : Interpreter) : s.Conses s := ⟨s.image.heap, .refl _, rfl⟩

/-- Pairs that are made twice are made. -/
theorem trans (hs : s.Conses s') (hs' : s'.Conses s'') : s.Conses s'' := by
  obtain ⟨h, he, rfl⟩ := hs
  obtain ⟨h', he', rfl⟩ := hs'
  exact ⟨h', he.trans he', rfl⟩

/-- The pairs that there were are still there. -/
theorem extended (hs : s.Conses s') : s.image.heap.Extended s'.image.heap := by
  obtain ⟨h, he, rfl⟩ := hs
  exact he

end Interpreter.Conses

section

variable {s : Interpreter} {v w last : Value} {vs : List Value}

/-- What is pushed is popped again in the same order. -/
theorem popMany_pushMany (vs : List Value) (s : Interpreter) :
    Machine.popMany vs.length { s with machine.stack := s.machine.stack.pushMany vs } = .ok vs s := by
  simp only [Machine.popMany, Stack.popMany?_pushMany]

/-- A primitive that makes its result from its arguments leaves the stack as it was. -/
theorem leads_callBuiltin {b : Builtin} {x : HeapM Value} {P : Value → Heap → Prop}
    (hb : Machine.runBuiltin b vs.length { s with machine.stack := s.machine.stack.pushMany vs } =
      (liftM x >>= Machine.done : LispM Flow) s)
    (hx : s.image.heap.Makes x P) :
    Leads (callBuiltin b vs) s (fun v s' => s.Conses s' ∧ P v s'.image.heap)
      fun e _ => e = .error .heapOverflow := by
  unfold callBuiltin
  rw [leads_bind, leads_pushMany, leads_bind, Leads, hb]
  change Leads (liftM x >>= Machine.done : LispM Flow) s _ _
  rw [leads_bind, leads_heap]
  refine hx.mono (fun v h hv => ?_) fun _ _ he => he
  have hpop : Machine.pop { s with machine.stack := s.machine.stack.push v, image.heap := h } =
      .ok v { s with image.heap := h } := by
    simp only [Machine.pop, Stack.pop?_push]
  rw [Machine.done, leads_bind, leads_push, leads_pure, leads_of_ok hpop]
  exact ⟨⟨h, hv.1, rfl⟩, hv.2⟩

/-- The primitive `list` gives a list of its arguments. -/
theorem leads_callList (vs : List Value) : Leads (callBuiltin .list vs) s
    (fun v s' => s.Conses s' ∧ s'.image.heap.Line .nil vs v) fun e _ => e = .error .heapOverflow := by
  refine leads_callBuiltin ?_ (Heap.makes_listWithTail vs .nil s.image.heap)
  simp only [Machine.runBuiltin, bind, EStateM.bind, popMany_pushMany]
  rfl

/-- The primitive `cons` puts one value in front of another. -/
theorem leads_callCons (v w : Value) : Leads (callBuiltin .cons [v, w]) s
    (fun x s' => s.Conses s' ∧ s'.image.heap.Line w [v] x) fun e _ => e = .error .heapOverflow := by
  refine leads_callBuiltin ?_ (Heap.makes_cons .nil v)
  rfl

/-- The primitive `append`, called with two arguments, copies the first in front of the second. -/
theorem leads_callAppend (hv : s.image.heap.Line .nil vs v) : Leads (callBuiltin .append [v, w]) s
    (fun x s' => s.Conses s' ∧ s'.image.heap.Line w vs x) fun e _ => e = .error .heapOverflow := by
  refine leads_callBuiltin ?_ (Heap.makes_listWithTail vs w s.image.heap)
  have hlist : Machine.listArg "append" v s = .ok vs s := by
    simp only [Machine.listArg, elements?, walk, bind, EStateM.bind, hv.elements?]
    rfl
  simp only [Machine.runBuiltin, bind, EStateM.bind, popMany_pushMany]
  simp only [Machine.appendLists, List.dropLast, List.getLastD, List.foldrM_cons, List.foldrM_nil,
    bind, EStateM.bind, pure, EStateM.pure, hlist]
  rfl

end

/-! ## Filled templates -/

/-- The value is the template, with the forms replaced by these values, or by the elements of
    these values. -/
inductive Template.Fills (h : Heap) : Template → List Value → Value → Prop
  | atom {v : Value} : Fills h (.atom v) [] v
  | unquote {x v : Value} : Fills h (.unquote x) [v] v
  | cons {a d : Template} {vs ws : List Value} {id : PairId} (valid : id.index < h.pairCount)
      (head : Fills h a vs (h.car id)) (tail : Fills h d ws (h.cdr id)) :
      Fills h (.cons a d) (vs ++ ws) (.pair id)
  | splice {x v w result : Value} {d : Template} {items ws : List Value}
      (value : h.Line .nil items v) (front : h.Line w items result) (tail : Fills h d ws w) :
      Fills h (.splice x d) (v :: ws) result

/-- A filled template stays one when pairs are made. -/
theorem Template.Fills.extended {h h' : Heap} {T : Template} {vs : List Value} {w : Value}
    (he : h.Extended h') (hw : T.Fills h vs w) : T.Fills h' vs w := by
  induction hw with
  | atom => exact .atom
  | unquote => exact .unquote
  | cons valid _ _ ihead itail =>
    rw [← he.car _ valid] at ihead
    rw [← he.cdr _ valid] at itail
    exact .cons (valid.trans_le he.pairCount) ihead itail
  | splice value front _ itail => exact .splice (value.extended he) (front.extended he) itail

section

variable {other : Value → LispM Value} {n fuel : Nat} {E : Failure → Prop}

/-- The forms are evaluated one after the other to these values, and nothing is done in
    between but that pairs are made. -/
inductive InTurn (other : Value → LispM Value) : List Segment → List Value → Interpreter →
    Interpreter → Prop
  | nil {s s' : Interpreter} (conses : s.Conses s') : InTurn other [] [] s s'
  | cons {use : Segment} {uses : List Segment} {v : Value} {vs : List Value} {fuel : Nat}
      {s s₁ s₂ s' : Interpreter} (conses : s.Conses s₁)
      (value : evaluateFrom other fuel use.form s₁ = .ok v s₂) (rest : InTurn other uses vs s₂ s') :
      InTurn other (use :: uses) (v :: vs) s s'

/-- Whatever pairs are made in between, the forms come to their values one after the other,
    given `n` nested calls or more, or fail in `E`. They leave the pairs that there are alone,
    and where its elements are used, a value is a proper list. -/
def GivesValues (other : Value → LispM Value) (n : Nat) (E : Failure → Prop) :
    List Segment → Interpreter → Prop
  | [], _ => True
  | use :: uses, s => ∀ s₁, s.Conses s₁ → ∀ m ≥ n, Leads (evaluateFrom other m use.form) s₁
      (fun v s₂ => s₁.image.heap.Extended s₂.image.heap ∧
        (use.isItem = false → ∃ items, s₂.image.heap.Line .nil items v) ∧
        GivesValues other n E uses s₂)
      fun e _ => E e

namespace InTurn

variable {uses uses' : List Segment} {vs ws : List Value} {s s' s'' : Interpreter}

/-- Pairs may be made before the first form is evaluated. -/
theorem before (hs : s.Conses s') (hvs : InTurn other uses vs s' s'') :
    InTurn other uses vs s s'' := by
  cases hvs with
  | nil conses => exact .nil (hs.trans conses)
  | cons conses value rest => exact .cons (hs.trans conses) value rest

/-- Forms in turn, and then others. -/
theorem append (hvs : InTurn other uses vs s s') (hws : InTurn other uses' ws s' s'') :
    InTurn other (uses ++ uses') (vs ++ ws) s s'' := by
  induction hvs with
  | nil conses => exact hws.before conses
  | cons conses value _ ih => exact .cons conses value (ih hws)

/-- Pairs may be made after the last form. -/
theorem after (hvs : InTurn other uses vs s s') (hs : s'.Conses s'') :
    InTurn other uses vs s s'' := by
  simpa using hvs.append (.nil hs)

end InTurn

/-- What is said of the forms is said of them whatever pairs are made before. -/
theorem GivesValues.conses {uses : List Segment} {s s' : Interpreter}
    (hp : GivesValues other n E uses s) (hs : s.Conses s') : GivesValues other n E uses s' := by
  cases uses with
  | nil => trivial
  | cons use uses => exact fun s₁ hs₁ => hp s₁ (hs.trans hs₁)

/-! ## Evaluation of what is read -/

/-- Evaluating the form fills the template with the values of the forms in it, after which the
    forms of `rest` give values. -/
abbrev Substitutes (other : Value → LispM Value) (n : Nat) (E : Failure → Prop)
    (rest : List Segment) (T : Template) (x : LispM Value) (s : Interpreter) : Prop :=
  Leads x s
    (fun w s' => s.image.heap.Extended s'.image.heap ∧
      ∃ vs, InTurn other T.uses vs s s' ∧ T.Fills s'.image.heap vs w ∧ GivesValues other n E rest s')
    fun e _ => E e

/-- A template has a size, so its form is evaluated with fuel left. -/
theorem Template.size_pos : ∀ T : Template, 0 < T.size
  | atom _ | unquote _ => Nat.one_pos
  | cons _ _ | splice _ _ => Nat.succ_pos _

variable {h : Heap}

theorem evaluateFrom_succ (f : Value) (s : Interpreter) : evaluateFrom other (fuel + 1) f s =
    (match Evaluation.of s.image.heap f with
    | .constant v => pure v
    | .call b forms => do callBuiltin b (← forms.mapM (evaluateFrom other fuel))
    | .other => other f : LispM Value) s := rfl

/-- Enough fuel for a template is enough for one step. -/
theorem exists_succ (T : Template) (hfuel : n + T.size ≤ fuel) : ∃ k, fuel = k + 1 :=
  ⟨fuel - 1, by have := T.size_pos; omega⟩

/-- What a call of a primitive comes to, given what its arguments come to. -/
theorem leads_evaluate_call {f : Value} {head : SymbolId} {forms : List Value} {b : Builtin}
    {s : Interpreter} {P : List Value → Interpreter → Prop} {Q : Value → Interpreter → Prop}
    (hE : E (.error .heapOverflow)) (call : s.image.heap.Line .nil (.symbol head :: forms) f)
    (hb : Evaluation.ofCall head forms = .call b forms)
    (hforms : Leads (forms.mapM (evaluateFrom other fuel)) s P fun e _ => E e)
    (hcall : ∀ vs s', P vs s' → Leads (callBuiltin b vs) s' Q fun e _ => e = .error .heapOverflow) :
    Leads (evaluateFrom other (fuel + 1) f) s Q fun e _ => E e := by
  rw [Leads, evaluateFrom_succ, Evaluation.of_call call, hb]
  change Leads (forms.mapM (evaluateFrom other fuel) >>= callBuiltin b) s Q _
  rw [leads_bind]
  exact hforms.mono (fun vs s' hvs => (hcall vs s' hvs).mono (fun _ _ hv => hv)
    fun _ _ he => he ▸ hE) fun _ _ he => he

/-- A form that is to be evaluated next. -/
theorem GivesValues.next {use : Segment} {uses : List Segment} {s : Interpreter}
    (hp : GivesValues other n E (use :: uses) s) (hfuel : n ≤ fuel) :
    Leads (evaluateFrom other fuel use.form) s
      (fun v s' => s.image.heap.Extended s'.image.heap ∧
        evaluateFrom other fuel use.form s = .ok v s' ∧
        (use.isItem = false → ∃ items, s'.image.heap.Line .nil items v) ∧ GivesValues other n E uses s')
      fun e _ => E e := by
  have hnext := hp s (.refl s) fuel hfuel
  unfold Leads at *
  split at hnext
  · next heq => exact ⟨hnext.1, heq, hnext.2⟩
  · exact hnext

/-- The end of a list that needs no form to construct it fills itself. -/
theorem Substitutes.nil {T : Template} {rest : List Segment} {s : Interpreter}
    (h : Substitutes other n E rest T (evaluateFrom other (fuel + 1) .nil) s) :
    ∃ vs, InTurn other T.uses vs s s ∧ T.Fills s.image.heap vs .nil ∧ GivesValues other n E rest s :=
  h.2

mutual

/-- By recursion on how the form constructs the template. The forms that are still to be evaluated
    are handed along as `rest`, as evaluating those before them may change what they do. -/
theorem Constructs.substitutes (hE : E (.error .heapOverflow)) :
    ∀ {f : Value} {T : Template}, Constructs h f T → ∀ {fuel : Nat} {rest : List Segment}
      {s : Interpreter}, h.Extended s.image.heap → GivesValues other n E (T.uses ++ rest) s →
      n + T.size ≤ fuel → Substitutes other n E rest T (evaluateFrom other fuel f) s
  -- The recursion is on how the form has been constructed, in step with the template.
  | _, _, .self atom unequal, fuel, rest, s, he, hp, hfuel => by
    obtain ⟨fuel, rfl⟩ := exists_succ _ hfuel
    rw [Substitutes, Leads, evaluateFrom_succ, Evaluation.of_atom atom unequal]
    exact ⟨.refl _, [], .nil (.refl s), .atom, hp⟩
  | _, _, @Constructs.quoted _ _ id call, fuel, rest, s, he, hp, hfuel => by
    obtain ⟨fuel, rfl⟩ := exists_succ _ hfuel
    have hconstant : Evaluation.ofCall .quote [.symbol id] = .constant (.symbol id) := rfl
    rw [Substitutes, Leads, evaluateFrom_succ, Evaluation.of_call (call.extended he), hconstant]
    exact ⟨.refl _, [], .nil (.refl s), .atom, hp⟩
  -- Here the value of a use is taken: it is the next one in turn.
  | _, _, .unquoted, fuel, rest, s, he, hp, hfuel => by
    refine (hp.next (by omega)).mono ?_ fun _ _ he => he
    rintro v s' ⟨he', heq, -, hp'⟩
    exact ⟨he', [v], .cons (.refl s) heq (.nil (.refl s')), .unquote, hp'⟩
  -- The items are evaluated in order, and a list of what they give takes their place.
  | _, _, .list call each, fuel, rest, s, he, hp, hfuel => by
    obtain ⟨fuel, rfl⟩ := exists_succ _ hfuel
    refine leads_evaluate_call hE (call.extended he) rfl (each.substitutes hE he hp hfuel) ?_
    rintro ws s' ⟨he', vs, hvs, hp', hfills⟩
    refine (leads_callList ws).mono ?_ fun _ _ he => he
    rintro w s'' ⟨hs, hline⟩
    exact ⟨he'.trans hs.extended, vs, hvs.after hs, hfills _ _ hs.extended hline, hp'.conses hs⟩
  | _, _, .cons (x := x) (y := y) (a := a) (d := d) call head tail, fuel, rest, s, he, hp, hfuel => by
    obtain ⟨fuel, rfl⟩ := exists_succ _ hfuel
    rw [Template.size] at hfuel
    rw [Template.uses, List.append_assoc] at hp
    -- First the head and then the tail, each with its own uses.
    have hforms : Leads (List.mapM (evaluateFrom other fuel) [x, y]) s
        (fun args s' => s.image.heap.Extended s'.image.heap ∧ ∃ v w vs ws, args = [v, w] ∧
          InTurn other (a.uses ++ d.uses) (vs ++ ws) s s' ∧ a.Fills s'.image.heap vs v ∧
          d.Fills s'.image.heap ws w ∧ GivesValues other n E rest s') fun e _ => E e := by
      rw [List.mapM_cons, leads_bind]
      refine (head.substitutes hE he hp (by omega)).mono ?_ fun _ _ he => he
      rintro v s₁ ⟨he₁, vs, hvs, hv, hp₁⟩
      rw [List.mapM_cons, leads_bind, leads_bind]
      refine (tail.substitutes hE (he.trans he₁) hp₁ (by omega)).mono ?_ fun _ _ he => he
      rintro w s₂ ⟨he₂, ws, hws, hw, hp₂⟩
      exact ⟨he₁.trans he₂, v, w, vs, ws, rfl, hvs.append hws, hv.extended he₂, hw, hp₂⟩
    refine leads_evaluate_call hE (call.extended he) rfl hforms ?_
    rintro _ s' ⟨he', v, w, vs, ws, rfl, hturn, hv, hw, hp'⟩
    refine (leads_callCons v w).mono ?_ fun _ _ he => he
    rintro x s'' ⟨hs, hline⟩
    obtain ⟨id, rfl, valid, rfl, hcdr⟩ := hline.cons_inv
    rw [← hcdr.nil_inv] at hw
    exact ⟨he'.trans hs.extended, vs ++ ws, hturn.after hs,
      .cons valid (hv.extended hs.extended) (hw.extended hs.extended), hp'.conses hs⟩
  | _, _, .append (x := x) (y := y) (d := d) call tail, fuel, rest, s, he, hp, hfuel => by
    obtain ⟨fuel, rfl⟩ := exists_succ _ hfuel
    rw [Template.size] at hfuel
    -- First the value to be spliced, which is a list, and then the rest.
    have hforms : Leads (List.mapM (evaluateFrom other fuel) [x, y]) s
        (fun args s' => s.image.heap.Extended s'.image.heap ∧ ∃ v w items ws, args = [v, w] ∧
          InTurn other (.splice x :: d.uses) (v :: ws) s s' ∧ s'.image.heap.Line .nil items v ∧
          d.Fills s'.image.heap ws w ∧ GivesValues other n E rest s') fun e _ => E e := by
      rw [List.mapM_cons, leads_bind]
      refine (hp.next (by omega)).mono ?_ fun _ _ he => he
      rintro v s₁ ⟨he₁, heq, hlist, hp₁⟩
      obtain ⟨items, hitems⟩ := hlist rfl
      rw [List.mapM_cons, leads_bind, leads_bind]
      refine (tail.substitutes hE (he.trans he₁) hp₁ (by omega)).mono ?_ fun _ _ he => he
      rintro w s₂ ⟨he₂, ws, hws, hw, hp₂⟩
      exact ⟨he₁.trans he₂, v, w, items, ws, rfl, .cons (.refl s) heq hws, hitems.extended he₂, hw, hp₂⟩
    refine leads_evaluate_call hE (call.extended he) rfl hforms ?_
    rintro _ s' ⟨he', v, w, items, ws, rfl, hturn, hitems, hw, hp'⟩
    refine (leads_callAppend hitems).mono ?_ fun _ _ he => he
    rintro x s'' ⟨hs, hline⟩
    exact ⟨he'.trans hs.extended, v :: ws, hturn.after hs,
      .splice (hitems.extended hs.extended) hline (hw.extended hs.extended), hp'.conses hs⟩
  -- A splice in the last place is the tail itself, and is not copied.
  | _, _, .last (d := d) tail, fuel, rest, s, he, hp, hfuel => by
    obtain ⟨fuel, rfl⟩ := exists_succ _ hfuel
    rw [Template.size] at hfuel
    refine (hp.next (by omega)).mono ?_ fun _ _ he => he
    rintro v s₁ ⟨he₁, heq, hlist, hp₁⟩
    obtain ⟨items, hitems⟩ := hlist rfl
    have htail : Substitutes other n E rest d (evaluateFrom other (fuel + 1) .nil) s₁ :=
      tail.substitutes hE (he.trans he₁) hp₁ (by omega)
    obtain ⟨vs, hvs, hfills, hp₂⟩ := htail.nil
    exact ⟨he₁, v :: vs, .cons (.refl s) heq hvs, .splice hitems hitems hfills, hp₂⟩

/-- The arguments of a call are evaluated from left to right. -/
theorem ConstructsItems.substitutes (hE : E (.error .heapOverflow)) :
    ∀ {items : List Value} {T : Template}, ConstructsItems h items T → ∀ {fuel : Nat}
      {rest : List Segment} {s : Interpreter}, h.Extended s.image.heap →
      GivesValues other n E (T.uses ++ rest) s → n + T.size ≤ fuel + 1 →
      Leads (items.mapM (evaluateFrom other fuel)) s
        (fun ws s' => s.image.heap.Extended s'.image.heap ∧
          ∃ vs, InTurn other T.uses vs s s' ∧ GivesValues other n E rest s' ∧
            ∀ h' w, s'.image.heap.Extended h' → h'.Line .nil ws w → T.Fills h' vs w)
        fun e _ => E e
  | _, _, .nil tail, fuel, rest, s, he, hp, hfuel => by
    obtain ⟨vs, hvs, hfills, hp'⟩ := (tail.substitutes hE he hp hfuel).nil
    refine ⟨.refl _, vs, hvs, hp', fun h' w he' hw => ?_⟩
    rw [hw.nil_inv]
    exact hfills.extended he'
  -- The values of the head come first, then those of the rest, and the line holds both.
  | _, _, .cons head tail, fuel, rest, s, he, hp, hfuel => by
    rw [Template.size] at hfuel
    rw [Template.uses, List.append_assoc] at hp
    rw [List.mapM_cons, leads_bind]
    refine (head.substitutes hE he hp (by omega)).mono ?_ fun _ _ he => he
    rintro v s₁ ⟨he₁, vs, hvs, hv, hp₁⟩
    rw [leads_bind]
    refine (tail.substitutes hE (he.trans he₁) hp₁ (by omega)).mono ?_ fun _ _ he => he
    rintro values s₂ ⟨he₂, ws, hws, hp₂, hfills⟩
    refine ⟨he₁.trans he₂, vs ++ ws, hvs.append hws, hp₂, fun h' w he' hw => ?_⟩
    obtain ⟨id, rfl, valid, rfl, hcdr⟩ := hw.cons_inv
    exact .cons valid (hv.extended (he₂.trans he')) (hfills h' _ he' hcdr)

end

end

/-! ## A template with an element and a splice -/

namespace Template

/-- The symbols `nil`, `t`, `unquote`, `unquote-splicing`, `x` and `y`. -/
def sampleSymbols : SymbolTable where
  symbols := #["nil", "t", "unquote", "unquote-splicing", "x", "y"].map fun name => { name }

/-- The pairs of `(,x ,@y)` and of the list of `2`. -/
def sampleHeap : Heap :=
  [(.symbol ⟨4⟩, .nil), (.symbol ⟨2⟩, .pair ⟨0⟩), (.symbol ⟨5⟩, .nil), (.symbol ⟨3⟩, .pair ⟨2⟩),
    (.pair ⟨3⟩, .nil), (.pair ⟨1⟩, .pair ⟨4⟩), (.int 2, .nil)].foldl
    (fun h (p : Value × Value) => h.push p.1 p.2) (.empty 100)

/-- The template `(,x ,@y)`. -/
def sample : Template := .cons (.unquote (.symbol ⟨4⟩)) (.splice (.symbol ⟨5⟩) (.atom .nil))

/-- A reader that knows these symbols and pairs. -/
def sampleReader : Reading where
  ahead := []
  heap := sampleHeap
  symbols := sampleSymbols

/-- The value of `x` is `1`, and that of `y` is the list. -/
def sampleValue (f : Value) : LispM Value := pure (if f = .symbol ⟨4⟩ then .int 1 else .pair ⟨6⟩)

theorem unfolds_sample : ∃ t, sampleHeap.Unfolds (.pair ⟨5⟩) t := by
  have hleaf {v : Value} (hv : v.isAtom = true := by decide) : sampleHeap.Unfolds v (.leaf v) := .leaf hv
  exact ⟨_, .node (by decide) (.node (by decide) hleaf (.node (by decide) hleaf hleaf))
    (.node (by decide) (.node (by decide) hleaf (.node (by decide) hleaf hleaf)) hleaf)⟩

theorem marks_sample : Marks sampleReader.markers sampleHeap (.pair ⟨5⟩) sample := by
  have hline (id : PairId) {vs : List Value} {a : Value} (hid : id.index < sampleHeap.pairCount)
      (ha : sampleHeap.car id = a) (hd : sampleHeap.Line .nil vs (sampleHeap.cdr id)) :
      sampleHeap.Line .nil (a :: vs) (.pair id) := ha ▸ .cons hid hd
  refine .cons (by decide) (.unquote (u := ⟨2⟩) (by decide +kernel) ?_)
    (.splice (by decide) (u := ⟨3⟩) (by decide +kernel) ?_ (.atom rfl nofun))
  · exact hline ⟨1⟩ (by decide) rfl (hline ⟨0⟩ (by decide) rfl .nil)
  · exact hline ⟨3⟩ (by decide) rfl (hline ⟨2⟩ (by decide) rfl .nil)

end Template

end StackLisp
