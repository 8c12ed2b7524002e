import StackLisp.Proofs.Actions.Steady

/-!
# Going on side by side

When do two parallel interpreters stay parallel? Most actions are even, which is no
matter of the dumps and the exits. The others are turns, and they go together if the
relation between the dumps and the exits is kept by pushing and popping
(`Ways.Carried`, `Turns.together`). Being the same is the simplest such relation.

Runs in registers of their own begin with nothing on the dump and no exits, so this is
all there is to say: apart from returning, everything that the compiler and the machine
do goes together (`together_turningCongruence`).
-/

namespace StackLisp

open Interpreter Compiler Machine

variable {α β : Type}

/-! ## More even actions -/

theorem Even.forM {f : α → LispM PUnit} (hf : ∀ a, Even (f a)) : ∀ l : List α, Even (l.forM f)
  | [] => even_pure _
  | a :: l => (hf a).bind fun _ => Even.forM hf l

/-- Whether a call is in tail position is read off the code, which is the same. -/
theorem even_emitApply (argc : Nat) (cont : Value) : Even (emitApply argc cont) := by
  unfold emitApply
  refine (quiet_tailOf cont).even.bind fun tail => ?_
  split
  · exact (quiet_emit ..).even
  · refine (quiet_emit ..).even.bind fun code => ?_
    split
    · exact (even_modifyScopes _).bind fun _ => even_pure _
    · exact even_pure _
  · exact (quiet_emit ..).even

/-- The scopes are the same, and so are the pairs that are written into. -/
theorem even_closeBlock : Even closeBlock := by
  unfold closeBlock
  refine even_get (fun s => ?_) fun s t h => by rw [h]
  dsimp only
  split
  · refine (even_modifyScopes _).bind fun _ => Even.forM (fun index => ?_) _
    refine (even_modifyScopes _).bind fun _ => even_get (fun s => ?_) fun s t h => by rw [h]
    split
    · split
      · exact even_heap _
      · exact even_pure _
    · exact even_pure _
  · exact even_pure _

theorem even_restore (saved : SavedValue) : Even (restore saved) := even_symbols _

/-- The bindings are on a stack of their own, which is the same. -/
theorem even_bindSpecial (id : SymbolId) (v : Value) : Even (bindSpecial id v) :=
  (quiet_asks _ fun _ _ => rfl).even.bind fun _ =>
    Even.bind (even_modifyMachine (fun _ => rfl) fun _ _ _ _ _ => rfl) fun _ => even_symbols _

theorem even_unbindSpecial (id : SymbolId) : Even (unbindSpecial id) := by
  refine (quiet_view _ fun _ _ _ _ _ => rfl).even.bind fun top => ?_
  split
  · exact (quiet_nameOf _).even.bind fun _ => (quiet_fault _).even
  · refine Even.bind (even_modifyMachine (fun _ => rfl) fun _ _ _ _ _ => rfl) fun _ => ?_
    split
    · exact even_restore _
    · exact (quiet_nameOf _).even.bind fun _ => (quiet_nameOf _).even.bind fun _ => (quiet_fault _).even

/-- How many bindings are ended depends on their stack only. -/
theorem even_unwindBindings (height : Nat) : Even (unwindBindings height) := by
  refine (quiet_view _ fun _ _ _ _ _ => rfl).even.bind fun bindings => ?_
  refine Even.bind (even_modifyMachine (fun _ => rfl) fun _ _ _ _ _ => rfl) fun _ => ?_
  exact Even.forM even_restore _

/-- Registers other than the dump and the exits may be set. -/
theorem even_goOn (env code : Value) : Even (modifyMachine fun m => { m with env, control := code }) :=
  even_modifyMachine (fun _ => rfl) fun _ _ _ _ _ => rfl

theorem even_addExpander (f : FunctionId) : Even (addExpander f) :=
  (quiet_asks _ fun _ _ => rfl).even.bind fun _ => (even_addFunction _).bind fun _ => even_modifyFunction ..

/-! ## Compiling -/

/-- A relation between interpreters with the same scopes, and nothing else between them that an
    even action would see. -/
structure Unseen (R : Interpreter → Interpreter → Prop) : Prop where
  even : ∀ {α : Type} {x : LispM α}, Even x → Together R x x
  scopes : ∀ {s t}, R s t → t.scopes = s.scopes

theorem unseen_parallel (ρ : Ways) : Unseen (Parallel ρ) where
  even hx := hx.together ρ
  scopes := by
    rintro s _ ⟨-, -⟩
    rfl

namespace Unseen

variable {R : Interpreter → Interpreter → Prop} (hR : Unseen R)

include hR

/-- Looking at the scopes. -/
theorem get {f g : Interpreter → LispM β} (hfg : ∀ s, Together R (f s) (g s))
    (hg : ∀ s t, s.scopes = t.scopes → g s = g t) : Together R (get >>= f) (get >>= g) where
  run {s t} h := by
    refine (?_ : Matches _ (f s s) (g t t))
    rw [hg t s (hR.scopes h)]
    exact (hfg s).run h

/-- What is even goes together, and so do two things one after the other. -/
theorem basicCongruence : BasicCongruence fun _ x y => Together R x y where
  quiet hx := hR.even hx.even
  bind hx hf := hx.bind hf
  gensym _ := hR.even (even_symbols _)

/-- Apart from definitions, everything that the compiler does goes together. -/
theorem congruence : Congruence fun _ x y => Together R x y where
  toBasicCongruence := hR.basicCongruence
  tame _ heven := hR.even heven
  guard hx _ _ hf := hx.attempt.bind fun r => hR.even (hf r)
  declareSpecial _ := hR.even (even_symbols _)
  emitApply argc cont := hR.even (even_emitApply argc cont)
  reject kind name := hR.even (even_raise _)
  forget := hR.even (even_modifyScopes _)
  closeBlock hx := hx.attempt.bind fun r => hR.even (even_closeBlock.bind fun _ => even_resume r)
  apart hx := hR.get (fun _ => (hR.even (even_modifyScopes _)).bind fun _ =>
    hx.attempt.bind fun r => hR.even ((even_modifyScopes _).bind fun _ => even_resume r))
    fun s t h => by rw [h]

/-- A definition looks at the scopes and at the cell of its name. -/
theorem definition {make make' : SymbolId → Value → Value → LispM FunctionId}
    (hmake : ∀ name params body,
      Together R (make name params body) (make' name params body))
    (kind : FunctionKind) (args cont : Value) :
    Together R (definitionBy make kind args cont) (definitionBy make' kind args cont) := by
  have h := hR.basicCongruence
  refine h.after (quiet_arguments args) fun items => ?_
  split
  · split
    · refine h.after (looks_checkRedefinition ..).quiet fun _ => ?_
      refine h.after (quiet_parseLambdaList ..) fun frame => ?_
      refine h.after (quiet_asks _ fun _ _ => rfl) fun previous => ?_
      refine (hR.even (even_symbols _)).bind fun _ => ?_
      refine h.after (quiet_query _ fun _ _ => rfl) fun body => ?_
      refine h.after (quiet_heap _) fun body => ?_
      refine h.after (quiet_heap _) fun block => ?_
      refine h.after (quiet_heap _) fun body => ?_
      -- The cell is set again after either outcome of the body.
      refine (hmake ..).attempt.bind fun made => ?_
      cases made with
      | ok f =>
        refine h.after (quiet_pure _) fun f => ?_
        split
        · exact hR.even ((even_addExpander f).bind fun _ => (even_symbols _).bind fun _ =>
            (even_record ..).bind fun _ => (quiet_emit ..).even)
        · exact hR.even ((even_symbols _).bind fun _ => (even_record ..).bind fun _ =>
            (quiet_emit ..).even)
      | error e => exact hR.even ((even_symbols _).bind fun _ => even_throw_bind ..)
    · exact h.quiet ((quiet_shown _).bind fun _ => quiet_invalid ..)
  · exact h.quiet (quiet_invalid ..)

/-- With definitions as well. -/
theorem definingCongruence : DefiningCongruence fun _ x y => Together R x y where
  toCongruence := hR.congruence
  definition hmake := hR.definition hmake

end Unseen

/-! ## Relations that turns keep -/

/-- The exits are the same, except for the height of the dump that a tagbody goes back to. -/
inductive Exit.Like : Exit → Exit → Prop
  | block (name : Value) (stack : Nat) (env : Value) : Like (.block name stack env) (.block name stack env)
  | tagbody (id table env : Value) (dump dump' stack bindings : Nat) :
    Like (.tagbody id table env dump stack bindings) (.tagbody id table env dump' stack bindings)

/-- On top of both dumps is nothing, the same branch, or a call made with as many exits. -/
inductive TopLike : Option DumpEntry → Option DumpEntry → Prop
  | none : TopLike none none
  | join (code : Value) : TopLike (some (.join code)) (some (.join code))
  | call (env code env' code' : Value) (exits : Nat) :
    TopLike (some (.call env code exits)) (some (.call env' code' exits))

/-- The relation between dumps and exits is kept by what the machine does with them. -/
structure Ways.Carried (ρ : Ways) : Prop where
  empty : ρ .empty .empty .empty .empty
  height : ∀ {d e d' e'}, ρ d e d' e' → e'.height = e.height
  top : ∀ {d e d' e'}, ρ d e d' e' → TopLike d.top? d'.top?
  push : ∀ {d e d' e'}, ρ d e d' e' → ∀ entry, ρ (d.push entry) e (d'.push entry) e'
  join : ∀ {d e d' e'}, ρ d e d' e' → ∀ {code r}, d.pop? = some (.join code, r) →
    ∃ r', d'.pop? = some (.join code, r') ∧ ρ r e r' e'
  truncate : ∀ {d e d' e'}, ρ d e d' e' → ∀ n, ρ d (e.truncate n) d' (e'.truncate n)
  enterBlock : ∀ {d e d' e'}, ρ d e d' e' → ∀ name stack env,
    ρ d (e.push (.block name stack env)) d' (e'.push (.block name stack env))
  enterTagbody : ∀ {d e d' e'}, ρ d e d' e' → ∀ id table env stack bindings,
    ρ d (e.push (.tagbody id table env d.height stack bindings))
      d' (e'.push (.tagbody id table env d'.height stack bindings))
  leave : ∀ {d e d' e'}, ρ d e d' e' → (e.pop? = none ∧ e'.pop? = none) ∨
    ∃ x r x' r', e.pop? = some (x, r) ∧ e'.pop? = some (x', r') ∧ x.Like x' ∧ ρ d r d' r'
  back : ∀ {d e d' e'}, ρ d e d' e' → ∀ id,
    ((e.dropUntil (isTagbody id)).top? = none ∧ (e'.dropUntil (isTagbody id)).top? = none) ∨
    ∃ table env dump dump' stack bindings,
      (e.dropUntil (isTagbody id)).top? = some (.tagbody id table env dump stack bindings) ∧
      (e'.dropUntil (isTagbody id)).top? = some (.tagbody id table env dump' stack bindings) ∧
      ρ (d.truncate dump) (e.dropUntil (isTagbody id))
        (d'.truncate dump') (e'.dropUntil (isTagbody id))

/-- Nothing differs. -/
def Ways.same : Ways := fun d e d' e' => d' = d ∧ e' = e

theorem Exit.Like.refl : ∀ x : Exit, x.Like x
  | .block .. => .block ..
  | .tagbody .. => .tagbody ..

theorem TopLike.refl (top : Option DumpEntry) : TopLike top top := by
  rcases top with _ | ⟨env, code, exits⟩ | code
  · exact .none
  · exact .call env code env code exits
  · exact .join code

theorem Parallel.refl {s : Interpreter} (hmax : s.machine.maxSteps = none) : Parallel .same s s :=
  @Parallel.intro .same s s.image.log s.machine.steps s.machine.maxDumpDepth s.machine.dump
    s.machine.exits hmax ⟨rfl, rfl⟩

/-- The first exit of a tagbody, if any. -/
theorem top_dropUntil_isTagbody (e : Stack Exit) (id : Value) :
    (e.dropUntil (isTagbody id)).top? = none ∨ ∃ table env dump stack bindings,
      (e.dropUntil (isTagbody id)).top? = some (.tagbody id table env dump stack bindings) := by
  have htop : (e.dropUntil (isTagbody id)).top? = e.items[e.items.findIdx (isTagbody id)]? := by
    simp [Stack.top?, Stack.dropUntil, List.head?_drop]
  rw [htop]
  -- Either the search ran off the end, or it stopped at an entry with the identity it looked for.
  by_cases hfound : e.items.findIdx (isTagbody id) < e.items.length
  · refine .inr ?_
    have hp := List.findIdx_getElem (w := hfound)
    rw [List.getElem?_eq_getElem hfound]
    cases hx : e.items[e.items.findIdx (isTagbody id)] with
    | block name stack env =>
      rw [hx] at hp
      cases hp
    | tagbody entered table env dump stack bindings =>
      rw [hx] at hp
      have hid : entered = id := by simpa [isTagbody] using hp
      exact ⟨table, env, dump, stack, bindings, by rw [hid]⟩
  · exact .inl (List.getElem?_eq_none (Nat.le_of_not_lt hfound))

/-- Being the same is kept by anything that is done to both. -/
theorem Ways.carried_same : Ways.same.Carried where
  empty := ⟨rfl, rfl⟩
  height h := by rw [h.2]
  top h := by
    rw [h.1]
    exact .refl _
  push h entry := by
    obtain ⟨rfl, rfl⟩ := h
    exact ⟨rfl, rfl⟩
  join h := by
    intro code r hr
    obtain ⟨rfl, rfl⟩ := h
    exact ⟨r, hr, rfl, rfl⟩
  truncate h n := by
    obtain ⟨rfl, rfl⟩ := h
    exact ⟨rfl, rfl⟩
  enterBlock h name stack env := by
    obtain ⟨rfl, rfl⟩ := h
    exact ⟨rfl, rfl⟩
  enterTagbody h id table env stack bindings := by
    obtain ⟨rfl, rfl⟩ := h
    exact ⟨rfl, rfl⟩
  -- The same exits have the same top, or none.
  leave {d e d' e'} h := by
    obtain ⟨rfl, rfl⟩ := h
    cases hpop : e'.pop? with
    | none => exact .inl ⟨rfl, rfl⟩
    | some top => exact .inr ⟨top.1, top.2, top.1, top.2, rfl, rfl, .refl _, rfl, rfl⟩
  back {d e d' e'} h id := by
    obtain ⟨rfl, rfl⟩ := h
    rcases top_dropUntil_isTagbody e' id with hnone | ⟨table, env, dump, stack, bindings, htop⟩
    · exact .inl ⟨hnone, hnone⟩
    · exact .inr ⟨table, env, dump, dump, stack, bindings, htop, htop, rfl, rfl⟩

/-! ## Turns -/

/-- What is done with the outcomes, whatever they are, is alike. -/
theorem Matches.attempt_bind {R R' : Interpreter → Interpreter → Prop} {x y : LispM α}
    {f g : Except Failure α → LispM β} {s t : Interpreter} (hx : Matches R (x s) (y t))
    (hf : ∀ r s' t', R s' t' → Matches R' (f r s') (g r t')) :
    Matches R' ((attempt x >>= f) s) ((attempt y >>= g) t) := by
  simp only [Bind.bind, EStateM.bind, Interpreter.attempt]
  generalize x s = r, y t = r' at hx
  cases hx with
  | ok h => exact hf _ _ _ h
  | error h => exact hf _ _ _ h

section

variable {ρ : Ways} (hρ : ρ.Carried)

include hρ

/-- An entry is pushed on both dumps. -/
theorem together_pushDump (entry : DumpEntry) :
    Together (Parallel ρ) (pushDump entry) (pushDump entry) where
  run := by
    rintro s _ ⟨hmax, hways⟩
    exact .ok (.intro (s := { s with machine := { s.machine with
      dump := s.machine.dump.push entry
      maxDumpDepth := max s.machine.maxDumpDepth (s.machine.dump.push entry).height } })
      hmax (hρ.push hways entry))

/-- Where a call goes on may be noted, and as many exits as there are. -/
theorem together_pushCall (f : Machine → Value × Value)
    (hf : ∀ m steps depth dump exits,
      f { m with steps, maxDumpDepth := depth, dump, exits } = f m) :
    Together (Parallel ρ) (view (fun m => DumpEntry.call (f m).1 (f m).2 m.exits.height) >>= pushDump)
      (view (fun m => DumpEntry.call (f m).1 (f m).2 m.exits.height) >>= pushDump) where
  run := by
    rintro s _ ⟨hmax, hways⟩
    simp only [Bind.bind, EStateM.bind, view, diverted, hf, hρ.height hways]
    exact (together_pushDump hρ _).run (.intro hmax hways)

/-- A call goes on the dump with the number of the exits, which is the same. A tail call cuts the
    exits down to the number in the entry on top of the dump, which is the same, too. -/
theorem together_enter (code env : Value) (args : List Value) (mode : CallMode) :
    Together (Parallel ρ) (enter code env args mode) (enter code env args mode) := by
  refine ((quiet_heap _).even.together ρ).bind fun frame => ?_
  refine ((quiet_heap _).even.together ρ).bind fun env => ?_
  have hgo := (even_goOn env code).together ρ
  cases mode with
  | push =>
    have hpush := (together_pushCall hρ (fun m => (m.env, m.control)) fun _ _ _ _ _ => rfl).bind
      fun _ => hgo
    exact ⟨fun h => hpush.run h⟩
  -- A tail call reads the top of the dump, which the two states need not share: it is compared by
  -- the kind of its entry, with the exits cut to the height it records.
  | tail =>
    refine ⟨?_⟩
    rintro s _ ⟨hmax, hways⟩
    rename_i log steps depth dump exits
    have htop := hρ.top hways
    simp only [Bind.bind, EStateM.bind, view, diverted]
    generalize s.machine.dump.top? = top at htop ⊢
    generalize dump.top? = top' at htop ⊢
    cases htop with
    | none => exact .error (.intro hmax hways)
    | join code => exact .error (.intro hmax hways)
    | call env₁ code₁ env₂ code₂ n =>
      exact .ok (.intro (s := { s with machine := { s.machine with
        env, control := code, exits := s.machine.exits.truncate n } }) hmax (hρ.truncate hways n))

theorem together_applyRecursive (argc : Nat) :
    Together (Parallel ρ) (applyRecursive argc) (applyRecursive argc) := by
  refine ((quiet_popMany argc).even.together ρ).bind fun args => ?_
  refine (quiet_pop.even.together ρ).bind fun callee => ?_
  split
  · refine ((quiet_closureParts _).even.together ρ).bind fun parts => ?_
    refine ((quiet_query _ fun _ _ => rfl).even.together ρ).bind fun head => ?_
    split
    · refine ((quiet_heap _).even.together ρ).bind fun _ => ?_
      refine ((quiet_asks _ fun _ _ => rfl).even.together ρ).bind fun code => ?_
      -- The new entry records the height of the exits, so it is compared in the two states
      -- themselves.
      refine ⟨?_⟩
      rintro s _ ⟨hmax, hways⟩
      simp only [Bind.bind, EStateM.bind, view, diverted, id, query, hρ.height hways]
      cases s.image.heap.tail s.machine.env with
      | error e => exact .error (.intro hmax hways)
      | ok outer => exact ((together_pushDump hρ _).bind fun _ => (even_goOn _ _).together ρ).run (.intro hmax hways)
    · exact (quiet_fault _).even.together ρ
  · exact (quiet_fault _).even.together ρ

/-- Both dumps have the same branch on top, or neither has one. -/
theorem together_join : Together (Parallel ρ) Machine.join Machine.join where
  run := by
    rintro s _ ⟨hmax, hways⟩
    rename_i log steps depth dump exits
    have htop := hρ.top hways
    rw [Stack.top?_eq_pop?, Stack.top?_eq_pop?] at htop
    unfold Machine.join
    simp only [Bind.bind, EStateM.bind, view, diverted]
    -- On the top of the dump there is nothing, a return, or a join; the two dumps agree on which.
    rcases hpop : s.machine.dump.pop? with _ | ⟨_ | code, r⟩
    · rw [hpop] at htop
      cases hpop' : dump.pop? with
      | none => exact .error (.intro hmax hways)
      | some top =>
        rw [hpop'] at htop
        cases htop
    · rw [hpop] at htop
      rcases hpop' : dump.pop? with _ | ⟨_ | code, r'⟩
      · exact .error (.intro hmax hways)
      · exact .error (.intro hmax hways)
      · rw [hpop'] at htop
        cases htop
    · obtain ⟨r', hr', hr⟩ := hρ.join hways hpop
      rw [hr']
      exact .ok (.intro (s := { s with machine := { s.machine with dump := r, control := code } }) hmax hr)

/-- Only the kind of the entry on top matters. -/
theorem together_continuationMode : Together (Parallel ρ) continuationMode continuationMode where
  run := by
    rintro s _ ⟨hmax, hways⟩
    rename_i log steps depth dump exits
    have htop := hρ.top hways
    unfold continuationMode
    simp only [Bind.bind, EStateM.bind, view, asks, diverted, id]
    generalize s.machine.dump.top? = top at htop ⊢
    generalize dump.top? = top' at htop ⊢
    cases htop with
    | none | join code => exact .ok (.intro hmax hways)
    | call env code env' code' exits => exact .ok (.intro hmax hways)

theorem together_enterBlock (name : Value) : Together (Parallel ρ) (enterBlock name) (enterBlock name) where
  run := by
    rintro s _ ⟨hmax, hways⟩
    exact .ok (.intro (s := { s with
      machine.exits := s.machine.exits.push (.block name s.machine.stack.height s.machine.env) })
      hmax (hρ.enterBlock hways ..))

/-- Each exit has the height of its own dump. -/
theorem together_enterTagbody (id table : Value) :
    Together (Parallel ρ) (enterTagbody id table) (enterTagbody id table) where
  run := by
    rintro s _ ⟨hmax, hways⟩
    exact .ok (.intro (s := { s with
      machine.exits := s.machine.exits.push (.tagbody id table s.machine.env s.machine.dump.height
        s.machine.stack.height s.machine.bindings.height) })
      hmax (hρ.enterTagbody hways ..))

/-- The innermost exits are alike, and what is done with them is alike, too. -/
theorem together_leave {f g : Option (Exit × Stack Exit) → LispM α}
    (hnone : Together (Parallel ρ) (f none) (g none))
    (hsome : ∀ {x x' : Exit} {r r' : Stack Exit} {s t : Interpreter}, x.Like x' → Parallel ρ s t →
      ρ s.machine.dump r t.machine.dump r' →
      Matches (Parallel ρ) (f (some (x, r)) s) (g (some (x', r')) t)) :
    Together (Parallel ρ) (view (·.exits.pop?) >>= f) (view (·.exits.pop?) >>= g) where
  run := by
    intro s t h
    -- Both stacks of exits are empty, or both have a top, and the two tops are alike.
    have hpops : (s.machine.exits.pop? = none ∧ t.machine.exits.pop? = none) ∨
        ∃ x r x' r', s.machine.exits.pop? = some (x, r) ∧ t.machine.exits.pop? = some (x', r') ∧
          x.Like x' ∧ ρ s.machine.dump r t.machine.dump r' := by
      obtain ⟨-, hways⟩ := h
      exact hρ.leave hways
    simp only [Bind.bind, EStateM.bind, view]
    rcases hpops with ⟨h₁, h₂⟩ | ⟨x, r, x', r', h₁, h₂, hlike, hr⟩
    · rw [h₁, h₂]
      exact hnone.run h
    · rw [h₁, h₂]
      exact hsome hlike h hr

omit hρ in
/-- The exits below the innermost one stay. -/
theorem Parallel.withExits {s t : Interpreter} {r r' : Stack Exit} (h : Parallel ρ s t)
    (hr : ρ s.machine.dump r t.machine.dump r') :
    Parallel ρ { s with machine.exits := r } { t with machine.exits := r' } := by
  obtain ⟨hmax, -⟩ := h
  exact .intro (s := { s with machine.exits := r }) hmax hr

theorem together_endBlock (name : Value) : Together (Parallel ρ) (endBlock name) (endBlock name) := by
  refine together_leave hρ ((quiet_fault _).even.together ρ) ?_
  intro x x' r r' s t hlike h hr
  cases hlike with
  | block entered stack env =>
    dsimp only
    split
    · exact .ok (h.withExits hr)
    · exact .error h
  | tagbody => exact .error h

theorem together_endTagbody : Together (Parallel ρ) endTagbody endTagbody := by
  refine together_leave hρ ((quiet_fault _).even.together ρ) ?_
  intro x x' r r' s t hlike h hr
  cases hlike with
  | block => exact .error h
  | tagbody => exact .ok (h.withExits hr)

/-- The exit is taken off on both sides, and is looked at in what it has in common. -/
theorem together_leaveBlock (name target value : Value) :
    Together (Parallel ρ) (leaveBlock name target value) (leaveBlock name target value) := by
  refine together_leave hρ ((quiet_fault _).even.together ρ) ?_
  intro x x' r r' s t hlike h hr
  cases hlike with
  | block entered stack env =>
    have hexits := h.withExits hr
    have hback : Even
        (modifyMachine fun m => { m with env, stack := (m.stack.truncate stack).push value }) :=
      even_modifyMachine (fun _ => rfl) fun _ _ _ _ _ => rfl
    dsimp only
    split
    · exact .error h
    · split
      · exact ((hback.bind fun _ => even_pure true).together ρ).run hexits
      · exact .ok hexits
  | tagbody => exact .error h

/-- Either dump is cut to the height in its own exit. -/
theorem together_backTo (id tag : Value) : Together (Parallel ρ) (backTo id tag) (backTo id tag) where
  run := by
    rintro s _ ⟨hmax, hways⟩
    rename_i log steps depth dump exits
    unfold backTo
    simp only [Bind.bind, EStateM.bind, view, diverted]
    -- The record is missing on both sides, or it is there on both, with the same table.
    rcases hρ.back hways id with ⟨h₁, h₂⟩ | ⟨table, env, height, height', stack, bindings, h₁, h₂, hback⟩
    · rw [h₁, h₂]
      exact (((quiet_shown tag).bind fun _ => quiet_fault _).even.together ρ).run (.intro hmax hways)
    · rw [h₁, h₂]
      simp only [walk, EStateM.bind]
      cases s.image.heap.lookup tag table with
      | error e => exact .error (.intro hmax hways)
      | ok code =>
        cases code with
        | none =>
          exact (((quiet_shown tag).bind fun _ => quiet_fault _).even.together ρ).run (.intro hmax hways)
        | some code =>
          exact .ok (.intro (s := { s with machine := { s.machine with
            exits := s.machine.exits.dropUntil (isTagbody id)
            env
            dump := s.machine.dump.truncate height
            stack := s.machine.stack.truncate stack
            control := code } }) hmax hback)

/-- Turns go together. -/
theorem Turns.together {x : LispM α} (hx : Turns x) : Together (Parallel ρ) x x := by
  cases hx with
  | pushDump entry => exact together_pushDump hρ entry
  | enter code env args mode => exact together_enter hρ code env args mode
  | applyRecursive argc => exact together_applyRecursive hρ argc
  | join => exact together_join hρ
  | continuationMode => exact together_continuationMode hρ
  | enterBlock name => exact together_enterBlock hρ name
  | endBlock name => exact together_endBlock hρ name
  | leaveBlock name target value => exact together_leaveBlock hρ name target value
  | enterTagbody id table => exact together_enterTagbody hρ id table
  | endTagbody => exact together_endTagbody hρ
  | backTo id tag => exact together_backTo hρ id tag

/-! ## Runs in registers of their own -/

/-- What is done when a run in registers of its own is over, with the machine as it was before. -/
def leaveRun (before : Machine) (result : Except Failure Value) : LispM Value := do
  modifyMachine fun m => { m with nesting := m.nesting - 1 }
  if let .error _ := result then
    unwindBindings before.bindings.height
  modifyMachine fun m => { m with toRegisters := before.toRegisters }
  resume result

omit hρ in
/-- A run in registers of its own, with what is done at its end as an action of its own. -/
theorem execute_eq (run : LispM Unit) (code : Value) (args : List Value) :
    Interpreter.execute run code args = (do
      let env ← argumentEnv args
      let before := (← get).machine
      modifyMachine fun m =>
        { m with
          toRegisters := { env, control := code }
          steps := if m.nesting = 0 then 0 else m.steps
          nesting := m.nesting + 1 }
      let result ← attempt (do run; pop)
      leaveRun before result) := rfl

omit hρ in
/-- The registers are as before the run, whatever has become of the dump and the exits. -/
theorem matches_leaveRun {ρ' : Ways} {s₀ t₀ s t : Interpreter} (h₀ : Parallel ρ s₀ t₀)
    (h : Parallel ρ' s t) (result : Except Failure Value) :
    Matches (Parallel ρ) (leaveRun s₀.machine result s) (leaveRun t₀.machine result t) := by
  have hrestore {s t : Interpreter} (h : Parallel ρ' s t) :
      Parallel ρ { s with machine.toRegisters := s₀.machine.toRegisters }
        { t with machine.toRegisters := t₀.machine.toRegisters } := by
    obtain ⟨-, hways⟩ := h₀
    obtain ⟨hmax, -⟩ := h
    exact .intro (s := { s with machine.toRegisters := s₀.machine.toRegisters }) hmax hways
  have hheight : t₀.machine.bindings.height = s₀.machine.bindings.height := by
    obtain ⟨-, -⟩ := h₀
    rfl
  have hended : Parallel ρ' { s with machine.nesting := s.machine.nesting - 1 }
      { t with machine.nesting := t.machine.nesting - 1 } := by
    obtain ⟨hmax, hways⟩ := h
    exact .intro (s := { s with machine.nesting := s.machine.nesting - 1 }) hmax hways
  cases result with
  | ok v => exact .ok (hrestore hended)
  | error e =>
    -- Ending bindings never fails.
    have hends {s' : Interpreter} {e : Failure} (s : Interpreter) (height : Nat) :
        unwindBindings height s ≠ .error e s' := fun heq =>
      have hleads : Leads (unwindBindings height) s (fun _ _ => True) fun _ _ => False :=
        leads_unwindBindings.2 trivial
      (leads_of_error heq).1 hleads
    have hunwound := ((even_unwindBindings s₀.machine.bindings.height).together ρ').run hended
    simp only [leaveRun, Bind.bind, EStateM.bind, modifyMachine_apply, hheight]
    generalize hr : unwindBindings s₀.machine.bindings.height
      { s with machine := { s.machine with nesting := s.machine.nesting - 1 } } = r,
      unwindBindings s₀.machine.bindings.height
      { t with machine := { t.machine with nesting := t.machine.nesting - 1 } } = r' at hunwound
    cases hunwound with
    | ok h' => exact .error (hrestore h')
    | error h' => exact absurd hr (hends _ _)

omit hρ in
/-- Runs in registers of their own begin with nothing on the dump and no exits. -/
theorem together_execute {run run' : LispM Unit} (hrun : Together (Parallel .same) run run')
    (code : Value) (args : List Value) : Together (Parallel ρ) (Interpreter.execute run code args)
      (Interpreter.execute run' code args) := by
  rw [execute_eq, execute_eq]
  refine ((quiet_argumentEnv args).even.together ρ).bind fun env => ⟨fun {s t} h => ?_⟩
  -- A nested run starts from empty registers, so there the two states differ in log and counters
  -- only.
  have hbegun : Parallel .same
      { s with machine := { s.machine with
        toRegisters := { env, control := code }
        steps := if s.machine.nesting = 0 then 0 else s.machine.steps
        nesting := s.machine.nesting + 1 } }
      { t with machine := { t.machine with
        toRegisters := { env, control := code }
        steps := if t.machine.nesting = 0 then 0 else t.machine.steps
        nesting := t.machine.nesting + 1 } } := by
    obtain ⟨hmax, -⟩ := h
    exact .intro (s := { s with machine := { s.machine with
      toRegisters := { env, control := code }
      steps := if s.machine.nesting = 0 then 0 else s.machine.steps
      nesting := s.machine.nesting + 1 } }) hmax ⟨rfl, rfl⟩
  have hran := (hrun.bind fun _ => quiet_pop.even.together .same).run hbegun
  change Matches (Parallel ρ) ((attempt (do run; pop) >>= leaveRun s.machine) _)
    ((attempt (do run'; pop) >>= leaveRun t.machine) _)
  exact hran.attempt_bind fun result s₁ t₁ h₁ => matches_leaveRun h h₁ result

/-! ## What goes together -/

/-- Apart from returning, everything that the machine does goes together. -/
theorem together_turningCongruence :
    TurningCongruence fun _ x y => Together (Parallel ρ) x y where
  toBasicCongruence := (unseen_parallel ρ).basicCongruence
  walk _ hg _ := (even_walk hg).together ρ
  count := together_count ρ
  turns hx := hx.together hρ
  bindSpecial id v := (even_bindSpecial id v).together ρ
  unbindSpecial id := (even_unbindSpecial id).together ρ
  unwindBindings height := (even_unwindBindings height).together ρ

/-- Every primitive goes together. -/
theorem together_runBuiltin (b : Builtin) (argc : Nat) :
    Together (Parallel ρ) (runBuiltin b argc) (runBuiltin b argc) := by
  have h := together_turningCongruence hρ
  cases hassigns : b.isAssignment with
  | false => exact h.runBuiltin hassigns argc
  | true =>
    cases b with
    | set =>
      exact (quiet_popTwo.even.bind fun _ => (quiet_symbolArg ..).even.bind fun _ =>
        (even_symbols _).bind fun _ => (quiet_done _).even).together ρ
    | rplaca | rplacd =>
      exact (quiet_popTwo.even.bind fun _ => (quiet_pairArg ..).even.bind fun _ =>
        (even_heap _).bind fun _ => (quiet_done _).even).together ρ
    | _ => cases hassigns

/-- What a primitive does goes together, and so does entering a function. -/
theorem together_call (argc : Nat) (mode : CallMode) :
    Together (Parallel ρ) (call argc mode) (call argc mode) :=
  (together_turningCongruence hρ).call (together_runBuiltin hρ) argc mode

/-- Every instruction but returns goes together. -/
theorem together_executeInstruction {code : Opcode} (hrtn : code ≠ .rtn) :
    Together (Parallel ρ) (Machine.execute code) (Machine.execute code) :=
  (together_turningCongruence hρ).executeAny (together_runBuiltin hρ)
    (fun _ _ => (even_symbols _).together ρ) hrtn

end

/-- With the same dumps, both return to the same place. -/
theorem together_returnToCaller : Together (Parallel .same) returnToCaller returnToCaller where
  run := by
    rintro s _ ⟨hmax, rfl, rfl⟩
    rename_i log steps depth
    unfold returnToCaller
    simp only [Bind.bind, EStateM.bind, view, diverted]
    rcases s.machine.dump.pop? with _ | ⟨⟨env, code, exits⟩ | code, r⟩
    · exact .error (.intro hmax ⟨rfl, rfl⟩)
    · exact .ok (.intro (s := { s with machine := { s.machine with
        dump := r, env, control := code, exits := s.machine.exits.truncate exits } }) hmax ⟨rfl, rfl⟩)
    · exact .error (.intro hmax ⟨rfl, rfl⟩)

/-- With the same dumps and exits, everything goes together. -/
theorem together_machineCongruence :
    MachineCongruence fun _ x y => Together (Parallel .same) x y where
  toDefiningCongruence := (unseen_parallel .same).definingCongruence
  walk _ hg _ := (even_walk hg).together .same
  count := together_count .same
  turns := (together_turningCongruence Ways.carried_same).turns
  bindSpecial := (together_turningCongruence Ways.carried_same).bindSpecial
  unbindSpecial := (together_turningCongruence Ways.carried_same).unbindSpecial
  unwindBindings := (together_turningCongruence Ways.carried_same).unwindBindings
  returnToCaller := together_returnToCaller
  execute := together_execute
  setCar _ _ := (even_heap _).together .same
  setCdr _ _ := (even_heap _).together .same
  setValue _ _ := (even_symbols _).together .same

/-- With the same dumps and exits, runs go together. -/
theorem together_runFrom (fuel : Nat) (flow : Flow) :
    Together (Parallel .same) (runFrom fuel flow) (runFrom fuel flow) :=
  (together_machineCongruence.engine fuel).2 flow

/-- The compiler runs the expanders of macros in registers of their own. -/
theorem together_compileFrom {ρ : Ways} (hρ : ρ.Carried) :
    ∀ (fuel : Nat) (form : Value) (env : LexicalEnv) (cont : Value),
      Together (Parallel ρ) (compileFrom fuel form env cont) (compileFrom fuel form env cont)
  | 0, form, env, cont => by
    rw [compileFrom]
    exact together_throw _
  | fuel + 1, form, env, cont => by
    rw [compileFrom]
    refine (unseen_parallel ρ).definingCongruence.compileForm (together_compileFrom hρ fuel) ?_ form env cont
    exact (together_turningCongruence hρ).expandMacro (together_execute (together_runFrom fuel .next))

end StackLisp
