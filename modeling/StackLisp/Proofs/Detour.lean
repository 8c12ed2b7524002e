import StackLisp.Proofs.Actions.Nearly

/-!
# Detours

A call that nothing but a return follows may take the place of the function it stands
in, or come back there. In the second case the machine is on a *detour*: all the time
until the callee returns, there is one more continuation on the dump, which does
nothing but return to the caller of the function (`LastCall.Detour`).

The detour is not seen by what the callee does. It may call, branch, go to a tag or
leave blocks: the continuation stays where it is, or both machines drop it or do
without it at once (`LastCall.carried`). Only when it is its turn, the machine on the
detour has to return once more (`LastCall.matches_returnToCaller`), and then the two
have the same dump and the same exits again (`LastCall.Owes.step`).
-/

namespace StackLisp

open Interpreter Compiler Machine

/-! ## Exits with a detour -/

/-- The exit goes back to less than a height of the dump, if it is one of a tagbody. -/
def Exit.Below (height : Nat) : Exit → Prop
  | .block .. => True
  | .tagbody _ _ _ dump _ _ => dump < height

/-- The exits of the second list are those of the first one, where the dump has one more
    continuation at a height: tagbodies entered on top of it go back to one more. -/
inductive Raised (height : Nat) : List Exit → List Exit → Prop
  | older {exits : List Exit} (below : ∀ x ∈ exits, x.Below height) : Raised height exits exits
  | block {name env : Value} {stack : Nat} {exits exits' : List Exit}
      (outer : Raised height exits exits') :
      Raised height (.block name stack env :: exits) (.block name stack env :: exits')
  | tagbody {id table env : Value} {dump stack bindings : Nat} {exits exits' : List Exit}
      (above : height ≤ dump) (outer : Raised height exits exits') :
      Raised height (.tagbody id table env dump stack bindings :: exits)
        (.tagbody id table env (dump + 1) stack bindings :: exits')

namespace Raised

variable {height : Nat} {exits exits' : List Exit}

/-- There are as many exits on the detour. -/
theorem length_eq (h : Raised height exits exits') : exits'.length = exits.length := by
  induction h with
  | older => rfl
  | block _ ih | tagbody _ _ ih => simp [ih]

/-- Exits are dropped from the top on both sides. -/
theorem drop (h : Raised height exits exits') (n : Nat) : Raised height (exits.drop n) (exits'.drop n) := by
  induction h generalizing n with
  | older below => exact .older fun x hx => below x (List.mem_of_mem_drop hx)
  | block outer ih =>
    cases n with
    | zero => exact .block outer
    | succ n => exact ih n
  | tagbody above outer ih =>
    cases n with
    | zero => exact .tagbody above outer
    | succ n => exact ih n

/-- Further out than the detour, nothing is different. -/
theorem eq_of_below (h : Raised height exits exits') (hbelow : ∀ x ∈ exits, x.Below height) :
    exits' = exits := by
  induction h with
  | older => rfl
  | block _ ih => rw [ih fun x hx => hbelow x (List.mem_cons_of_mem _ hx)]
  | tagbody above _ _ => exact absurd (hbelow _ List.mem_cons_self) (Nat.not_lt.2 above)

/-- The same tagbody is found at the same place. -/
theorem findIdx_eq (h : Raised height exits exits') (id : Value) :
    exits'.findIdx (isTagbody id) = exits.findIdx (isTagbody id) := by
  induction h with
  | older => rfl
  | block _ ih | tagbody _ _ ih => simp only [List.findIdx_cons, isTagbody, ih]

/-- The innermost exits are alike. -/
theorem pop (h : Raised height exits exits') :
    (exits = [] ∧ exits' = []) ∨ ∃ x r x' r', exits = x :: r ∧ exits' = x' :: r' ∧ x.Like x' ∧
      Raised height r r' := by
  cases h with
  | older below =>
    cases exits with
    | nil => exact .inl ⟨rfl, rfl⟩
    | cons x r =>
      exact .inr ⟨x, r, x, r, rfl, rfl, .refl x, .older fun y hy => below y (List.mem_cons_of_mem _ hy)⟩
  | block outer => exact .inr ⟨_, _, _, _, rfl, rfl, .block .., outer⟩
  | tagbody _ outer => exact .inr ⟨_, _, _, _, rfl, rfl, .tagbody .., outer⟩

/-- An innermost tagbody is further out than the detour, or it goes back to one more. -/
theorem top_tagbody {id table env : Value} {dump stack bindings : Nat}
    (h : Raised height exits exits') (htop : exits.head? = some (.tagbody id table env dump stack bindings)) :
    (dump < height ∧ exits' = exits) ∨
      (height ≤ dump ∧ exits'.head? = some (.tagbody id table env (dump + 1) stack bindings)) := by
  cases h with
  | older below => exact .inl ⟨below _ (List.mem_of_mem_head? htop), rfl⟩
  | block => cases htop
  | tagbody above =>
    cases htop
    exact .inr ⟨above, rfl⟩

end Raised

/-- The stream begins with a return. -/
def Heap.AtReturn (h : Heap) (c : Value) : Prop := ∃ id, c = .pair id ∧ h.car id = .op .rtn

/-- The instruction at the head of the stream is fetched. -/
theorem fetch_at {s : Interpreter} {id : PairId} {code : Opcode} (hcontrol : s.machine.control = .pair id)
    (hcar : s.image.heap.car id = .op code) :
    fetch s = .ok code { s with machine.control := s.image.heap.cdr id } := by
  simp [fetch, Bind.bind, EStateM.bind, view, operand, hcontrol, hcar, Value.isNil, pure, EStateM.pure]

/-! ## Machines on a detour -/

/-- A call that nothing but a return follows, in a function that has been called with as many
    exits: where the function would go on, where its caller goes on, and what is below that. -/
structure LastCall where
  env : Value
  code : Value
  callerEnv : Value
  callerCode : Value
  exits : Nat
  rest : List DumpEntry

namespace LastCall

variable (c : LastCall)

/-- The continuations of the function. -/
def below : List DumpEntry := .call c.callerEnv c.callerCode c.exits :: c.rest

/-- The continuation that only returns to the caller. -/
def extra : DumpEntry := .call c.env c.code c.exits

/-- How many continuations the function has. -/
def height : Nat := c.rest.length + 1

/-- The second machine is on the detour. -/
structure Detour (d : Stack DumpEntry) (e : Stack Exit) (d' : Stack DumpEntry) (e' : Stack Exit) :
    Prop where
  dump : ∃ above, d.items = above ++ c.below ∧ d'.items = above ++ c.extra :: c.below
  exits : Raised c.height e.items e'.items

/-- The second machine is on the detour, or it is back from it. -/
def ways : Ways := fun d e d' e' => Ways.same d e d' e' ∨ c.Detour d e d' e'

/-- The exits that the caller had are further out than the detour. -/
def Settled (e : Stack Exit) : Prop := ∀ x ∈ (e.truncate c.exits).items, x.Below c.height

variable {c} {d d' : Stack DumpEntry} {e e' : Stack Exit}

/-- The function and what is below it. -/
theorem length_below : c.below.length = c.height := rfl

namespace Detour

theorem height_exits (h : c.Detour d e d' e') : e'.height = e.height := by
  rw [e'.height_eq, e.height_eq, h.exits.length_eq]

/-- The detour is one continuation longer. -/
theorem height_dump (h : c.Detour d e d' e') : c.height ≤ d.height ∧ d'.height = d.height + 1 := by
  obtain ⟨above, hd, hd'⟩ := h.dump
  rw [d.height_eq, d'.height_eq, hd, hd']
  simp only [List.length_append, List.length_cons, length_below]
  omega

/-- On top of the dumps is the same, or two continuations of the same function. -/
theorem top (h : c.Detour d e d' e') : TopLike d.top? d'.top? := by
  obtain ⟨above, hd, hd'⟩ := h.dump
  rw [Stack.top?, Stack.top?, hd, hd']
  cases above with
  | nil => exact .call ..
  | cons entry above => exact .refl (some entry)

/-- An entry is pushed above the detour. -/
theorem push (h : c.Detour d e d' e') (entry : DumpEntry) :
    c.Detour (d.push entry) e (d'.push entry) e' := by
  obtain ⟨above, hd, hd'⟩ := h.dump
  exact ⟨⟨entry :: above, by simp [hd], by simp [hd']⟩, h.exits⟩

/-- Popping goes on above the detour, or it is the turn of what is below. -/
theorem pop (h : c.Detour d e d' e') :
    (∃ entry r r', d.pop? = some (entry, r) ∧ d'.pop? = some (entry, r') ∧ c.Detour r e r' e') ∨
      ∃ r r', d.pop? = some (.call c.callerEnv c.callerCode c.exits, r) ∧ r.items = c.rest ∧
        d'.pop? = some (c.extra, r') ∧ r'.items = c.below := by
  obtain ⟨above, hd, hd'⟩ := h.dump
  cases above with
  | nil =>
    obtain ⟨r, hr, hrest⟩ := Stack.pop?_of_items hd
    obtain ⟨r', hr', hbelow⟩ := Stack.pop?_of_items hd'
    exact .inr ⟨r, r', hr, hrest, hr', hbelow⟩
  | cons entry above =>
    obtain ⟨r, hr, hrest⟩ := Stack.pop?_of_items hd
    obtain ⟨r', hr', hrest'⟩ := Stack.pop?_of_items hd'
    exact .inl ⟨entry, r, r', hr, hr', ⟨above, hrest, hrest'⟩, h.exits⟩

/-- Cutting the exits has nothing to do with the dump. -/
theorem truncate (h : c.Detour d e d' e') (n : Nat) : c.Detour d (e.truncate n) d' (e'.truncate n) where
  dump := h.dump
  exits := by
    rw [Stack.truncate, Stack.truncate, h.height_exits]
    exact h.exits.drop _

/-- Going back to a height at the detour or above, or further out. -/
theorem truncate_dump (h : c.Detour d e d' e') (n : Nat) :
    (c.height ≤ n → c.Detour (d.truncate n) e (d'.truncate (n + 1)) e') ∧
      (n < c.height → d'.truncate n = d.truncate n) := by
  obtain ⟨hheight, hheight'⟩ := h.height_dump
  obtain ⟨above, hd, hd'⟩ := h.dump
  have hlen : d.height = above.length + c.height := by
    rw [d.height_eq, hd, List.length_append, length_below]
  refine ⟨fun hn => ⟨⟨above.drop (d.height - n), ?_, ?_⟩, h.exits⟩, fun hn => ?_⟩
  · rw [Stack.truncate, Stack.items_drop, hd, List.drop_append_of_le_length (by omega)]
  · rw [Stack.truncate, Stack.items_drop, hd', hheight', Nat.add_sub_add_right,
      List.drop_append_of_le_length (by omega)]
  · ext1
    have hdrop : d'.height - n - above.length = (d.height - n - above.length) + 1 := by omega
    have habove : above.drop (d.height - n) = [] := List.drop_of_length_le (by omega)
    have habove' : above.drop (d'.height - n) = [] := List.drop_of_length_le (by omega)
    simp only [Stack.truncate, Stack.items_drop, hd, hd', List.drop_append, habove, habove', hdrop,
      List.drop_succ_cons]

end Detour

/-- What the machine does with the dump and the exits is alike on the detour. -/
theorem carried (c : LastCall) : c.ways.Carried where
  -- The ways are the same, or one has a detour. Each case of the first kind is as for the same
  -- ways.
  empty := .inl ⟨rfl, rfl⟩
  height h := by
    rcases h with h | h
    · exact Ways.carried_same.height h
    · exact h.height_exits
  top h := by
    rcases h with h | h
    · exact Ways.carried_same.top h
    · exact h.top
  push h entry := h.imp (fun h => Ways.carried_same.push h entry) fun h => h.push entry
  -- Joins come before the detour, so they are popped on both sides.
  join h := by
    intro code r hr
    rcases h with h | h
    · obtain ⟨r', hr', hsame⟩ := Ways.carried_same.join h hr
      exact ⟨r', hr', .inl hsame⟩
    · rcases h.pop with ⟨entry, r₁, r', hr₁, hr', hdetour⟩ | ⟨r₁, r', hr₁, -, -, -⟩
      · obtain ⟨rfl, rfl⟩ : entry = .join code ∧ r₁ = r := by simpa using hr₁.symm.trans hr
        exact ⟨r', hr', .inr hdetour⟩
      · simp [hr] at hr₁
  truncate h n := h.imp (fun h => Ways.carried_same.truncate h n) fun h => h.truncate n
  enterBlock h name stack env :=
    h.imp (fun h => Ways.carried_same.enterBlock h name stack env) fun h => ⟨h.dump, .block h.exits⟩
  -- A record of a `tagbody` keeps the height of the dump, which the detour makes higher by one.
  enterTagbody h id table env stack bindings := by
    refine h.imp (fun h => Ways.carried_same.enterTagbody h id table env stack bindings) fun h => ?_
    obtain ⟨hheight, hheight'⟩ := h.height_dump
    exact ⟨h.dump, hheight' ▸ .tagbody hheight h.exits⟩
  -- Exits above the detour are popped on both sides.
  leave {d e d' e'} h := by
    rcases h with h | h
    · refine (Ways.carried_same.leave h).imp_right ?_
      rintro ⟨x, r, x', r', hr, hr', hlike, hsame⟩
      exact ⟨x, r, x', r', hr, hr', hlike, .inl hsame⟩
    · rcases h.exits.pop with ⟨he, he'⟩ | ⟨x, items, x', items', he, he', hlike, hraised⟩
      · exact .inl ⟨Stack.pop?_of_nil he, Stack.pop?_of_nil he'⟩
      · obtain ⟨r, hr, rfl⟩ := Stack.pop?_of_items he
        obtain ⟨r', hr', rfl⟩ := Stack.pop?_of_items he'
        exact .inr ⟨x, r, x', r', hr, hr', hlike, .inr ⟨h.dump, hraised⟩⟩
  back {d e d' e'} h id := by
    rcases h with h | h
    · refine (Ways.carried_same.back h id).imp_right ?_
      rintro ⟨table, env, dump, dump', stack, bindings, htop, htop', hsame⟩
      exact ⟨table, env, dump, dump', stack, bindings, htop, htop', .inl hsame⟩
    · have hraised : Raised c.height (e.dropUntil (isTagbody id)).items (e'.dropUntil (isTagbody id)).items := by
        rw [Stack.dropUntil, Stack.dropUntil, h.exits.findIdx_eq id]
        exact h.exits.drop _
      rcases top_dropUntil_isTagbody e id with hnone | ⟨table, env, dump, stack, bindings, htop⟩
      · refine .inl ⟨hnone, ?_⟩
        have hnil : (e.dropUntil (isTagbody id)).items = [] := List.head?_eq_none_iff.1 hnone
        have hnil' := hraised.length_eq
        rw [hnil] at hnil'
        exact List.head?_eq_none_iff.2 (List.length_eq_zero_iff.1 hnil')
      · refine .inr ⟨table, env, dump, ?_⟩
        obtain ⟨habove, hfurther⟩ := h.truncate_dump dump
        -- A record from below the detour goes back to before it, one from above keeps it on the
        -- dump.
        rcases hraised.top_tagbody htop with ⟨hlt, heq⟩ | ⟨hle, htop'⟩
        · refine ⟨dump, stack, bindings, htop, ?_, .inl ⟨hfurther hlt, Stack.ext heq⟩⟩
          rw [Stack.top?, heq]
          exact htop
        · exact ⟨dump + 1, stack, bindings, htop, htop', .inr ⟨(habove hle).dump, hraised⟩⟩

/-! ## Returning from the detour -/

/-- The first interpreter has returned from the function, and the second one has still to do
    that. -/
inductive Owes (c : LastCall) : Interpreter → Interpreter → Prop
  | intro {s u : Interpreter} (same : Parallel .same s u) (env : u.machine.env = c.callerEnv)
      (control : u.machine.control = c.callerCode) (exits : u.machine.exits.height ≤ c.exits) :
      Owes c s { u with machine := { u.machine with
        env := c.env
        control := c.code
        dump := u.machine.dump.push (.call c.callerEnv c.callerCode c.exits) } }

/-- Returning goes together, until it is the turn of the detour. -/
theorem matches_returnToCaller {s t : Interpreter} (h : Parallel c.Detour s t)
    (hsettled : c.Settled s.machine.exits) :
    Matches (Parallel c.Detour) (returnToCaller s) (returnToCaller t) ∨
      ∃ s' t', returnToCaller s = .ok () s' ∧ returnToCaller t = .ok () t' ∧ c.Owes s' t' := by
  obtain ⟨hmax, hdetour⟩ := h
  rename_i log steps depth dump exits
  unfold returnToCaller
  simp only [Bind.bind, EStateM.bind, view, diverted]
  -- There is something above the detour, which both pop, or `t` pops the detour, where `s` returns
  -- to the caller already.
  rcases hdetour.pop with ⟨entry, r, r', hr, hr', hrest⟩ | ⟨r, r', hr, hrest, hr', hbelow⟩
  · refine .inl ?_
    rw [hr, hr']
    cases entry with
    | call env code n =>
      exact .ok (.intro (s := { s with machine := { s.machine with
        dump := r, env, control := code, exits := s.machine.exits.truncate n } }) hmax (hrest.truncate n))
    | join => exact .error (.intro hmax hdetour)
  · refine .inr ?_
    have hdump : r' = r.push (.call c.callerEnv c.callerCode c.exits) :=
      Stack.ext (by rw [Stack.items_push, hrest, hbelow, below])
    -- The exits that the call has kept are below all that is above, so they are the same on both
    -- sides.
    have hexits : exits.truncate c.exits = s.machine.exits.truncate c.exits :=
      Stack.ext ((hdetour.truncate c.exits).exits.eq_of_below hsettled)
    have hheight : (s.machine.exits.truncate c.exits).height ≤ c.exits := by
      simp only [Stack.truncate, Stack.drop]
      omega
    rw [hr, hr']
    refine ⟨_, _, rfl, rfl, ?_⟩
    dsimp only
    rw [hdump, hexits]
    let s' : Interpreter := { s with machine := { s.machine with
      dump := r
      env := c.callerEnv
      control := c.callerCode
      exits := s.machine.exits.truncate c.exits } }
    have hsame : Parallel .same s' (s'.diverted log steps depth s'.machine.dump s'.machine.exits) :=
      .intro hmax ⟨rfl, rfl⟩
    exact .intro hsame rfl rfl hheight

/-- The return that is owed. -/
theorem Owes.returns {s t : Interpreter} (h : c.Owes s t) (log : Log) (steps : Nat) (control : Value) :
    ∃ t', Parallel .same s t' ∧ returnToCaller { t with
      image.log := log
      machine.steps := steps
      machine.control := control } = .ok () t' := by
  obtain ⟨⟨hmax, hways⟩, henv, hcontrol, hexits⟩ := h
  rename_i log' steps' depth dump exits
  obtain ⟨rfl, rfl⟩ := hways
  refine ⟨s.diverted log steps depth s.machine.dump s.machine.exits, .intro hmax ⟨rfl, rfl⟩, ?_⟩
  have hkept : s.machine.exits.truncate c.exits = s.machine.exits := by
    ext1
    simp only [diverted] at hexits
    simp [Stack.truncate, Nat.sub_eq_zero_of_le hexits]
  unfold returnToCaller
  simp only [Bind.bind, EStateM.bind, view, diverted, Stack.pop?_push, modifyMachine_apply, hkept]
  simp only [diverted] at henv hcontrol
  rw [← henv, ← hcontrol]

/-- The second interpreter is in front of the code that returns. -/
theorem Owes.facts {s t : Interpreter} (h : c.Owes s t) :
    t.machine.control = c.code ∧ t.image.heap = s.image.heap ∧ t.machine.maxSteps = none := by
  obtain ⟨⟨hmax, -⟩, -, -, -⟩ := h
  exact ⟨rfl, rfl, hmax⟩

/-- With one step more, the second interpreter is where the first one is. -/
theorem Owes.step {s t : Interpreter} (h : c.Owes s t) (hreturn : s.image.heap.AtReturn c.code) :
    ∃ t', Machine.step t = .ok .next t' ∧ Parallel .same s t' := by
  obtain ⟨id, hcode, hcar⟩ := hreturn
  obtain ⟨hcontrol, hheap, hmax⟩ := h.facts
  have hfetch := fetch_at (s := { t with machine.steps := t.machine.steps + 1 })
    (hcontrol.trans hcode) (hheap ▸ hcar)
  obtain ⟨log, -, hlog⟩ := noteStep_ends .rtn { t with
    machine.steps := t.machine.steps + 1
    machine.control := t.image.heap.cdr id }
  obtain ⟨t', hsame, hreturns⟩ := h.returns log (t.machine.steps + 1) (t.image.heap.cdr id)
  refine ⟨t', ?_, hsame⟩
  rw [step_eq]
  simp only [Bind.bind, EStateM.bind, count_of_unlimited hmax, hfetch, hlog, Machine.execute, hreturns]
  rfl

/-- So it is with one step more of a walk. -/
theorem Owes.exitBlock {s t : Interpreter} (h : c.Owes s t) (hreturn : s.image.heap.AtReturn c.code)
    (target value : Value) (skipped : Nat) : ∃ t', Parallel .same s t' ∧
      ∀ fuel, Machine.exitBlock target value (fuel + 1) skipped t =
        Machine.exitBlock target value fuel skipped t' := by
  obtain ⟨id, hcode, hcar⟩ := hreturn
  obtain ⟨hcontrol, hheap, hmax⟩ := h.facts
  have hfetch := fetch_at (hcontrol.trans hcode) (hheap ▸ hcar)
  obtain ⟨t', hsame, hreturns⟩ := h.returns t.image.log t.machine.steps (t.image.heap.cdr id)
  -- The walk meets the `RTN` that the push call left, and passing it takes the extra entry off:
  -- from there on the two walks are one.
  have hmeet : meet target t = .ok .rtn { t with machine.control := t.image.heap.cdr id } := by
    simp only [meet, Bind.bind, EStateM.bind, attempt, hfetch]
    rfl
  have hpass : pass target value skipped .rtn { t with machine.control := t.image.heap.cdr id } =
      .ok (some skipped) t' := by
    simp only [pass, Bind.bind, EStateM.bind, hreturns]
    rfl
  refine ⟨t', hsame, fun fuel => ?_⟩
  rw [exitBlock_succ]
  simp only [Bind.bind, EStateM.bind, hmeet, hpass]

end LastCall

/-! ## Walks -/

/-- On the way to the end of a block, exits may be left, and the heap stays as it is. -/
structure Withdrawn (s s' : Interpreter) : Prop where
  heap : s'.image.heap = s.image.heap
  exits : s'.machine.exits.items <:+ s.machine.exits.items

/-- The action does so, whether or not it fails. -/
structure Withdraws (x : LispM α) : Prop where
  leads : ∀ s, Leads x s (fun _ s' => Withdrawn s s') fun _ s' => Withdrawn s s'

theorem Withdrawn.refl (s : Interpreter) : Withdrawn s s := ⟨rfl, List.suffix_refl _⟩

/-- What only looks leaves everything. -/
theorem Looks.withdraws {x : LispM α} (hx : Looks x) : Withdraws x where
  leads s := (hx.leads s).mono (fun _ _ h => h ▸ .refl s) fun _ _ h => h ▸ .refl s

/-- Exits are left by both parts, one after the other. -/
theorem Withdraws.bind {x : LispM α} {f : α → LispM β} (hx : Withdraws x) (hf : ∀ a, Withdraws (f a)) :
    Withdraws (x >>= f) where
  leads s := (leads_bind f).2 ((hx.leads s).mono
    (fun a s' h => ((hf a).leads s').mono
      (fun _ _ h' => ⟨h'.heap.trans h.heap, h'.exits.trans h.exits⟩)
      fun _ _ h' => ⟨h'.heap.trans h.heap, h'.exits.trans h.exits⟩)
    fun _ _ h => h)

theorem withdraws_modifyMachine {g : Machine → Machine} (hg : ∀ m, (g m).exits.items <:+ m.exits.items) :
    Withdraws (modifyMachine g) := ⟨fun s => ⟨rfl, hg s.machine⟩⟩

theorem withdraws_operand : Withdraws operand where
  leads s := by
    unfold Leads operand
    cases s.machine.control with
    | pair id => exact ⟨rfl, List.suffix_refl _⟩
    | _ => exact .refl s

theorem withdraws_operandSymbol : Withdraws operandSymbol := by
  refine withdraws_operand.bind fun v => Looks.withdraws ?_
  split
  · exact looks_pure _
  · exact looks_raise _ trivial

theorem withdraws_skipOperands : ∀ n, Withdraws (skipOperands n)
  | 0 => (looks_pure _).withdraws
  | n + 1 => withdraws_operand.bind fun _ => withdraws_skipOperands n

/-- Only the control moves. -/
theorem withdraws_fetch : Withdraws fetch := by
  refine (looks_view _ fun _ _ _ _ _ => rfl).withdraws.bind fun atEnd => ?_
  dsimp only
  split
  · exact (looks_fault_bind ..).withdraws
  · refine withdraws_operand.bind fun v => Looks.withdraws ?_
    split
    · exact looks_pure _
    · exact (looks_shown _).bind fun _ => looks_raise _ trivial

theorem withdraws_meet (target : Value) : Withdraws (meet target) := by
  refine Withdraws.bind ⟨fun s => ?_⟩ fun fetched => ?_
  · exact leads_attempt.2 ((withdraws_fetch.leads s).mono (fun _ _ h => h) fun _ _ h => h)
  · split
    · exact (looks_pure _).withdraws
    · exact ((looks_shown _).bind fun _ => looks_fault _).withdraws
    · exact ⟨fun s => .refl s⟩

/-- Popping leaves a part of the stack. -/
theorem Stack.items_pop?_suffix {s r : Stack α} {a : α} (h : s.pop? = some (a, r)) :
    r.items <:+ s.items := by
  obtain ⟨_ | ⟨b, items⟩, height, hs⟩ := s
  · cases h
  · cases h
    exact List.suffix_cons _ items

/-- So does cutting it. -/
theorem Stack.items_truncate_suffix (s : Stack α) (n : Nat) : (s.truncate n).items <:+ s.items :=
  List.drop_suffix _ _

/-- A return cuts the exits to those that the caller had. -/
theorem withdraws_returnToCaller : Withdraws returnToCaller where
  leads s := by
    unfold returnToCaller
    rw [leads_bind, leads_view]
    split
    · exact ⟨rfl, Stack.items_truncate_suffix _ _⟩
    · exact .refl s
    · exact .refl s

theorem withdraws_join : Withdraws Machine.join where
  leads s := by
    unfold Machine.join
    rw [leads_bind, leads_view]
    split
    · exact ⟨rfl, List.suffix_refl _⟩
    · exact .refl s

theorem withdraws_endTagbody : Withdraws endTagbody where
  leads s := by
    unfold endTagbody
    rw [leads_bind, leads_view]
    split
    · next hpop => exact ⟨rfl, Stack.items_pop?_suffix hpop⟩
    · exact .refl s

/-- A block is taken off, whether or not it is the one looked for. -/
theorem withdraws_leaveBlock (name target value : Value) : Withdraws (leaveBlock name target value) where
  leads s := by
    unfold leaveBlock
    rw [leads_bind, leads_view]
    split
    · next hpop =>
      have hleft := Stack.items_pop?_suffix hpop
      dsimp only
      split
      · exact .refl s
      · rw [leads_bind, leads_modifyMachine]
        split <;> exact ⟨rfl, hleft⟩
    · exact .refl s

/-- Bindings are on a stack of their own. -/
theorem withdraws_unbindSpecial (id : SymbolId) : Withdraws (unbindSpecial id) where
  leads s := by
    rw [leads_unbindSpecial]
    split
    · exact .refl s
    · dsimp only
      split <;> exact ⟨rfl, List.suffix_refl _⟩

theorem withdraws_count : Withdraws count where
  leads s := by
    unfold count
    rw [leads_bind, leads_modifyMachine, leads_bind, leads_view]
    dsimp only [id]
    split
    · split <;> exact ⟨rfl, List.suffix_refl _⟩
    · exact ⟨rfl, List.suffix_refl _⟩

theorem withdraws_noteStep (code : Opcode) : Withdraws (noteStep code) where
  leads s := by
    obtain ⟨log, -, hlog⟩ := noteStep_ends code s
    exact (leads_of_ok hlog).2 ⟨rfl, List.suffix_refl _⟩

/-- What a walk does at an instruction. -/
theorem withdraws_pass (target value : Value) (skipped : Nat) (code : Opcode) :
    Withdraws (pass target value skipped code) := by
  have hpure (next : Option Nat) : Withdraws (pure next : LispM (Option Nat)) := (looks_pure _).withdraws
  -- A walk takes entries off the dump, and puts none on it.
  cases code with
  | stop => exact ((looks_shown _).bind fun _ => looks_fault _).withdraws
  | rtn => exact withdraws_returnToCaller.bind fun _ => hpure _
  | join => exact withdraws_join.bind fun _ => hpure _
  | tsel =>
    refine withdraws_operand.bind fun code => withdraws_operand.bind fun _ => Withdraws.bind ?_ fun _ => hpure _
    exact withdraws_modifyMachine fun _ => List.suffix_refl _
  | blockend =>
    refine withdraws_operand.bind fun name => ?_
    cases skipped with
    | succ skipped => exact hpure _
    | zero => exact (withdraws_leaveBlock ..).bind fun _ => hpure _
  | tagend =>
    cases skipped with
    | succ skipped => exact hpure _
    | zero => exact withdraws_endTagbody.bind fun _ => hpure _
  | unbind =>
    refine withdraws_operandSymbol.bind fun symbol => ?_
    cases skipped with
    | succ skipped => exact hpure _
    | zero => exact (withdraws_unbindSpecial symbol).bind fun _ => hpure _
  | _ => exact (withdraws_skipOperands _).bind fun _ => hpure _

/-! ## On the detour -/

namespace LastCall

variable {c : LastCall} {s t s' t' : Interpreter}

/-- The second interpreter is on the detour, and will return to the caller from there. -/
structure OnDetour (c : LastCall) (s t : Interpreter) : Prop where
  parallel : Parallel c.Detour s t
  settled : c.Settled s.machine.exits
  returns : s.image.heap.AtReturn c.code

/-- The second interpreter is where the first one is, or on the detour. -/
def Together (c : LastCall) (s t : Interpreter) : Prop := Parallel .same s t ∨ c.OnDetour s t

/-- Fewer exits are still further out. -/
theorem Settled.suffix {e e' : Stack Exit} (h : c.Settled e) (hs : e'.items <:+ e.items) : c.Settled e' := by
  intro x hx
  obtain ⟨pre, hpre⟩ := hs
  have hlen : e.height - c.exits - pre.length = e'.height - c.exits := by
    rw [e.height_eq, e'.height_eq, ← hpre, List.length_append]
    omega
  refine h x ?_
  rw [Stack.truncate, Stack.items_drop, ← hpre, List.drop_append, hlen]
  exact List.mem_append_right _ hx

/-- Where exits are left only, the machine stays on the detour. -/
theorem OnDetour.withdrawn (h : c.OnDetour s t) (hparallel : Parallel c.Detour s' t')
    (hs : Withdrawn s s') : c.OnDetour s' t' :=
  ⟨hparallel, h.settled.suffix hs.exits, hs.heap ▸ h.returns⟩

/-- What goes together and leaves no more than exits stays on the detour. -/
theorem OnDetour.matches_withdraws (h : c.OnDetour s t) {x : LispM α}
    (hx : StackLisp.Together (Parallel c.Detour) x x) (hw : Withdraws x) :
    Matches c.OnDetour (x s) (x t) := by
  have hrun := hx.run h.parallel
  have hleft := hw.leads s
  unfold Leads at hleft
  generalize x s = r, x t = r' at hrun hleft
  cases hrun with
  | ok h' => exact .ok (h.withdrawn h' hleft)
  | error h' => exact .error (h.withdrawn h' hleft)

/-- A walk goes together at an instruction that is no return. -/
theorem OnDetour.matches_pass (h : c.OnDetour s t) (target value : Value) (skipped : Nat) {code : Opcode}
    (hrtn : code ≠ .rtn) :
    Matches c.Together (pass target value skipped code s) (pass target value skipped code t) := by
  have hrun := ((together_turningCongruence c.carried).pass target value skipped hrtn).run
    (h.parallel.mono fun _ _ _ _ => .inr)
  have hleft := (withdraws_pass target value skipped code).leads s
  unfold Leads at hleft
  have hback {s' t' : Interpreter} (h' : Parallel c.ways s' t') (hs : Withdrawn s s') : c.Together s' t' := by
    obtain ⟨hmax, hsame | hdetour⟩ := h'
    · exact .inl (.intro hmax hsame)
    · exact .inr (h.withdrawn (.intro hmax hdetour) hs)
  generalize pass target value skipped code s = r, pass target value skipped code t = r' at hrun hleft
  cases hrun with
  | ok h' => exact .ok (hback h' hleft)
  | error h' => exact .error (hback h' hleft)

/-- In either case the dumps and the exits are related. -/
theorem Together.ways (h : c.Together s t) : Parallel c.ways s t :=
  h.elim (fun h => h.mono fun _ _ _ _ => .inl) fun h => h.parallel.mono fun _ _ _ _ => .inr

/-- Returning goes together, or it is the turn of the detour. -/
theorem OnDetour.matches_returnToCaller (h : c.OnDetour s t) :
    Matches c.Together (returnToCaller s) (returnToCaller t) ∨
      ∃ s' t', returnToCaller s = .ok () s' ∧ returnToCaller t = .ok () t' ∧ c.Owes s' t' ∧
        s'.image.heap.AtReturn c.code := by
  have hleft := withdraws_returnToCaller.leads s
  unfold Leads at hleft
  rcases LastCall.matches_returnToCaller h.parallel h.settled with hrun | ⟨s', t', hs', ht', howes⟩
  · refine .inl ?_
    generalize returnToCaller s = r, returnToCaller t = r' at hrun hleft
    cases hrun with
    | ok h' => exact .ok (.inr (h.withdrawn h' hleft))
    | error h' => exact .error (.inr (h.withdrawn h' hleft))
  · rw [hs'] at hleft
    exact .inr ⟨s', t', hs', ht', howes, hleft.heap ▸ h.returns⟩

/-- A walk to the end of a block comes to the same end from the detour. -/
theorem OnDetour.nearly_exitBlock (target value : Value) :
    ∀ (fuel skipped : Nat) {s t : Interpreter}, c.OnDetour s t →
      Nearly c.Together (exitBlock target value fuel skipped s) (exitBlock target value fuel skipped t)
        (exitBlock target value (fuel + 1) skipped t)
  | 0, skipped, s, t, _ => .endless ⟨s, by rw [exitBlock_zero]; rfl⟩ ⟨t, by rw [exitBlock_zero]; rfl⟩
  | fuel + 1, skipped, s, t, h => by
    rw [exitBlock_succ, exitBlock_succ target value (fuel + 1)]
    refine Nearly.bind (.of_matches (h.matches_withdraws ((quiet_meet target).even.together c.Detour) (withdraws_meet target)) (.inl rfl))
      (fun code s₁ t₁ _ h₁ => ?_) fun _ _ => .inr
    -- What is left of the walk, with or without the detour still ahead.
    have hgoon {s₂ t₂ : Interpreter} (h₂ : c.Together s₂ t₂) (skipped : Nat) :
        Nearly c.Together (exitBlock target value fuel skipped s₂)
          (exitBlock target value fuel skipped t₂) (exitBlock target value (fuel + 1) skipped t₂) := by
      rcases h₂ with h₂ | h₂
      · exact (nearly_exitBlock_same h₂ target value fuel skipped).mono fun _ _ => .inl
      · exact nearly_exitBlock target value fuel skipped h₂
    by_cases hrtn : code = .rtn
    · subst hrtn
      have hpass (s : Interpreter) : pass target value skipped .rtn s =
          (do returnToCaller; return some skipped : LispM (Option Nat)) s := rfl
      rcases h₁.matches_returnToCaller with hrun | ⟨s₂, t₂, hs₂, ht₂, howes, hreturn⟩
      · have hpassed : Matches c.Together (pass target value skipped .rtn s₁)
            (pass target value skipped .rtn t₁) := hrun.bind_pure (some skipped)
        refine Nearly.bind (.of_matches hpassed (.inl rfl)) (fun next s₂ t₂ _ h₂ => ?_) fun _ _ h => h
        cases next with
        | none => exact .alike (.ok h₂) (.inl rfl)
        | some skipped => exact hgoon h₂ skipped
      -- The walk in `t` comes to the code that only returns, and takes one more step there.
      · obtain ⟨t₃, hsame, hstep⟩ := howes.exitBlock hreturn target value skipped
        simp only [Bind.bind, EStateM.bind, hpass, hs₂, ht₂]
        refine .alike ?_ ((agree_exitBlock target value fuel skipped).agrees t₂)
        refine (?_ : Matches _ (exitBlock target value fuel skipped s₂) (exitBlock target value (fuel + 1) skipped t₂))
        rw [hstep]
        exact ((together_machineCongruence.exitBlock target value fuel skipped).run hsame).mono fun _ _ => .inl
    · refine Nearly.bind (.of_matches (h₁.matches_pass target value skipped hrtn) (.inl rfl))
        (fun next s₂ t₂ _ h₂ => ?_) fun _ _ h => h
      cases next with
      | none => exact .alike (.ok h₂) (.inl rfl)
      | some skipped => exact hgoon h₂ skipped

/-- A step goes together, or it is the return to the detour. -/
theorem OnDetour.matches_step (h : c.OnDetour s t) :
    Matches (Parallel c.ways) (step s) (step t) ∨
      ∃ s' t', step s = .ok .next s' ∧ step t = .ok .next t' ∧ c.Owes s' t' ∧
        s'.image.heap.AtReturn c.code := by
  -- A step fetches an operation code and executes it. Fetching is the same on both sides.
  have hstep : step = (do count; let code ← fetch; noteStep code; return code) >>= Machine.execute := by
    rw [step_eq]
    simp only [bind_assoc, pure_bind]
  have hfetch := h.matches_withdraws
    ((together_count c.Detour).bind fun _ => (quiet_fetch.even.bind fun code =>
      (quiet_noteStep code).even.bind fun _ => even_pure code).together c.Detour)
    (withdraws_count.bind fun _ => withdraws_fetch.bind fun code =>
      (withdraws_noteStep code).bind fun _ => (looks_pure code).withdraws)
  rw [hstep]
  generalize (do count; let code ← fetch; noteStep code; return code : LispM Opcode) = x at hfetch
  simp only [Bind.bind, EStateM.bind]
  generalize x s = r, x t = r' at hfetch
  cases hfetch with
  | error h₁ => exact .inl (.error (Together.ways (.inr h₁)))
  | @ok code s₁ t₁ h₁ =>
    -- Only a return looks at the top of the dump, where the detour may be.
    by_cases hrtn : code = .rtn
    · subst hrtn
      rcases h₁.matches_returnToCaller with hrun | ⟨s₂, t₂, hs₂, ht₂, howes, hreturn⟩
      · have hreturned : Matches c.Together (Machine.execute .rtn s₁) (Machine.execute .rtn t₁) :=
          hrun.bind_pure Flow.next
        exact .inl (hreturned.mono fun _ _ => Together.ways)
      · refine .inr ⟨s₂, t₂, ?_, ?_, howes, hreturn⟩
        · simp only [Machine.execute, Bind.bind, EStateM.bind, hs₂]
          rfl
        · simp only [Machine.execute, Bind.bind, EStateM.bind, ht₂]
          rfl
    · exact .inl ((together_executeInstruction c.carried hrtn).run (Together.ways (.inr h₁)))

/-- What the machine asks for is served alike. -/
theorem OnDetour.nearly_serve (h : c.OnDetour s t) (fuel : Nat) (r : Request) :
    Nearly (Parallel c.ways) (serve (compileFrom fuel) (runFrom fuel .next) fuel r s)
      (serve (compileFrom fuel) (runFrom fuel .next) fuel r t)
      (serve (compileFrom (fuel + 1)) (runFrom (fuel + 1) .next) (fuel + 1) r t) := by
  -- Every request but an exit from a block is served alike, for it does not look below the entry
  -- that differs.
  have hserve (hr : ∀ target value, r ≠ .returnFrom target value) :
      Nearly (Parallel c.ways) (serve (compileFrom fuel) (runFrom fuel .next) fuel r s)
        (serve (compileFrom fuel) (runFrom fuel .next) fuel r t)
        (serve (compileFrom (fuel + 1)) (runFrom (fuel + 1) .next) (fuel + 1) r t) := by
    obtain ⟨hc, hrun⟩ := agree_engine fuel
    refine .of_matches (StackLisp.Together.run ?_ (Together.ways (.inr h))) ((agree_serve hc (hrun .next) fuel r).agrees t)
    refine (together_turningCongruence c.carried).serve
      ((unseen_parallel c.ways).congruence.compileApart (together_compileFrom c.carried fuel))
      (together_execute (together_runFrom fuel .next)) fuel ?_ ?_
    · exact fun argc mode _ => together_call c.carried argc mode
    · exact fun target value heq => absurd heq (hr target value)
  cases r with
  | returnFrom target value =>
    refine Nearly.bind (h.nearly_exitBlock target value fuel 0) (fun _ s' t' _ h' => ?_) fun _ _ => Together.ways
    exact .alike (.ok h'.ways) (.inl rfl)
  | _ => exact hserve (by simp)

/-- Everything, whatever the dumps and the exits are. -/
theorem nearly_runFrom_ways (h : Parallel c.ways s t) {fuel : Nat} {flow : Flow}
    (hdetour : Parallel c.Detour s t → Nearly (Parallel fun _ _ _ _ => True) (runFrom fuel flow s)
      (runFrom fuel flow t) (runFrom (fuel + 1) flow t)) :
    Nearly (Parallel fun _ _ _ _ => True) (runFrom fuel flow s) (runFrom fuel flow t)
      (runFrom (fuel + 1) flow t) := by
  obtain ⟨hmax, hsame | h⟩ := h
  · exact (nearly_runFrom_same (.intro hmax hsame) fuel flow).mono
      fun _ _ => Parallel.mono fun _ _ _ _ _ => trivial
  · exact hdetour (.intro hmax h)

end LastCall

end StackLisp
