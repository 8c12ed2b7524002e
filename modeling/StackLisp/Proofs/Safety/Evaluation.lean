import StackLisp.Proofs.Safety.Form
import StackLisp.Proofs.Safety.Step

/-!
# Evaluation in order

Compiling and running depend on each other, and both are in order: by induction on the
bound, every form is compiled into code in order (`compiles_compileFrom`), and every run
of code in order goes through states in order until it stops (`safe_runFrom`). A run in
registers of its own leaves the registers and the bindings of the run around as they
were (`safe_executeCode`).
-/

namespace StackLisp

open Interpreter Layout Machine Compiler

/-- The machine has stopped, with one value on the stack. -/
def Stopped (n : Nat) (rest : List SavedValue) (L : Layout) (_ : Unit) (s : Interpreter) : Prop :=
  ∃ env, Inside n L rest [] env [.value] s

/-- The action runs code in order from its start until the machine stops. -/
def RunsInOrder (run : LispM Unit) : Prop :=
  ∀ {n : Nat} {L : Layout} {rest : List SavedValue} {s : Interpreter},
    Runs n L rest [] s.machine.control s → Safe (Goes n rest) L run s (Stopped n rest)

section

variable {n : Nat} {L L' : Layout} {rest : List SavedValue} {K : Trail} {s s' : Interpreter}
  {run : LispM Unit} {compile : CompileRule}

/-! ## Runs of their own -/

/-- A run and the value it leaves. -/
theorem RunsInOrder.safe_value (hrun : RunsInOrder run) (hr : Runs n L rest [] s.machine.control s) :
    Safe (Goes n rest) L (do run; pop) s fun L' v s' =>
      L'.Visible v ∧ s'.machine.bindings.items = rest := by
  refine (hrun hr).bind ?_
  rintro L₁ _ s₁ - ⟨env, hi⟩
  refine (hi.safe_moves hi.safe_pop).mono ?_
  rintro L₂ v s₂ - ⟨m, rfl, hv, -⟩
  exact ⟨hv, by rw [m.bindings, hi.bindings]; rfl⟩

/-- Running code in registers of its own. -/
theorem safe_executeCode (hrun : RunsInOrder run) {code : Value} (hs : Sound L s)
    (hcode : L.Code s.image.heap .toplevel [] [] [] code) :
    Safe Evolves L (execute run code []) s fun L' v _ => L'.Visible v := by
  let s₀ : Interpreter := { s with
    machine := { s.machine with
      toRegisters := { env := .nil, control := code }
      steps := if s.machine.nesting = 0 then 0 else s.machine.steps
      nesting := s.machine.nesting + 1 } }
  have hstart : Runs s.image.heap.frames.size L s.machine.bindings.items [] s₀.machine.control s₀ :=
    .code ⟨hs.registers rfl, Nat.le_refl _, trivial, .nil, ⟨[], [], .nil, rfl, ⟨.nil, nofun⟩⟩, rfl, rfl,
      rfl⟩ hcode
  -- The registers of the run around are put back in any case.
  have hback {L' : Layout} {s₁ : Interpreter}
      (g : Goes s.image.heap.frames.size s.machine.bindings.items L s₀ L' s₁)
      (hb : s₁.machine.bindings.items = s.machine.bindings.items) {nesting : Nat} :
      Evolves L s L' { s₁ with
        machine := { s₁.machine with toRegisters := s.machine.toRegisters, nesting } } :=
    ⟨g.grows, g.sound.registers rfl, rfl, Stack.ext hb, g.history⟩
  change Leads (attempt (do run; pop) >>= _) s₀ _ _
  rw [leads_bind, leads_attempt]
  refine Leads.mono (hrun.safe_value hstart) ?_ ?_
  · rintro v s₁ ⟨L', g, hv, hb⟩
    exact ⟨L', hback g hb, hv⟩
  · rintro e s₁ ⟨he, L', g⟩
    obtain ⟨popped, hitems⟩ := g.bindings
    have hunwind := unwindBindings_eq (s := { s₁ with machine.nesting := s₁.machine.nesting - 1 })
      hitems.symm
    rw [← s.machine.bindings.height_eq] at hunwind
    rw [leads_bind, leads_modifyMachine, leads_bind, leads_of_ok hunwind]
    have hbelow : (s₁.machine.bindings.truncate s.machine.bindings.height).items =
        s.machine.bindings.items := by
      rw [s.machine.bindings.height_eq, Stack.items_truncate g.bindings]
    exact ⟨he, L', g.grows, g.sound.unwind hitems.symm hbelow, rfl, Stack.ext hbelow,
      fun hi => (g.history hi).of_eq rfl rfl rfl⟩

/-! ## Calls from outside -/

/-- A list in two parts is built from its end. -/
theorem Heap.listWithTail_append (vs ws : List Value) (k : Value) :
    Heap.listWithTail (vs ++ ws) k = (Heap.listWithTail ws k >>= Heap.listWithTail vs) := by
  unfold Heap.listWithTail
  rw [List.foldrM_append]

section

variable {h : Heap}

/-- An instruction as a list. -/
theorem safe_instr {code : Opcode} {vs : List Value} {k : Value} (hL : L.Fits h)
    (hvs : ∀ v ∈ vs, v.op? = none) (hcode : code.isPlain vs) :
    Safe (Extends n) L (Heap.listWithTail (.op code :: vs) k) h fun L' c h' =>
      L'.Instr h' code vs c k := by
  unfold Heap.listWithTail
  rw [List.foldrM_cons]
  refine (safe_operands hL hvs).bind fun L₁ tail h₁ e₁ htail => ?_
  obtain ⟨hlen, htag⟩ := Opcode.isPlain_iff.1 hcode
  exact (safe_cons_instr e₁.fits htail hlen (absurd · htag)).mono fun _ _ _ _ hc => hc.1

/-- Values, loaded one after the other in front of code. -/
theorem safe_loads {b : Base} {env : List FrameShape} {ctx : List Item} :
    ∀ {vs : List Value} {st : List Slot} {L : Layout} {h : Heap} {k : Value}, L.Fits h →
      (∀ v ∈ vs, L.Visible v) →
      L.Code h b env (List.replicate vs.length .value ++ st) ctx k →
      Safe (Extends n) L (Heap.listWithTail (vs.flatMap fun v => [.op .ldc, v]) k) h fun L' c h' =>
        L'.Code h' b env st ctx c
  | [], _, _, _, _, hL, _, hk => Safe.pure hL.extends hk
  | v :: vs, st, L, h, k, hL, hv, hk => by
    rw [List.flatMap_cons, Heap.listWithTail_append]
    rw [List.length_cons, List.replicate_succ', List.append_assoc] at hk
    refine (safe_loads hL (fun w hw => hv w (List.mem_cons_of_mem _ hw)) hk).bind ?_
    intro L₁ c h₁ e₁ hc
    have hv₁ : L₁.Visible v := (hv v List.mem_cons_self).within e₁.grows.within
    refine (safe_instr e₁.fits (by simpa using hv₁.op?_eq_none) rfl).mono fun L₂ c₂ h₂ e₂ instr => ?_
    exact .ldc instr (hv₁.within e₂.grows.within) (hc.grows e₂.grows)

/-- The code of a call. -/
theorem safe_applyCode {f : Value} {args : List Value} (hL : L.Fits h) (hf : L.Visible f)
    (hargs : ∀ v ∈ args, L.Visible v) (hlen : args.length ≤ Heap.addressable) :
    Safe (Extends n) L (Heap.list ((f :: args).flatMap (fun v => [.op .ldc, v]) ++
      [.op .ap, .ofNat args.length, .op .stop])) h fun L' c h' =>
        L'.Code h' .toplevel [] [] [] c := by
  unfold Heap.list
  rw [Heap.listWithTail_append,
    show [Value.op .ap, .ofNat args.length, .op .stop] =
      [.op .ap, .ofNat args.length] ++ [.op .stop] from rfl, Heap.listWithTail_append, bind_assoc]
  -- The stream is made from its end: first `STOP`, then the call, then the loads.
  refine Safe.bind (safe_instr hL (by simp) rfl) fun L₁ stop h₁ e₁ hstop => ?_
  refine Safe.bind (safe_instr e₁.fits (by simp [Value.op?, Value.ofNat]) rfl)
    fun L₂ ap h₂ e₂ hap => ?_
  have hw := e₁.grows.within.trans e₂.grows.within
  refine safe_loads e₂.fits (fun v hv => ?_) ?_
  · rcases List.mem_cons.1 hv with rfl | hv
    · exact hf.within hw
    · exact (hargs v hv).within hw
  · exact .ap hap (Value.count?_ofNat hlen) (.stop (hstop.grows e₂.grows (by decide)))

end

/-- Calling a function value in a run of its own. -/
theorem safe_apply (hrun : RunsInOrder run) {f : Value} {args : List Value} (hs : Sound L s)
    (hf : L.Visible f) (hargs : ∀ v ∈ args, L.Visible v)
    (hlen : args.length ≤ Heap.addressable) :
    Safe Evolves L (apply run f args) s fun L' v _ => L'.Visible v := by
  refine Safe.bind (safe_heap hs (safe_applyCode hs.fits hf hargs hlen)) ?_
  intro L₁ code s₁ e₁ hcode
  exact safe_executeCode hrun e₁.sound hcode

/-! ## Macros -/

/-- Macros are expanded in order. -/
theorem RunsInOrder.expands (hrun : RunsInOrder run) : Expands (expandMacro run) := by
  intro L s f args hs hf hexpands hargs
  obtain ⟨m, hshape⟩ := hf
  obtain ⟨expander, n, hexpander, hn⟩ := hs.macros f _ hshape hexpands
  refine safe_asks_bind.2 (safe_asks_bind.2 ?_)
  simp only [hexpander]
  refine inert_elements.safe_bind hs.evolves fun r hitems => ?_
  cases r with
  | none => exact safe_raise hs.evolves trivial
  | some argv =>
    refine inert_checkArity.safe_bind hs.evolves fun _ _ => ?_
    refine Safe.bind (safe_heap hs (safe_alloc_closure hs.fits hn .nil)) ?_
    intro L₁ closure s₁ e₁ hclosure
    refine safe_apply hrun e₁.sound hclosure (fun v hv => ?_) ?_
    · exact e₁.visible (hs.fits.elements? hargs hitems v hv)
    · exact Nat.le_trans (hs.fits.length_elements? hargs hitems) hs.fits.addressable

/-- Expanding a form once gives data. -/
theorem safe_macroexpandOnce {expand : ExpandRule} (hx : Expands expand) {form : Value}
    (hs : Sound L s) (hform : L.Visible form) :
    Safe Evolves L (macroexpandOnce expand form) s fun L' p _ => L'.Visible p.1 := by
  refine safe_asks_bind.2 ?_
  split
  · next f args heq =>
    -- The form is a pair with the name of a macro in front, so the macro and its arguments are
    -- data.
    obtain ⟨hf, hexpands, hargs⟩ : L.Visible (.function f) ∧ (s.image.function f).isMacro ∧
        L.Visible args := by
      split at heq
      · next id =>
        split at heq
        · next head _ =>
          split at heq
          · next g hcell =>
            split at heq
            · next hexpands =>
              cases heq
              exact ⟨hs.cells head f hcell, hexpands, (hs.fits.data id hform).2.2⟩
            · cases heq
          · cases heq
        · cases heq
      · cases heq
    refine (hx hs hf hexpands hargs).bind fun L₁ expansion s₁ e₁ hexpansion => ?_
    exact Safe.pure e₁.sound.evolves hexpansion
  · exact Safe.pure hs.evolves hform

/-- Expanding a form as often as possible gives data. -/
theorem safe_macroexpandFrom {expand : ExpandRule} (hx : Expands expand) :
    ∀ {fuel : Nat} {L : Layout} {s : Interpreter} {form : Value}, Sound L s → L.Visible form →
      Safe Evolves L (macroexpandFrom expand fuel form) s fun L' v _ => L'.Visible v
  | 0, _, _, _, hs, _ => Safe.throw hs.evolves trivial
  | fuel + 1, L, s, form, hs, hform => by
    refine (safe_macroexpandOnce hx hs hform).bind ?_
    rintro L₁ ⟨expansion, expanded⟩ s₁ e₁ hexpansion
    simp only
    split
    · exact safe_macroexpandFrom hx e₁.sound hexpansion
    · exact Safe.pure e₁.sound.evolves hexpansion

/-! ## Requests -/

/-- A form at top level is compiled to code that runs outside of all functions. -/
theorem safe_compileToplevel (hc : Compiles compile) {form : Value} (hs : Sound L s)
    (hform : L.Visible form) :
    Safe Evolves L (compileToplevel compile form) s fun L' c s' =>
      L'.Code s'.image.heap .toplevel [] [] [] c := by
  refine safe_modifyScopes_bind hs ⟨nofun, nofun⟩ fun hs₀ => ?_
  refine Safe.bind (safe_record hs₀ nofun) fun L₁ _ s₁ e₁ _ => ?_
  refine Safe.bind (safe_emit_instr e₁.sound (by simp) rfl) fun L₂ stop s₂ e₂ hstop => ?_
  have e := Evolution.trans e₁ e₂
  have hr : Ready L₂ s₂ [] .toplevel [.value] [] stop :=
    ⟨e₂.sound, ⟨Nat.zero_le _, nofun⟩, .stop hstop.1⟩
  refine safe_attempt_bind (hc hr (e.visible hform)) (fun L₃ code s₃ e₃ hr₃ => ?_)
    fun L₃ failure s₃ e₃ hfailure => ?_
  · exact Safe.pure hr₃.refl hr₃.code
  · refine safe_modifyScopes_bind e₃.sound ⟨e₃.sound.noted.tails, nofun⟩ fun hs₃ => ?_
    exact Safe.throw hs₃.evolves hfailure

/-- The same for a form that is compiled while others wait. -/
theorem safe_compileApart (hc : Compiles compile) {form : Value} (hs : Sound L s)
    (hform : L.Visible form) :
    Safe Evolves L (compileApart compile form) s fun L' c s' =>
      L'.Code s'.image.heap .toplevel [] [] [] c := by
  refine safe_get_bind.2 (safe_modifyScopes_bind hs ⟨nofun, nofun⟩ fun hs₀ => ?_)
  refine safe_finally_scopes (safe_compileToplevel hc hs₀ hform) (fun e => ?_) fun hcode _ => hcode
  exact hs.noted.grows e.grows

/-- Serving a request. -/
theorem safe_serve (hc : Compiles compile) (hrun : RunsInOrder run) {fuel : Nat} {r : Request}
    (hf : Flows n L rest K (.request r) s) :
    Safe (Goes n rest) L (serve compile run fuel r) s (Continues n rest K) := by
  obtain ⟨env, st, hy, hcode⟩ := hf
  -- Each request finds its operands in order, and leaves one value in place of them, or goes on
  -- elsewhere.
  cases r with
  | call argc mode => exact (safe_call hy.1 hcode hy.2).mono fun _ _ _ _ h => h.1
  | returnFrom target value =>
    refine (safe_exitBlock hy.2 hcode hy.1 fuel).bind fun L' _ s' g hgo => ?_
    exact Safe.pure (Evolution.refl g) hgo
  | macroexpandOnce form =>
    obtain ⟨hform, hi⟩ := hy
    refine hi.safe_yields hcode ?_
    refine (hi.quiet (safe_macroexpandOnce hrun.expands hi.sound hform)).bind ?_
    rintro L₁ ⟨expansion, _⟩ s₁ - ⟨hexpansion, hi₁⟩
    exact hi₁.safe_done hexpansion
  | macroexpand form =>
    obtain ⟨hform, hi⟩ := hy
    refine hi.safe_yields hcode ?_
    refine (hi.quiet (safe_macroexpandFrom hrun.expands hi.sound hform)).bind ?_
    rintro L₁ expansion s₁ - ⟨hexpansion, hi₁⟩
    exact hi₁.safe_done hexpansion
  | eval form =>
    obtain ⟨hform, hi⟩ := hy
    refine hi.safe_yields hcode ?_
    refine (hi.quiet (safe_compileApart hc hi.sound hform)).bind ?_
    rintro L₁ code s₁ - ⟨hcode₁, hi₁⟩
    refine (hi₁.quiet (safe_executeCode hrun hi₁.sound hcode₁)).bind ?_
    rintro L₂ v s₂ - ⟨hv, hi₂⟩
    exact hi₂.safe_done hv

end

/-! ## Compiling and running -/

/-- However a run goes on, it has come to where it is in order. -/
theorem Flows.goes {n : Nat} {L : Layout} {rest : List SavedValue} {K : Trail} {s : Interpreter} :
    ∀ {flow : Flow}, Flows n L rest K flow s → Goes n rest L s L s
  | .next, hr => Runs.goes hr
  | .stop, ⟨_, _, _, hi⟩ => hi.goes
  | .request r, ⟨_, _, hy, _⟩ => by
    cases r with
    | call => exact hy.1.goes
    | _ => exact hy.2.goes

/-- Within every bound, forms are compiled and code is run in order. -/
theorem compiles_and_runs (fuel : Nat) :
    Compiles (compileFrom fuel) ∧
      ∀ {n : Nat} {L : Layout} {rest : List SavedValue} {K : Trail} {flow : Flow} {s : Interpreter},
        Flows n L rest K flow s →
        Safe (Goes n rest) L (runFrom fuel flow) s (Stopped n rest) := by
  -- The induction is on the fuel, for the compiler and for runs together, as each may ask for the
  -- other with less of it.
  induction fuel with
  | zero =>
    exact ⟨fun hr _ => Safe.throw hr.refl trivial, fun hf => Safe.throw hf.goes trivial⟩
  | succ fuel ih =>
    obtain ⟨hc, hr⟩ := ih
    have hrun : RunsInOrder (runFrom fuel .next) := fun hruns => hr hruns
    refine ⟨compiles_compileForm hc hrun.expands, fun {n L rest K flow s} hf => ?_⟩
    cases flow with
    | stop =>
      obtain ⟨env, rfl, -, hi⟩ := hf
      exact Safe.pure hi.goes ⟨env, hi⟩
    | next =>
      refine (safe_step hf).bind ?_
      rintro L' flow s' - ⟨K', -, hf'⟩
      exact hr hf'
    | request r =>
      refine (safe_serve hc hrun hf).bind ?_
      rintro L' flow s' - ⟨K', -, hf'⟩
      exact hr hf'

end StackLisp
