import StackLisp.Proofs.Binding

/-!
# Symbols and constants

The symbols of an interpreter stay what they are, whatever is read, compiled, run or
registered in it (`Session.symbols_stay`). The name of an interned symbol leads to it, and to
no other; a fresh symbol is a new one, and no name ever leads to it; symbols keep their
names. The constants `nil`, `t` and the keywords stand for themselves: they have themselves
for values, are not special, never bound and have no function.

A value cell is changed by an assignment, which refuses constants, and by a dynamic binding,
which does not. But code binds special symbols only, and no constant is one
(`SymbolTable.Consistent`, which every interpreter in order is).
-/

namespace StackLisp

open Interpreter Layout Machine Compiler

/-! ## The value of a constant -/

/-- The form evaluates to itself, if there is room for its code and two steps are allowed. -/
def Interpreter.EvaluatesToItself (s : Interpreter) (form : Value) : Prop :=
  Leads (Interpreter.eval form) s (fun v _ => v = form)
    fun e _ => e = .error .heapOverflow ∨ e = .error .stepLimit

section

variable {L : Layout} {s : Interpreter} {id : SymbolId} {c k v : Value}

/-- Making an instruction, for which there may be no room. -/
theorem leads_emit_instr (hs : Sound L s) {code : Opcode} {vs : List Value}
    (hvs : ∀ v ∈ vs, v.op? = none) (hcode : code.isPlain vs) :
    Leads (emit code vs k) s
      (fun c s' => ∃ L', Evolves L s L' s' ∧ L'.Instr s'.image.heap code vs c k ∧
        s'.image.symbols = s.image.symbols)
      fun e _ => e = .error .heapOverflow := by
  refine (Leads.and (safe_emit_instr hs hvs hcode) ((allocates_emit code vs k).leads s)).mono ?_ ?_
  · rintro c _ ⟨⟨L', e, instr, -⟩, h, -, rfl⟩
    exact ⟨L', e, instr, rfl⟩
  · rintro e _ ⟨-, h, he, rfl⟩
    exact he.overflows.1

/-- What stands for itself is compiled as a constant. -/
theorem compileForm_ofSymbol {compile : CompileRule} {expand : ExpandRule} {env : LexicalEnv}
    (hs : Sound L s) (hid : s.image.symbols.StandsForItself id) :
    compileForm compile expand (.ofSymbol id) env k s = emit .ldc [.ofSymbol id] k s := by
  by_cases hfirst : id = .nil ∨ id = .t
  · rcases hfirst with rfl | rfl <;> rfl
  · obtain ⟨hnil, ht⟩ := not_or.1 hfirst
    obtain ⟨⟨-, hinterned⟩, hkeyword⟩ := (hid.resolve_left hnil).resolve_left ht
    have hconstant := hs.consistent.constant id hid
    have hvalue : Value.ofSymbol id = .symbol id := by simp [Value.ofSymbol, hnil, ht]
    have hname : (s.image.symbols.name id).startsWith ":" = true := by
      rw [isKeywordName, Bool.and_eq_true] at hkeyword
      exact hkeyword.1
    -- Beside `nil` and `t`, a symbol that stands for itself is an interned keyword, and the
    -- compiler asks for no more.
    have hisKeyword : s.image.symbols.isKeyword id = true := by
      simp only [SymbolTable.isKeyword, Bool.and_eq_true]
      exact ⟨⟨hinterned, hconstant⟩, hname⟩
    rw [hvalue]
    change compileSymbol id env k s = _
    simp only [compileSymbol, Bind.bind, EStateM.bind, asks, hisKeyword, if_true]

/-- The code of a form that is compiled as a constant. -/
theorem leads_compileToplevel_constant {compile : CompileRule} (hs : Sound L s) (hv : v.op? = none)
    (hconstant : ∀ {L' : Layout} {s' : Interpreter} {k : Value}, Sound L' s' →
      s'.image.symbols = s.image.symbols → compile v [] k s' = emit .ldc [v] k s') :
    Leads (compileToplevel compile v) s
      (fun c s' => ∃ (L' : Layout) (k : Value), Evolves L s L' s' ∧
        L'.Instr s'.image.heap .ldc [v] c k ∧ L'.Instr s'.image.heap .stop [] k .nil)
      fun e _ => e = .error .heapOverflow := by
  unfold compileToplevel
  rw [leads_bind, leads_modifyScopes, leads_bind]
  refine leads_record nofun fun log hmarks => ?_
  -- The notes of the compiler are cleared, and the code is made from its end.
  have hcleared : Sound L { s with scopes := { s.scopes.clear with pendingTails := #[] } } :=
    hs.scopes ⟨nofun, nofun⟩
  have hs₁ : Sound L { s with
      scopes := { s.scopes.clear with pendingTails := #[] }
      image.log := log } := hcleared.apart rfl rfl rfl rfl rfl rfl
  rw [leads_bind]
  refine (leads_emit_instr hs₁ (by simp) rfl).mono ?_ fun _ _ h => h
  rintro stop s₂ ⟨L₂, e₂, hstop, hsymbols⟩
  rw [leads_bind, leads_attempt, Leads, hconstant e₂.sound hsymbols]
  refine (leads_emit_instr e₂.sound (by simpa using hv) rfl).mono ?_ ?_
  · rintro code s₃ ⟨L₃, e₃, hldc, -⟩
    have e := Evolution.trans e₂ e₃
    exact ⟨L₃, stop, ⟨e.grows, e.sound, e.registers, e.bindings,
      fun hi => e.history (hi.of_eq rfl rfl hmarks)⟩, hldc, hstop.grows e₃.grows (by decide)⟩
  · rintro _ s₃ rfl
    rfl

/-- A step whose instruction is known. -/
theorem leads_step_at {pair : PairId} {code : Opcode} {ok : Flow → Interpreter → Prop}
    {err : Failure → Interpreter → Prop} (hcontrol : s.machine.control = .pair pair)
    (hop : s.image.heap.car pair = .op code) (limit : ∀ s', err (.error .stepLimit) s')
    (executed : ∀ s', Alike s s' → s'.machine.control = s.image.heap.cdr pair →
      Leads (Machine.execute code) s' ok err) : Leads step s ok err := by
  refine leads_step (fun e s' hwhy _ => ?_) fun {pair' code' s'} hid hcode hcontrol' ha _ => ?_
  · obtain rfl := hwhy.resolve_right fun h => h pair code hcontrol hop
    exact limit s'
  · obtain rfl : pair = pair' := by simpa using hcontrol.symm.trans hid
    obtain rfl : code = code' := by simpa using hop.symm.trans hcode
    exact executed s' ha hcontrol'

/-- Code that loads a value and stops leaves it on the stack. -/
theorem leads_runFrom_constant {fuel : Nat} {h : Heap} (hheap : s.image.heap = h) (hcontrol : s.machine.control = c)
    (hldc : L.Instr h .ldc [v] c k) (hstop : L.Instr h .stop [] k .nil) :
    Leads (runFrom (fuel + 3) .next) s
      (fun _ s' => s'.machine.stack.top? = some v ∧ s'.machine.bindings = s.machine.bindings)
      fun e _ => e = .error .stepLimit := by
  subst hheap
  obtain ⟨-, hop, operands⟩ := hldc
  generalize hrest : s.image.heap.cdr _ = rest at operands
  obtain _ | ⟨-, -, hnil⟩ := operands
  obtain rfl := hnil.nil_inv
  generalize hend : s.image.heap.cdr _ = last at hstop
  -- Two steps: the value is loaded, and the program stops.
  obtain ⟨-, hop', -⟩ := hstop
  rw [runFrom, leads_bind]
  refine leads_step_at hcontrol hop (fun _ => rfl) fun s₁ h₁ hcontrol₁ => ?_
  have hoperand := hcontrol₁.trans hrest
  unfold Machine.execute
  rw [leads_bind]
  refine leads_operand (fun hnone => absurd hoperand (hnone _)) fun pair hpair => ?_
  obtain rfl : _ = pair := by simpa using hoperand.symm.trans hpair
  rw [done, leads_bind, leads_push, leads_pure, runFrom, leads_bind]
  refine leads_step_at ((congrArg (Heap.cdr · _) h₁.heap).trans hend)
    ((congrArg (Heap.car · _) h₁.heap).trans hop') (fun _ => rfl) fun s₂ h₂ _ => ?_
  rw [Machine.execute, leads_pure, runFrom, leads_pure, h₂.stack, Stack.top?_eq_pop?,
    Stack.pop?_push, h₁.heap]
  exact ⟨rfl, h₂.bindings.trans h₁.bindings⟩

/-- What stands for itself evaluates to itself. -/
theorem Sound.evaluatesToItself (hs : Sound L s) (hid : s.image.symbols.StandsForItself id) :
    s.EvaluatesToItself (.ofSymbol id) := by
  -- Three units of fuel are enough to load a constant and to stop.
  obtain ⟨n, hn⟩ : ∃ n, horizon = n + 3 := ⟨horizon - 3, by decide +kernel⟩
  unfold EvaluatesToItself Interpreter.eval Interpreter.compile
  rw [leads_bind]
  refine (leads_compileToplevel_constant hs (visible_ofSymbol L id).op?_eq_none ?_).mono ?_
    fun _ _ => .inl
  · intro L' s' k hs' hsymbols
    rw [hn, compileFrom]
    exact compileForm_ofSymbol hs' (hsymbols ▸ hid)
  rintro code s₁ ⟨L', k, -, hldc, hstop⟩
  rw [leads_bind, clearCounts, leads_modifyMachine]
  refine leads_execute (fun h hargs => by cases hargs) fun env h hargs => ?_
  cases hargs
  rw [Interpreter.run, hn]
  refine Leads.mono (leads_runFrom_constant (c := code) rfl rfl hldc hstop)
    (fun _ s₃ htop => ⟨fun v s₄ hv _ => ?_, fun hnone => ?_⟩) fun e s₃ he => .inr he
  · exact Option.some.inj (hv.symm.trans htop.1)
  · cases hnone.symm.trans htop.1

/-! ## The symbols of an interpreter -/

/-- A fresh symbol is none of those before, and no name leads to it, however the table goes
    on. -/
def SymbolTable.MakesFresh (t : SymbolTable) (stem : String) : Prop :=
  Leads (SymbolTable.gensym stem) t
    (fun id t' => t.size ≤ id.index ∧ id.index < t'.size ∧ t.Keeps t' ∧
      ∀ t'', t'.Keeps t'' → ∀ name, t''.find? name ≠ some id)
    fun _ _ => False

theorem SymbolTable.makesFresh (t : SymbolTable) (stem : String) : t.MakesFresh stem := by
  refine ⟨Nat.le_refl _, by simp [SymbolTable.size], .push .., fun t'' hkeeps name hfind => ?_⟩
  have hinterned := (of_find?_eq_some hfind).1.2
  rw [(hkeeps.get _ (by simp [SymbolTable.size])).interned] at hinterned
  simp [SymbolTable.get] at hinterned

/-- What an interpreter knows about its symbols. -/
structure Interpreter.KnowsSymbols (s : Interpreter) : Prop where
  /-- The name of an interned symbol leads to it. -/
  find_name : ∀ id, s.image.symbols.Interned id →
    s.image.symbols.find? (s.image.symbols.name id) = some id
  /-- A name leads to an interned symbol of that name only. -/
  name_find : ∀ name id, s.image.symbols.find? name = some id →
    s.image.symbols.Interned id ∧ s.image.symbols.name id = name
  /-- A constant has itself for its value. -/
  value : ∀ id, s.image.symbols.StandsForItself id →
    s.image.symbols.value id = .ok (.ofSymbol id) ∧ s.EvaluatesToItself (.ofSymbol id)
  /-- It is neither special nor bound, and has no function. -/
  cells : ∀ id, s.image.symbols.StandsForItself id → s.image.symbols.isSpecial id = false ∧
    (s.image.symbols.get id).bindingDepth = 0 ∧ s.image.symbols.cell id = .unbound

theorem Sound.knowsSymbols (hs : Sound L s) : s.KnowsSymbols where
  find_name := hs.consistent.named
  name_find _ _ := SymbolTable.of_find?_eq_some
  value id hid := by
    refine ⟨?_, hs.evaluatesToItself hid⟩
    rw [SymbolTable.value, hs.consistent.value id (hs.consistent.constant id hid)]
  cells id hid := by
    have hconstant := hs.consistent.constant id hid
    have hspecial := hs.consistent.special id hconstant
    refine ⟨hspecial, ?_, hs.consistent.cell id hconstant⟩
    -- Only special symbols are bound.
    have hnone : s.machine.bindings.items.countP (·.symbol = id) = 0 := by
      refine List.countP_eq_zero.2 fun x hx heq => ?_
      rw [← of_decide_eq_true heq, hs.bound x hx] at hspecial
      cases hspecial
    rw [hs.counts.depth id, hnone]
    rfl

end

/-- However the action ends, the symbols are still there by the same names. -/
def KeepsSymbols {α : Type} (x : LispM α) (s : Interpreter) : Prop :=
  Leads x s (fun _ s' => s.image.symbols.Keeps s'.image.symbols)
    fun _ s' => s.image.symbols.Keeps s'.image.symbols

theorem Steady.keepsSymbols {α : Type} {x : LispM α} (hx : Steady Retains (fun _ => True) x)
    (s : Interpreter) : KeepsSymbols x s :=
  (hx.leads s).mono (fun _ _ h => h.keeps) fun _ _ h => (h trivial).keeps

/-- Compilations and runs keep the symbols, from any state on. -/
theorem keepsSymbols_engine (fuel : Nat) (s : Interpreter) :
    (∀ form env cont, KeepsSymbols (compileFrom fuel form env cont) s) ∧
      ∀ flow, KeepsSymbols (runFrom fuel flow) s := by
  obtain ⟨hcompile, hrun⟩ := retains_machineCongruence.engine fuel
  exact ⟨fun form env cont => (hcompile form env cont).keepsSymbols s,
    fun flow => (hrun flow).keepsSymbols s⟩

/-! ## Sessions -/

/-- Something done in a session: a command, or the registration of a primitive that can be run
    on the numbers of arguments it accepts. -/
inductive Deed where
  | command (command : Command)
  | register (definition : PrimitiveDefinition)
      (takes : ∀ b n, definition.builtin = some b → definition.arity.accepts n → b.Takes n)

namespace Session

/-- Goes on by a deed. -/
def carryOut (session : Session) : Deed → Session
  | .command command => session.perform .plain command
  | .register definition _ => session.act (Image.register definition) fun _ session => session

section

variable {L : Layout} {session : Session}

theorem Orderly.withSymbols (ho : session.Orderly L) :
    session.Orderly (L.withSymbols session.interpreter.image.symbols) :=
  ho.evolves ho.sound.withSymbols

theorem Orderly.carryOut (ho : session.Orderly L) (deed : Deed) :
    ∃ L', L.Within L' ∧ (session.carryOut deed).Orderly L' := by
  cases deed with
  | command command => exact ho.perform Engine.plain_inOrder command
  | register definition takes =>
    unfold Session.carryOut
    exact ho.act (safe_register ho.sound takes) fun _ ho => ho

theorem Orderly.carryOutAll (ho : session.Orderly L) (deeds : List Deed) :
    ∃ L', L.Within L' ∧ (deeds.foldl Session.carryOut session).Orderly L' := by
  induction deeds generalizing L session with
  | nil => exact ⟨L, .refl L, ho⟩
  | cons deed deeds ih =>
    obtain ⟨L₁, hw₁, ho₁⟩ := ho.carryOut deed
    obtain ⟨L₂, hw₂, ho₂⟩ := ih ho₁
    exact ⟨L₂, hw₁.trans hw₂, ho₂⟩

end

/-- The symbols of an interpreter stay what they are. In every session, whatever is done in
    it: interned symbols and their names lead to each other, and the constants stand for
    themselves and for nothing else; the symbols keep their names whatever is done later, as
    they do during every compilation and run; and every fresh symbol is a new one, which no
    name ever leads to. -/
theorem symbols_stay (config : Config) (level : LogLevel) (deeds later : List Deed) :
    (deeds.foldl carryOut (start config level)).interpreter.KnowsSymbols ∧
      (deeds.foldl carryOut (start config level)).interpreter.image.symbols.Keeps
        ((deeds ++ later).foldl carryOut (start config level)).interpreter.image.symbols ∧
      (∀ fuel s, (∀ form env cont, KeepsSymbols (compileFrom fuel form env cont) s) ∧
        ∀ flow, KeepsSymbols (runFrom fuel flow) s) ∧
      ∀ (t : SymbolTable) (stem : String), t.MakesFresh stem := by
  obtain ⟨L₀, ho₀⟩ := orderly_start config level
  obtain ⟨L, -, ho⟩ := ho₀.carryOutAll deeds
  obtain ⟨L', hw, ho'⟩ := ho.withSymbols.carryOutAll later
  rw [List.foldl_append]
  exact ⟨ho.sound.knowsSymbols, hw.symbols.trans ho'.sound.symbols, keepsSymbols_engine,
    SymbolTable.makesFresh⟩

end Session

end StackLisp
