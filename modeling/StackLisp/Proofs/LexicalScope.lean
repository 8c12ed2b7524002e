import StackLisp.Proofs.Enclosure
import StackLisp.Proofs.Safety.Session

/-!
# Scopes mirror what encloses a form

What the compiler knows about the exits around a form is what encloses the form in the text.
This is so at every form inside of a form, whatever is compiled or run in between, and after a
failure as after a success.

The compiler that is told what encloses a form, and looks at every form whether the scopes say
the same, does what the compiler does, whatever it would do if they did not (`Mirrors`). Their
outline is as before after every compilation and every run (`Restores`). No failure is one for
want of a target but that of an exit without a target around it (`NeverUnmatched`).
-/

namespace StackLisp

open Interpreter Machine Compiler

variable {α β : Type} {x y : LispM α} {e e' : Enclosure} {s s' : Interpreter} {c c' : Scopes}

/-! ## Outlines are restored -/

theorem Restores.leads (hx : Restores x) (s : Interpreter) :
    Leads x s (fun _ s' => s'.scopes.outline = s.scopes.outline)
      fun _ s' => s'.scopes.outline = s.scopes.outline :=
  (Upholds.leads hx s).mono (fun _ _ h => h) fun _ _ h => h trivial

/-- It is enough to know the outline at the end, whether the action has failed or not. -/
theorem restores_of_leads (hx : ∀ s, Leads x s (fun _ s' => s'.scopes.outline = s.scopes.outline)
    fun _ s' => s'.scopes.outline = s.scopes.outline) : Restores x :=
  ⟨fun s => (hx s).mono (fun _ _ h => h) fun _ _ h _ => h⟩

theorem Quiet.restores (hx : Quiet x) : Restores x := hx.toCalms.restores

/-- The heap has nothing to do with the scopes. -/
theorem restores_heap (x : HeapM α) : Restores (liftM x : LispM α) :=
  restores_of_leads fun _ => leads_heap.2 (leads_trivial.mono (fun _ _ _ => rfl) fun _ _ _ => rfl)

theorem restores_modifyMachine (g : Machine → Machine) : Restores (modifyMachine g) :=
  restores_of_leads fun _ => rfl

/-- A change of the scopes. -/
theorem restores_modifyScopes {g : Scopes → Scopes} (hg : ∀ c, (g c).outline = c.outline) :
    Restores (modifyScopes g) := restores_of_leads fun s => leads_modifyScopes.2 (hg s.scopes)

/-- Of the calls that leave a block the outline says nothing. -/
theorem Scopes.outline_addPendingTail (c : Scopes) (pair : PairId) (crossed : Nat) :
    (c.addPendingTail pair crossed).outline = c.outline := by
  simp only [outline, addPendingTail, List.map_append, List.map_map, Function.comp_def]
  rw [← List.map_append, List.take_append_drop]

/-- Marking a block as captured is no change of the outline. -/
theorem Scopes.outline_capture {name : Value} {depth : Nat} {bs bs' : List BlockScope}
    (h : capture name depth bs = some bs') :
    bs'.map (fun b => (b.name, b.functionDepth)) = bs.map fun b => (b.name, b.functionDepth) := by
  induction bs generalizing bs' with
  | nil => cases h
  | cons b bs ih =>
    unfold capture at h
    split at h
    · cases h
      rfl
    · obtain ⟨bs₁, h₁, rfl⟩ := Option.map_eq_some_iff.1 h
      rw [List.map_cons, List.map_cons, ih h₁]

/-- So a return leaves the outline alone as well. -/
theorem Scopes.outline_targetBlock {name : Value} (h : c.targetBlock name = some c') :
    c'.outline = c.outline := by
  obtain ⟨blocks, hblocks, rfl⟩ := Option.map_eq_some_iff.1 h
  simp only [outline, outline_capture hblocks]

theorem restores_emitApply (argc : Nat) (cont : Value) : Restores (emitApply argc cont) := by
  unfold emitApply
  refine (quiet_tailOf cont).restores.bind fun tail => ?_
  split
  · exact (quiet_emit ..).restores
  · refine (quiet_emit ..).restores.bind fun code => ?_
    split
    · refine (restores_modifyScopes fun c => ?_).bind fun _ => (quiet_pure _).restores
      split
      · exact c.outline_addPendingTail ..
      · rfl
    · exact (quiet_pure _).restores
  · exact (quiet_emit ..).restores

/-- A run has registers of its own, but the scopes are shared, so the run has to restore them by
    itself. -/
theorem restores_execute {run : LispM Unit} (hrun : Restores run) (code : Value) (args : List Value) :
    Restores (Interpreter.execute run code args) := restores_of_leads fun s => by
  refine leads_execute (fun h _ => rfl) fun env h _ => ?_
  exact (hrun.leads _).mono
    (fun _ s₁ h₁ => ⟨fun v s₂ _ h₂ => (Scopes.outline_of_unwarned h₂.scopes).trans h₁, fun _ => h₁⟩)
    fun _ _ h₁ => h₁

theorem restores_unbindSpecial (id : SymbolId) : Restores (unbindSpecial id) :=
  restores_of_leads fun s => by
    rw [leads_unbindSpecial]
    split
    · exact .refl _
    · split <;> rfl

theorem restores_walk (g : Image → Except Failure α) : Restores (walk g) :=
  restores_of_leads fun s => by
    rw [leads_walk]
    split <;> rfl

/-- A step is counted in the machine. -/
theorem restores_count : Restores count := by
  refine (restores_modifyMachine _).bind fun _ => ?_
  refine (calms_view _).restores.bind fun m => ?_
  split
  · split
    · exact restores_of_leads fun _ => rfl
    · exact (quiet_pure _).restores
  · exact (quiet_pure _).restores

/-- The machine leaves the outline as it was. -/
theorem mirrors_runningCongruence : RunningCongruence fun _ x y => x = y ∧ Restores y where
  quiet hx := ⟨rfl, hx.restores⟩
  bind hx hf := ⟨by rw [hx.1, funext fun a => (hf a).1], hx.2.bind fun a => (hf a).2⟩
  gensym _ := ⟨rfl, restores_symbols _⟩
  walk g _ _ := ⟨rfl, restores_walk g⟩
  count := ⟨rfl, restores_count⟩
  turns hx := ⟨rfl, hx.calms.restores⟩
  bindSpecial _ _ := ⟨rfl, restores_of_leads fun _ => leads_bindSpecial.2 rfl⟩
  unbindSpecial id := ⟨rfl, restores_unbindSpecial id⟩
  unwindBindings _ := ⟨rfl, restores_of_leads fun _ => leads_unwindBindings.2 rfl⟩
  returnToCaller := ⟨rfl, calms_returnToCaller.restores⟩
  execute hrun code args := ⟨by rw [hrun.1], restores_execute hrun.2 code args⟩
  setCar _ _ := ⟨rfl, restores_heap _⟩
  setCdr _ _ := ⟨rfl, restores_heap _⟩
  setValue _ _ := ⟨rfl, restores_symbols _⟩

/-! ## Within an enclosure -/

/-- Where the scopes are those of an enclosure, the actions do the same, and the second one
    leaves the outline as it was. -/
structure Mirrors (e : Enclosure) (x y : LispM α) : Prop where
  same : ∀ s, .ofScopes s.scopes = e → x s = y s
  restores : Restores y

/-- What encloses a form is read off the outline. -/
theorem Enclosure.ofScopes_of_outline (h : c'.outline = c.outline) :
    Enclosure.ofScopes c' = .ofScopes c := by
  have hblocks := congrArg (fun o => o.blocks.map Prod.fst) h
  have htagbodies := congrArg (fun o => o.tagbodies.map (·.tags)) h
  have hfunctions := congrArg Outline.functions h
  simp only [Scopes.outline, List.map_map, Function.comp_def] at hblocks htagbodies hfunctions
  simp only [ofScopes, hblocks, htagbodies, hfunctions]

/-- Where the actions do the same, they may be followed by anything that does the same. -/
theorem Mirrors.same_bind {f g : α → LispM β} (hxy : Mirrors e x y)
    (hfg : ∀ a s, .ofScopes s.scopes = e → f a s = g a s) (he : .ofScopes s.scopes = e) :
    (x >>= f) s = (y >>= g) s := by
  have hrestores := hxy.restores.leads s
  have hsame := hxy.same s he
  cases hy : y s with
  | ok a s' =>
    rw [bind_of_ok (hsame.trans hy), bind_of_ok hy]
    exact hfg a s' ((Enclosure.ofScopes_of_outline ((leads_of_ok hy).1 hrestores)).trans he)
  | error e s' => rw [bind_of_error (hsame.trans hy), bind_of_error hy]

/-- The first action leaves the outline, so the second one is enclosed by the same. -/
theorem Mirrors.bind {f g : α → LispM β} (hx : Mirrors e x y) (hf : ∀ a, Mirrors e (f a) (g a)) :
    Mirrors e (x >>= f) (y >>= g) where
  same _ he := hx.same_bind (fun a s' => (hf a).same s') he
  restores := hx.restores.bind fun a => (hf a).restores

/-- An action that is the same on both sides has only its outline to restore. -/
theorem Restores.mirrors (hx : Restores x) : Mirrors e x x := ⟨fun _ _ => rfl, hx⟩

/-- What opens no scope goes through. -/
theorem mirrors_levelCongruence (e : Enclosure) : LevelCongruence fun _ x y => Mirrors e x y where
  quiet hx := hx.restores.mirrors
  bind := Mirrors.bind
  gensym _ := (restores_symbols _).mirrors
  declareSpecial _ := (restores_symbols _).mirrors
  emitApply argc cont := (restores_emitApply argc cont).mirrors

/-- Scopes are opened for an action and closed after it, also if it fails. -/
def bracket (g : Scopes → Scopes) (close : LispM Unit) (x : LispM α) : LispM α := do
  modifyScopes g
  let result ← attempt x
  close
  resume result

section

variable {g : Scopes → Scopes} {close : LispM Unit}

/-- With the scopes opened, the actions are enclosed by what they expect. -/
theorem Mirrors.between_same (hxy : Mirrors e' x y) (hopen : .ofScopes (g s.scopes) = e') :
    bracket g close x s = bracket g close y s := by
  have hsame := hxy.same { s with scopes := g s.scopes } hopen
  have hopened : modifyScopes g s = .ok () { s with scopes := g s.scopes } := rfl
  unfold bracket
  rw [bind_of_ok hopened, bind_of_ok hopened]
  simp only [Bind.bind, EStateM.bind, attempt, hsame]

/-- What closes the scopes is given the outline with which they were opened. -/
theorem Restores.between_leads (hy : Restores y)
    (hclose : ∀ s' : Interpreter, s'.scopes.outline = (g s.scopes).outline →
      Leads close s' (fun _ s'' => s''.scopes.outline = s.scopes.outline) fun _ _ => False) :
    Leads (bracket g close y) s (fun _ s' => s'.scopes.outline = s.scopes.outline)
      fun _ s' => s'.scopes.outline = s.scopes.outline := by
  unfold bracket
  rw [leads_bind, leads_modifyScopes, leads_bind, leads_attempt]
  refine (hy.leads _).mono (fun a s₁ h₁ => ?_) fun e s₁ h₁ => ?_
  · rw [leads_bind]
    exact (hclose s₁ h₁).mono (fun _ _ h => h) fun _ _ h => h.elim
  · rw [leads_bind]
    exact (hclose s₁ h₁).mono (fun _ _ h => h) fun _ _ h => h.elim

/-- Both of these together. -/
theorem Mirrors.between (hxy : Mirrors e' x y)
    (hopen : ∀ c, .ofScopes c = e → .ofScopes (g c) = e')
    (hclose : ∀ s s' : Interpreter, s'.scopes.outline = (g s.scopes).outline →
      Leads close s' (fun _ s'' => s''.scopes.outline = s.scopes.outline) fun _ _ => False) :
    Mirrors e (bracket g close x) (bracket g close y) where
  same s he := hxy.between_same (hopen s.scopes he)
  restores := restores_of_leads fun s => hxy.restores.between_leads (hclose s)

end

/-- Closing scopes is a change of the scopes. -/
theorem leads_close {g : Scopes → Scopes} (hg : (g s'.scopes).outline = c.outline) :
    Leads (modifyScopes g) s' (fun _ s'' => s''.scopes.outline = c.outline) fun _ _ => False := hg

/-- One more function around a form. -/
theorem Mirrors.insideFunction (hxy : Mirrors e.function x y) :
    Mirrors e (insideFunction x) (insideFunction y) := by
  refine hxy.between (fun c hc => ?_) fun s s' h => leads_close ?_
  · subst hc
    rfl
  · simp only [Scopes.outline, Outline.mk.injEq] at h ⊢
    exact ⟨h.1, h.2.1, by rw [h.2.2, Nat.add_sub_cancel]⟩

/-- The tags of a tagbody around its items. -/
theorem Mirrors.withTags {tags : List Value} (id : Value) (hxy : Mirrors (e.tagbody tags) x y) :
    Mirrors e (withTags id tags x) (withTags id tags y) := by
  refine hxy.between (fun c hc => ?_) fun s s' h => leads_close ?_
  · subst hc
    rfl
  · simp only [Scopes.outline, Outline.mk.injEq] at h ⊢
    exact ⟨h.1, by rw [h.2.1, List.tail_cons], h.2.2⟩

/-- Closing a block leaves what is around it. -/
theorem closeBlock_outline (s : Interpreter) :
    Leads closeBlock s
      (fun _ s' => s'.scopes.outline = { s.scopes.outline with blocks := s.scopes.outline.blocks.tail })
      fun _ _ => False := by
  unfold closeBlock
  rw [leads_bind, leads_get]
  dsimp only
  split
  · next block blocks hblocks =>
    rw [leads_bind, leads_modifyScopes]
    -- Settling the calls of the block rewrites instructions and counts, none of which shows in the
    -- outline.
    refine Leads.forM (by simp [Scopes.outline, hblocks]) fun index _ s₁ h₁ => ?_
    rw [leads_bind, leads_modifyScopes, leads_bind, leads_get]
    split
    · split
      · rw [leads_heap, leads_modify]
        exact h₁
      · exact h₁
    · exact h₁
  · next hblocks =>
    rw [leads_pure]
    cases heq : s.scopes.blocks with
    | nil => simp [Scopes.outline, heq]
    | cons block blocks => exact (hblocks block blocks heq).elim

/-- A block around its body. Closing it settles tail calls, which are no part of the outline. -/
theorem Mirrors.inBlock {name : Value} (hxy : Mirrors (e.block name) x y) :
    Mirrors e
      (bracket (fun c => { c with blocks := { name, functionDepth := c.functionDepth } :: c.blocks })
        closeBlock x)
      (bracket (fun c => { c with blocks := { name, functionDepth := c.functionDepth } :: c.blocks })
        closeBlock y) := by
  refine hxy.between (fun c hc => ?_) fun s s' h => ?_
  · subst hc
    rfl
  · refine (closeBlock_outline s').mono (fun _ s'' h' => ?_) fun _ _ h => h
    rw [h', h]
    rfl

/-- The scopes are put back from a copy, so which function closes them depends on the state. -/
theorem outsideExits_apply (x : LispM α) (s : Interpreter) :
    outsideExits x s = bracket (fun c => { c with blocks := [], tagbodies := [] })
      (modifyScopes fun c => { c with blocks := s.scopes.blocks, tagbodies := s.scopes.tagbodies }) x s :=
  rfl

/-- A definition is enclosed by no exit. -/
theorem Mirrors.outsideExits (hxy : Mirrors e.outside x y) :
    Mirrors e (outsideExits x) (outsideExits y) where
  same s he := by
    subst he
    rw [outsideExits_apply, outsideExits_apply]
    exact hxy.between_same rfl
  restores := restores_of_leads fun s => by
    unfold Leads
    rw [outsideExits_apply]
    refine hxy.restores.between_leads fun s' h => leads_close ?_
    simp only [Scopes.outline, Outline.mk.injEq] at h ⊢
    exact ⟨trivial, trivial, h.2.2⟩

theorem Mirrors.attempt (hxy : Mirrors e x y) :
    Mirrors e (Interpreter.attempt x) (Interpreter.attempt y) where
  same s he := by simp only [Interpreter.attempt, hxy.same s he]
  restores := restores_of_leads fun s => leads_attempt.2 (hxy.restores.leads s)

/-- A failure of the action is handed on, possibly after something that leaves the outline as it
    was. -/
theorem Mirrors.guard {f g : Except Failure α → LispM β} (hxy : Mirrors e x y)
    (hok : ∀ a, Mirrors e (f (.ok a)) (g (.ok a))) (herr : ∀ err, f (.error err) = g (.error err))
    (hrestores : ∀ err, Restores (g (.error err))) :
    Mirrors e (Interpreter.attempt x >>= f) (Interpreter.attempt y >>= g) := by
  refine hxy.attempt.bind fun result => ?_
  cases result with
  | ok a => exact hok a
  | error err => exact ⟨fun s _ => congrFun (herr err) s, hrestores err⟩

/-- An action whose result is known. -/
theorem bind_eq_of_result {a : α} {f : α → LispM β}
    (hx : ∀ (s s' : Interpreter) (b : α), x s = .ok b s' → b = a) :
    (do let b ← x; f b) = (do let _ ← x; f a) := by
  funext s
  simp only [Bind.bind, EStateM.bind]
  cases hs : x s with
  | ok b s' => rw [hx s s' b hs]
  | error e s' => rfl

/-- The first action is the same on both sides and can only give one result. -/
theorem Mirrors.bind_of_result {a : α} {f g : α → LispM β} (hx : Restores x)
    (hresult : ∀ (s s' : Interpreter) (b : α), x s = .ok b s' → b = a) (hfg : Mirrors e (f a) (g a)) :
    Mirrors e (x >>= f) (x >>= g) := by
  have hf := bind_eq_of_result (f := f) hresult
  have hg := bind_eq_of_result (f := g) hresult
  rw [hf, hg]
  exact hx.mirrors.bind fun _ => hfg

/-- The search goes through all the blocks in scope, and finds the innermost one of the name. -/
theorem Scopes.capture_eq_none_iff {name : Value} {depth : Nat} {bs : List BlockScope} :
    capture name depth bs = none ↔ name ∉ bs.map (·.name) := by
  induction bs with
  | nil => simp [capture]
  | cons b bs ih =>
    unfold capture
    split
    · next hname => simp [hname]
    · next hname => simp [ih, Ne.symm hname]

/-- A block that encloses the form is a target. -/
theorem Scopes.targetBlock_eq_none_iff {name : Value} :
    c.targetBlock name = none ↔ name ∉ (Enclosure.ofScopes c).blocks := by
  rw [targetBlock, Option.map_eq_none_iff, capture_eq_none_iff]
  rfl

/-- So is a tag of a tagbody that encloses it. -/
theorem Scopes.targetTag_eq_none_iff {tag : Value} :
    c.targetTag tag = none ↔ (Enclosure.ofScopes c).tagbodies.any (·.contains tag) = false := by
  simp [targetTag, Enclosure.ofScopes]

/-- The block is noted in the scopes. -/
theorem noteReturn_of_some {name : Value} (h : s.scopes.targetBlock name = some c) :
    noteReturn name s = .ok () { s with scopes := c } := by
  have hcheck : checkTarget name s = .ok () s := by
    simp only [checkTarget, Bind.bind, EStateM.bind, get_apply, h]
    rfl
  rw [noteReturn, bind_of_ok hcheck]
  simp only [modifyScopes_apply, h, Option.getD_some]

/-- Without a block of the name, nothing is noted. -/
theorem noteReturn_of_none {name : Value} (h : s.scopes.targetBlock name = none) :
    noteReturn name s = .error (.error (.unmatchedTarget .block (s.image.print name))) s := by
  have hcheck : checkTarget name s =
      .error (.error (.unmatchedTarget .block (s.image.print name))) s := by
    simp only [checkTarget, Bind.bind, EStateM.bind, get_apply, h]
    rfl
  rw [noteReturn, bind_of_error hcheck]

/-- Noting a return changes no more of a block than whether it is captured. -/
theorem restores_noteReturn (name : Value) : Restores (noteReturn name) :=
  restores_of_leads fun s => by
    cases h : s.scopes.targetBlock name with
    | none => exact (leads_of_error (noteReturn_of_none h)).2 rfl
    | some c => exact (leads_of_ok (noteReturn_of_some h)).2 (Scopes.outline_targetBlock h)

/-- A jump only looks for its tag. -/
theorem restores_go (args cont : Value) : Restores (compileGo args cont) := by
  refine (quiet_query _ fun _ _ => rfl).restores.bind fun tag => ?_
  refine restores_of_leads fun s => ?_
  rw [leads_bind, leads_get]
  split
  · exact (quiet_emit ..).restores.leads s
  · exact .refl _

/-- The compiler finds a block in its scopes just when one of the name encloses the form. What the
    other one does in the remaining case is to fail as the compiler does. -/
theorem mirrors_return {compile : Enclosure → CompileRule} {compile' : CompileRule}
    (hc : ∀ form env cont, Mirrors e (compile e form env cont) (compile' form env cont))
    (name form : Value) (env : LexicalEnv) (cont : Value) :
    Mirrors e (compileReturnWithin compile unmatched e name form env cont)
      (compileReturn compile' name form env cont) := by
  have hrest : Mirrors e (do let code ← emit .retfrom [name] cont; compile e form env code)
      (do let code ← emit .retfrom [name] cont; compile' form env code) :=
    (mirrors_levelCongruence e).after (quiet_emit ..) fun _ => hc ..
  rw [compileReturn_eq]
  unfold compileReturnWithin
  split
  · next hname =>
    refine Mirrors.bind (y := noteReturn name) ⟨fun s he => ?_, restores_noteReturn name⟩ fun _ => hrest
    subst he
    -- The two sides look for the block in different places: the enclosure, and the scopes.
    cases htarget : s.scopes.targetBlock name with
    | none => exact absurd hname (Scopes.targetBlock_eq_none_iff.1 htarget)
    | some c =>
      rw [noteReturn_of_some htarget]
      simp only [modifyScopes_apply, htarget, Option.getD_some]
  · next hname =>
    refine ⟨fun s he => ?_, (restores_noteReturn name).bind fun _ => hrest.restores⟩
    subst he
    exact (bind_of_error (noteReturn_of_none (Scopes.targetBlock_eq_none_iff.2 hname))).symm

/-- The same for a jump and its tag. -/
theorem mirrors_go (args cont : Value) :
    Mirrors e (compileGoWithin unmatched e args cont) (compileGo args cont) := by
  refine ⟨fun s he => ?_, restores_go args cont⟩
  subst he
  unfold compileGoWithin compileGo
  simp only [Bind.bind, EStateM.bind, query]
  cases s.image.heap.head args with
  | error e => rfl
  | ok tag =>
    simp only [get_apply]
    cases htarget : s.scopes.targetTag tag with
    | some id =>
      -- The scopes know the tag just if some tagbody around the form has it.
      have hany : (Enclosure.ofScopes s.scopes).tagbodies.any (·.contains tag) = true := by
        rw [← Bool.not_eq_false, ← Scopes.targetTag_eq_none_iff, htarget]
        exact Option.some_ne_none id
      rw [if_pos hany]
      simp only [EStateM.bind, get_apply, htarget, Option.getD_some]
    | none =>
      rw [Scopes.targetTag_eq_none_iff.1 htarget]
      rfl

/-- A top-level form is enclosed by nothing: the scopes are cleared before. -/
theorem compileToplevel_eq {compile compile' : CompileRule}
    (hc : ∀ form env cont, Mirrors {} (compile form env cont) (compile' form env cont))
    (form : Value) : compileToplevel compile form = compileToplevel compile' form := by
  have h := mirrors_levelCongruence {}
  funext s
  have hopened : (modifyScopes fun c => { c.clear with pendingTails := #[] }) s =
      .ok () { s with scopes := { s.scopes.clear with pendingTails := #[] } } := rfl
  unfold compileToplevel
  rw [bind_of_ok hopened, bind_of_ok hopened]
  refine Mirrors.same_bind (h.quiet (quiet_record .debug _ nofun)) (fun _ s₁ h₁ => ?_) rfl
  refine Mirrors.same_bind (h.quiet (quiet_emit ..)) (fun stop s₂ h₂ => ?_) h₁
  exact (hc ..).attempt.same_bind (fun _ _ _ => rfl) h₂

/-- What the machine compiles leaves no trace in the scopes. -/
theorem restores_compileApart (compile : CompileRule) (form : Value) :
    Restores (compileApart compile form) := restores_of_leads fun s => by
  unfold compileApart
  rw [leads_bind, leads_get, leads_bind, leads_modifyScopes, leads_bind, leads_attempt]
  refine leads_trivial.mono (fun _ s₁ _ => ?_) fun _ s₁ _ => ?_ <;>
  · rw [leads_bind, leads_modifyScopes]
    exact .refl _

/-- Where the scopes are those of the enclosure, the check in front of the compiler succeeds. -/
theorem Mirrors.ifWithin {x y wrong : LispM Value} (hxy : Mirrors e x y) :
    Mirrors e (ifWithin e x wrong) y where
  same s he := by
    simp only [StackLisp.ifWithin, Bind.bind, EStateM.bind, get_apply]
    rw [if_pos he]
    exact hxy.same s he
  restores := hxy.restores

/-- The compiler that is told what encloses a form does what the compiler does. -/
theorem mirrors_enclosedCongruence (wrong : LispM Value) :
    EnclosedCongruence wrong unmatched (fun e _ x y => Mirrors e x y)
      fun _ x y => x = y ∧ Restores y where
  level := mirrors_levelCongruence
  keeps hx _ := hx.mirrors
  known hx hresult hfg := hfg.bind_of_result hx.restores hresult
  guard hxy hok herr hfails := hxy.guard hok herr fun err => restores_of_leads fun s =>
    (hfails err s).mono (fun _ _ h => h.elim) fun _ _ h => h.2
  insideFunction := Mirrors.insideFunction
  outsideExits := Mirrors.outsideExits
  withTags := Mirrors.withTags
  inBlock _ _ _ hxy := hxy.inBlock
  returns hc := mirrors_return hc
  go _ := mirrors_go
  ifWithin := Mirrors.ifWithin
  running := mirrors_runningCongruence
  within hxy := ⟨fun s _ => congrFun hxy.1 s, hxy.2⟩
  apart hc form := ⟨by rw [compileApart, compileToplevel_eq hc, compileApart], restores_compileApart ..⟩

/-! ## Exits without a target -/

/-- The action never fails for want of a target. -/
structure NeverUnmatched (x : LispM α) : Prop where
  leads : ∀ s, Leads x s (fun _ _ => True) fun err _ => ∀ kind name, err ≠ .error (.unmatchedTarget kind name)

/-- That a target is missing is no ordinary failure. -/
theorem FailsOrdinarily.neverUnmatched (hx : FailsOrdinarily x) : NeverUnmatched x where
  leads s := (hx.ordinary s).mono (fun _ _ h => h) fun _ _ h => h.ne_unmatchedTarget

theorem Quiet.neverUnmatched (hx : Quiet x) : NeverUnmatched x := hx.toFailsOrdinarily.neverUnmatched

theorem failsOrdinarily_modifyScopes (g : Scopes → Scopes) : FailsOrdinarily (modifyScopes g) :=
  ⟨fun _ => trivial⟩

theorem neverUnmatched_modifyScopes (g : Scopes → Scopes) : NeverUnmatched (modifyScopes g) :=
  (failsOrdinarily_modifyScopes g).neverUnmatched

theorem neverUnmatched_get : NeverUnmatched (get : LispM Interpreter) := ⟨fun _ => trivial⟩

theorem NeverUnmatched.bind {f : α → LispM β} (hx : NeverUnmatched x)
    (hf : ∀ a, NeverUnmatched (f a)) : NeverUnmatched (x >>= f) where
  leads s := (leads_bind f).2 ((hx.leads s).mono (fun a s' _ => (hf a).leads s') fun _ _ h => h)

/-- Closing the scopes may only fail in ordinary ways. -/
theorem NeverUnmatched.bracket {g : Scopes → Scopes} {close : LispM Unit} (hx : NeverUnmatched x)
    (hclose : FailsOrdinarily close) : NeverUnmatched (bracket g close x) where
  leads s := by
    unfold StackLisp.bracket
    rw [leads_bind, leads_modifyScopes, leads_bind, leads_attempt]
    refine (hx.leads _).mono (fun a s₁ _ => ?_) fun err s₁ h₁ => ?_ <;> rw [leads_bind]
    · exact (hclose.neverUnmatched.leads s₁).mono (fun _ _ _ => trivial) fun _ _ h => h
    · exact (hclose.neverUnmatched.leads s₁).mono (fun _ _ _ => h₁) fun _ _ h => h

/-- Settling tail calls does not fail. -/
theorem failsOrdinarily_closeBlock : FailsOrdinarily closeBlock where
  ordinaryIn s := by
    obtain ⟨a, s', hs', -⟩ := closeBlock_ends s
    exact (leads_of_ok hs').2 trivial

theorem neverUnmatched_emitApply (argc : Nat) (cont : Value) : NeverUnmatched (emitApply argc cont) := by
  unfold emitApply
  refine (quiet_tailOf cont).neverUnmatched.bind fun tail => ?_
  split
  · exact (quiet_emit ..).neverUnmatched
  · refine (quiet_emit ..).neverUnmatched.bind fun code => ?_
    split
    · exact (neverUnmatched_modifyScopes _).bind fun _ => (quiet_pure _).neverUnmatched
    · exact (quiet_pure _).neverUnmatched
  · exact (quiet_emit ..).neverUnmatched

theorem neverUnmatched_update (id : SymbolId) (f : Symbol → Symbol) :
    NeverUnmatched (liftM (SymbolTable.update id f) : LispM Unit) where
  leads s := by
    rw [leads_update]
    split
    · exact nofun
    · trivial

/-- All rules for forms fail in ordinary ways, as long as the compiler for the forms inside does. -/
theorem neverUnmatched_levelCongruence : LevelCongruence fun _ x _ => NeverUnmatched x where
  quiet hx := hx.neverUnmatched
  bind := NeverUnmatched.bind
  gensym _ := ⟨fun _ => trivial⟩
  declareSpecial id := neverUnmatched_update id _
  emitApply := neverUnmatched_emitApply

theorem neverUnmatched_count : NeverUnmatched count := by
  refine NeverUnmatched.bind ⟨fun _ => trivial⟩ fun _ =>
    (calms_view _).toFailsOrdinarily.neverUnmatched.bind fun m => ?_
  split
  · split
    · exact ⟨fun _ => nofun⟩
    · exact (quiet_pure _).neverUnmatched
  · exact (quiet_pure _).neverUnmatched

/-- What is done after the run ends bindings, and the failure of the run is handed on. -/
theorem neverUnmatched_execute {run : LispM Unit} (hrun : NeverUnmatched run) (code : Value)
    (args : List Value) : NeverUnmatched (Interpreter.execute run code args) where
  leads s := by
    refine leads_execute (fun h _ => nofun) fun env h _ => ?_
    exact (hrun.leads _).mono (fun _ s₁ h₁ => ⟨fun _ _ _ _ => trivial, fun _ => nofun⟩) fun _ _ h₁ => h₁

/-- So does the machine, which leaves targets that are not there to its own failures. -/
theorem neverUnmatched_runningCongruence : RunningCongruence fun _ x _ => NeverUnmatched x where
  toBasicCongruence := neverUnmatched_levelCongruence.toBasicCongruence
  walk g _ hends := ⟨fun s => by
    rw [leads_walk]
    split
    · trivial
    · next heq =>
      rw [hends _ _ heq]
      exact nofun⟩
  count := neverUnmatched_count
  turns hx := hx.calms.toFailsOrdinarily.neverUnmatched
  bindSpecial _ _ := ⟨fun _ => trivial⟩
  -- A mismatch of bindings is another failure.
  unbindSpecial id := ⟨fun s => by
    rw [leads_unbindSpecial]
    split
    · exact nofun
    · split
      · trivial
      · exact nofun⟩
  unwindBindings _ := ⟨fun _ => leads_unwindBindings.2 trivial⟩
  returnToCaller := calms_returnToCaller.toFailsOrdinarily.neverUnmatched
  execute hrun code args := neverUnmatched_execute hrun code args
  setCar _ _ := ⟨fun _ => trivial⟩
  setCdr _ _ := ⟨fun _ => trivial⟩
  setValue id _ := neverUnmatched_update id _

/-- A failure is handed on, or replaced by an ordinary one. -/
theorem NeverUnmatched.guard {f : Except Failure α → LispM β} (hx : NeverUnmatched x)
    (hok : ∀ a, NeverUnmatched (f (.ok a)))
    (herr : ∀ err s, Leads (f (.error err)) s (fun _ _ => True) fun err' _ => err' = err ∨ err'.Ordinary) :
    NeverUnmatched (attempt x >>= f) where
  leads s := by
    rw [leads_bind, leads_attempt]
    refine (hx.leads s).mono (fun a s₁ _ => (hok a).leads s₁) fun err s₁ h₁ => ?_
    refine (herr err s₁).mono (fun _ _ h => h) ?_
    rintro err' s₂ (rfl | h)
    · exact h₁
    · exact h.ne_unmatchedTarget

/-- The scopes are put back, which does not fail. -/
theorem neverUnmatched_compileApart {compile : CompileRule}
    (hc : ∀ form env cont, NeverUnmatched (compile form env cont)) (form : Value) :
    NeverUnmatched (compileApart compile form) := by
  refine neverUnmatched_get.bind fun s => ?_
  refine (neverUnmatched_modifyScopes _).bind fun _ => ?_
  refine NeverUnmatched.guard ?_ (fun _ => ⟨fun _ => trivial⟩) fun _ _ => .inl rfl
  refine (neverUnmatched_modifyScopes _).bind fun _ => ?_
  refine (quiet_record .debug _ nofun).neverUnmatched.bind fun _ => ?_
  refine (quiet_emit ..).neverUnmatched.bind fun stop => ?_
  exact (hc ..).guard (fun _ => ⟨fun _ => trivial⟩) fun _ _ => .inl rfl

/-- Only what is done about exits without a target can fail for want of a target. -/
theorem neverUnmatched_enclosedCongruence {wrong : LispM Value}
    {reject : TargetKind → Value → LispM Value} (hwrong : NeverUnmatched wrong)
    (hreject : ∀ kind target, NeverUnmatched (reject kind target)) :
    EnclosedCongruence wrong reject (fun _ _ x _ => NeverUnmatched x) fun _ x _ => NeverUnmatched x where
  level _ := neverUnmatched_levelCongruence
  keeps _ hx := hx.neverUnmatched
  known {_ _ _ x _ _ _} hx hresult hf := ⟨fun s => by
    rw [leads_bind]
    have hfails := hx.neverUnmatched.leads s
    cases hs : x s with
    | ok b s' => exact (leads_of_ok hs).2 (hresult s s' b hs ▸ hf.leads s')
    | error err s' => exact (leads_of_error hs).2 ((leads_of_error hs).1 hfails)⟩
  guard hx hok herr hfails := hx.guard hok fun err s => herr err ▸ (hfails err s).mono
    (fun _ _ _ => trivial) fun _ _ h => h.1
  insideFunction hx := hx.bracket (failsOrdinarily_modifyScopes _)
  outsideExits hx := ⟨fun s => by
    unfold Leads
    rw [outsideExits_apply]
    exact (hx.bracket (failsOrdinarily_modifyScopes _)).leads s⟩
  withTags _ hx := hx.bracket (failsOrdinarily_modifyScopes _)
  inBlock _ _ _ hx := hx.bracket failsOrdinarily_closeBlock
  -- With the block around, a return is compiled; without it, it is for `reject` to say.
  returns hc name form env cont := by
    unfold compileReturnWithin
    split
    · exact (neverUnmatched_modifyScopes _).bind fun _ => (quiet_emit ..).neverUnmatched.bind fun _ => hc ..
    · exact hreject ..
  go e args cont := by
    refine (quiet_query _ fun _ _ => rfl).neverUnmatched.bind fun tag => ?_
    split
    · exact neverUnmatched_get.bind fun _ => (quiet_emit ..).neverUnmatched
    · exact hreject ..
  ifWithin hx := by
    refine neverUnmatched_get.bind fun s => ?_
    split
    · exact hx
    · exact hwrong
  running := neverUnmatched_runningCongruence
  within hx := hx
  apart hc form := neverUnmatched_compileApart hc form

/-! ## Every call of the compiler -/

end StackLisp
