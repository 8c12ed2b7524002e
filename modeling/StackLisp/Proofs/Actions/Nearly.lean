import StackLisp.Proofs.Actions.Agreement
import StackLisp.Proofs.Actions.Together

/-!
# Outcomes within a bound

Of two computations that come to the same outcome, the second one may take longer by one
step of a bound. Then the outcome of the first one lies between the outcomes of the second
one within the same bound and within the next greater one: it is like the latter, unless
it is endless as the former is (`Nearly`). This goes from actions to longer ones
(`Nearly.bind`).
-/

namespace StackLisp

open Interpreter Machine

variable {α β : Type} {R R' : Interpreter → Interpreter → Prop}

/-- The computation has not come to its end. -/
def Endless (r : EStateM.Result Failure Interpreter α) : Prop := ∃ s, r = .error .endless s

/-- The outcome `r` is like `r₂`, or it is endless as `r₁` is. The outcome `r₁` is `r₂`, unless
    it is endless. -/
inductive Nearly (R : Interpreter → Interpreter → Prop) (r r₁ r₂ : EStateM.Result Failure Interpreter α) :
    Prop
  | alike (same : Matches R r r₂) (bound : r₁ = r₂ ∨ Endless r₁)
  | endless (first : Endless r) (second : Endless r₁)

namespace Nearly

theorem of_matches {r r₁ r₂ : EStateM.Result Failure Interpreter α} (h : Matches R r r₁)
    (bound : r₁ = r₂ ∨ Endless r₁) : Nearly R r r₁ r₂ := by
  rcases bound with rfl | ⟨t, rfl⟩
  · exact .alike h (.inl rfl)
  · cases h
    exact .endless ⟨_, rfl⟩ ⟨t, rfl⟩

theorem mono {r r₁ r₂ : EStateM.Result Failure Interpreter α} (h : Nearly R r r₁ r₂)
    (hR : ∀ s t, R s t → R' s t) : Nearly R' r r₁ r₂ := by
  cases h with
  | alike h bound => exact .alike (h.mono hR) bound
  | endless h h₁ => exact .endless h h₁

variable {x y₁ y₂ : LispM α} {s t : Interpreter}

/-- One action after the other. -/
theorem bind {f g₁ g₂ : α → LispM β} (hx : Nearly R (x s) (y₁ t) (y₂ t))
    (hf : ∀ a s' t', x s = .ok a s' → R s' t' → Nearly R' (f a s') (g₁ a t') (g₂ a t'))
    (hR : ∀ s' t', R s' t' → R' s' t') :
    Nearly R' ((x >>= f) s) ((y₁ >>= g₁) t) ((y₂ >>= g₂) t) := by
  simp only [Bind.bind, EStateM.bind]
  generalize x s = r, y₁ t = r₁, y₂ t = r₂ at hx hf
  -- If both of the shorter ones end, all three go on alike. If one of them does not end, neither do
  -- the whole ones.
  cases hx with
  | endless h h₁ =>
    obtain ⟨s', rfl⟩ := h
    obtain ⟨t', rfl⟩ := h₁
    exact .endless ⟨s', rfl⟩ ⟨t', rfl⟩
  | alike h bound =>
    cases h with
    | error hst =>
      refine .alike (.error (hR _ _ hst)) ?_
      rcases bound with rfl | ⟨t', rfl⟩
      · exact .inl rfl
      · exact .inr ⟨t', rfl⟩
    | ok hst =>
      have hnext := hf _ _ _ rfl hst
      rcases bound with rfl | ⟨t', rfl⟩
      · exact hnext
      · cases hnext with
        | alike h _ => exact .alike h (.inr ⟨t', rfl⟩)
        | endless h _ => exact .endless h ⟨t', rfl⟩

/-- What is done with outcomes that are alike is alike, and it is endless after an endless
    outcome. -/
theorem attempt_bind {f : Except Failure α → LispM β} (hx : Nearly R (x s) (y₁ t) (y₂ t))
    (hf : ∀ r s' t', R s' t' → Matches R' (f r s') (f r t')) (hend : ∀ s, Endless (f (.error .endless) s)) :
    Nearly R' ((attempt x >>= f) s) ((attempt y₁ >>= f) t) ((attempt y₂ >>= f) t) := by
  simp only [Bind.bind, EStateM.bind, Interpreter.attempt]
  generalize x s = r, y₁ t = r₁, y₂ t = r₂ at hx
  -- Giving up is caught as any failure is, and what follows gives up again.
  cases hx with
  | endless h h₁ =>
    obtain ⟨s', rfl⟩ := h
    obtain ⟨t', rfl⟩ := h₁
    exact .endless (hend s') (hend t')
  | alike h bound =>
    refine .alike ?_ ?_
    · cases h with
      | ok hst => exact hf _ _ _ hst
      | error hst => exact hf _ _ _ hst
    · rcases bound with rfl | ⟨t', rfl⟩
      · exact .inl rfl
      · exact .inr (hend t')

end Nearly

theorem Matches.bind_pure {x y : LispM α} {s t : Interpreter} (h : Matches R (x s) (y t)) (b : β) :
    Matches R ((do let _ ← x; return b : LispM β) s) ((do let _ ← y; return b : LispM β) t) := by
  simp only [Bind.bind, EStateM.bind]
  generalize x s = r, y t = r' at h
  cases h with
  | ok h => exact .ok h
  | error h => exact .error h

/-- With the same dumps and exits, runs are alike within the same bound. -/
theorem nearly_runFrom_same {s t : Interpreter} (h : Parallel .same s t) (fuel : Nat) (flow : Flow) :
    Nearly (Parallel .same) (runFrom fuel flow s) (runFrom fuel flow t) (runFrom (fuel + 1) flow t) :=
  .of_matches ((together_runFrom fuel flow).run h) (((agree_engine fuel).2 flow).agrees t)

/-- So are walks to the end of a block. -/
theorem nearly_exitBlock_same {s t : Interpreter} (h : Parallel .same s t) (target value : Value)
    (fuel skipped : Nat) :
    Nearly (Parallel .same) (exitBlock target value fuel skipped s)
      (exitBlock target value fuel skipped t) (exitBlock target value (fuel + 1) skipped t) :=
  .of_matches ((together_machineCongruence.exitBlock target value fuel skipped).run h)
    ((agree_exitBlock target value fuel skipped).agrees t)

end StackLisp
