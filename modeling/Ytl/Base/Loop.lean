/-
Loops that end.

A round of a loop either goes on with a new state or leaves the loop with a result; in `loopM`
a round may itself be a call that does not come back.  A loop that has an invariant with an
index, in which each round that goes on makes the index larger and the index has a bound,
leaves with a result of a round.

The number of rounds is bounded by fuel, so that the definition is a recursion on a number,
and a loop that runs out of it does not return.  Fuel is given where a loop of the code is
translated, and always enough of it if the loop ends at all: that it does not run out is part
of what the rule proves, and not a hypothesis.
-/
import Ytl.Base.Fault

namespace Ytl

variable {σ ρ : Type}

/-- Rounds until one leaves the loop, at most `fuel` of them. -/
def loop (step : σ → σ ⊕ ρ) : Nat → σ → Except Fault ρ
  | 0, _ => .error .noReturn
  | fuel + 1, s =>
      match step s with
      | .inl s' => loop step fuel s'
      | .inr r => .ok r

/-- The same for rounds that make calls. -/
def loopM (step : σ → Except Fault (σ ⊕ ρ)) : Nat → σ → Except Fault ρ
  | 0, _ => .error .noReturn
  | fuel + 1, s =>
      match step s with
      | .ok (.inl s') => loopM step fuel s'
      | .ok (.inr r) => .ok r
      | .error e => .error e

/-! ### Rules -/

theorem loop_eq_loopM (step : σ → σ ⊕ ρ) :
    ∀ (fuel : Nat) (s : σ), loop step fuel s = loopM (fun s => .ok (step s)) fuel s := by
  intro fuel
  induction fuel with
  | zero =>
      intro s
      rfl
  | succ fuel ih =>
      intro s
      rw [loop, loopM]
      cases step s with
      | inl s' => exact ih s'
      | inr r => rfl

theorem loopM_returns {step : σ → Except Fault (σ ⊕ ρ)} {I : Nat → σ → Prop} {Q : ρ → Prop}
    {n : Nat} (hbound : ∀ i s, I i s → i ≤ n)
    (hstep : ∀ i s, I i s →
      (∃ s' j, step s = .ok (.inl s') ∧ i < j ∧ I j s') ∨ ∃ r, step s = .ok (.inr r) ∧ Q r) :
    ∀ (fuel i : Nat) (s : σ), I i s → n < fuel + i → ∃ r, loopM step fuel s = .ok r ∧ Q r := by
  intro fuel
  induction fuel with
  | zero =>
      intro i s hI hfuel
      have hle := hbound i s hI
      omega
  | succ fuel ih =>
      intro i s hI hfuel
      rw [loopM]
      rcases hstep i s hI with ⟨s', j, hs', hj, hI'⟩ | ⟨r, hr, hQ⟩
      · rw [hs']
        exact ih j s' hI' (by omega)
      · rw [hr]
        exact ⟨r, rfl, hQ⟩

/-- **The rule for loops.** -/
theorem loop_returns {step : σ → σ ⊕ ρ} {I : Nat → σ → Prop} {Q : ρ → Prop} {n : Nat}
    (hbound : ∀ i s, I i s → i ≤ n)
    (hstep : ∀ i s, I i s →
      (∃ s' j, step s = .inl s' ∧ i < j ∧ I j s') ∨ ∃ r, step s = .inr r ∧ Q r) :
    ∀ (fuel i : Nat) (s : σ), I i s → n < fuel + i → ∃ r, loop step fuel s = .ok r ∧ Q r := by
  intro fuel i s hI hfuel
  rw [loop_eq_loopM]
  refine loopM_returns hbound (fun i s hI => ?_) fuel i s hI hfuel
  rcases hstep i s hI with ⟨s', j, hs', hj, hI'⟩ | ⟨r, hr, hQ⟩
  · exact Or.inl ⟨s', j, congrArg Except.ok hs', hj, hI'⟩
  · exact Or.inr ⟨r, congrArg Except.ok hr, hQ⟩

/-- What is kept by every round holds where the loop is left. -/
theorem of_loop {step : σ → σ ⊕ ρ} {I : σ → Prop} {Q : ρ → Prop}
    (hgo : ∀ s s', I s → step s = .inl s' → I s') (hleave : ∀ s r, I s → step s = .inr r → Q r) :
    ∀ (fuel : Nat) (s : σ) (r : ρ), I s → loop step fuel s = .ok r → Q r := by
  intro fuel
  induction fuel with
  | zero =>
      intro s r _ h
      cases h
  | succ fuel ih =>
      intro s r hI h
      rw [loop] at h
      cases hstep : step s with
      | inl s' =>
          rw [hstep] at h
          exact ih s' r (hgo s s' hI hstep) h
      | inr r' =>
          rw [hstep] at h
          cases h
          exact hleave s r hI hstep

end Ytl
