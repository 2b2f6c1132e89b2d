/-
Two levels of one design.

The lower level is a machine, the upper one a function on the same labels that says what the
component is for.  If every step that is promised returns and does what the upper level does,
up to a relation between the states, so does every run.

Where neither level is above the other, both may fail, and then they fail alike (`Same`).

The upper level always has a next state.  So a simulation also says that the lower one
returns, and there is no second statement to make about that; where the lower level may fail,
the promise of the machine has to exclude it.
-/
import Ytl.Base.Machine

namespace Ytl.Machine

variable {σ τ α ε : Type}

/-- Steps of the machine return, and are steps of the upper level. -/
def Simulates (m : Machine σ α ε) (upper : τ → α → τ) (R : σ → τ → Prop) : Prop :=
  ∀ s t a, R s t → m.admits s a → ∃ s', m.step s a = .ok s' ∧ R s' (upper t a)

variable {m : Machine σ α ε} {upper : τ → α → τ} {R : σ → τ → Prop}

theorem Simulates.run (h : m.Simulates upper R) :
    ∀ (as : List α) (s : σ) (t : τ), R s t → m.Admitted s as →
      ∃ s', as.foldlM m.step s = .ok s' ∧ R s' (as.foldl upper t) := by
  intro as
  induction as with
  | nil =>
      intro s t hR _
      exact ⟨s, rfl, hR⟩
  | cons a rest ih =>
      intro s t hR hadm
      obtain ⟨u, hu, hRu⟩ := h s t a hR hadm.1
      obtain ⟨s', hs', hR'⟩ := ih u (upper t a) hRu (hadm.2 u hu)
      refine ⟨s', ?_, hR'⟩
      rw [List.foldlM_cons, hu]
      exact hs'

/-! ### Loops within an operation

An operation that is a loop is simulated by the loop of the upper level if its rounds are.
-/

/-- What the steps of a run meet does not depend on what is promised of them. -/
theorem meets_ofStep {C : σ → α → Prop} :
    ∀ (as : List α) (s : σ), (ofStep m.step).Meets C s as ↔ m.Meets C s as := by
  intro as
  induction as with
  | nil => intro s; exact Iff.rfl
  | cons a rest ih =>
      intro s
      exact and_congr_right fun _ => forall_congr' fun s' => forall_congr' fun _ => ih s'

/-- A loop whose rounds all meet a condition. -/
theorem simulates_of_meets {step : σ → α → Except ε σ} {C : σ → α → Prop}
    (h : ∀ s t a, R s t → C s a → ∃ s', step s a = .ok s' ∧ R s' (upper t a)) (as : List α)
    (s : σ) (t : τ) (hR : R s t) (hmeets : (ofStep step).Meets C s as) :
    ∃ s', as.foldlM step s = .ok s' ∧ R s' (as.foldl upper t) := by
  let m : Machine σ α ε := ⟨fun _ => True, C, step⟩
  have hsim : m.Simulates upper R := h
  have hadm : m.Admitted s as := (admitted_iff_meets as s).mpr ((meets_ofStep as s).mp hmeets)
  exact hsim.run as s t hR hadm

/-- A loop whose rounds are promised nothing. -/
theorem simulates_foldlM {step : σ → α → Except ε σ}
    (h : ∀ s t a, R s t → ∃ s', step s a = .ok s' ∧ R s' (upper t a)) (as : List α) (s : σ)
    (t : τ) (hR : R s t) : ∃ s', as.foldlM step s = .ok s' ∧ R s' (as.foldl upper t) := by
  have hsim : (ofStep step).Simulates upper R := fun s t a hR _ => h s t a hR
  exact hsim.run as s t hR (admitted_ofStep step as s)

end Ytl.Machine

namespace Ytl

variable {α β γ δ ε : Type} {R : α → β → Prop} {S : γ → δ → Prop}

/-! ### Failing alike -/

/-- Both return, with results that are related, or both fail in the same way. -/
inductive Same (R : α → β → Prop) : Except ε α → Except ε β → Prop
  | ok {a : α} {b : β} (h : R a b) : Same R (.ok a) (.ok b)
  | error (e : ε) : Same R (.error e) (.error e)

theorem Same.mono {R' : α → β → Prop} {x : Except ε α} {y : Except ε β} (h : Same R x y)
    (hR : ∀ a b, R a b → R' a b) : Same R' x y := by
  cases h with
  | ok hab => exact Same.ok (hR _ _ hab)
  | error e => exact Same.error e

theorem Same.bind {x : Except ε α} {y : Except ε β} {f : α → Except ε γ} {g : β → Except ε δ}
    (h : Same R x y) (hf : ∀ a b, R a b → Same S (f a) (g b)) : Same S (x >>= f) (y >>= g) := by
  cases h with
  | ok hR => exact hf _ _ hR
  | error e => exact Same.error e

theorem Same.map {x : Except ε α} {y : Except ε β} {f : α → γ} {g : β → δ}
    (h : Same R x y) (hf : ∀ a b, R a b → S (f a) (g b)) : Same S (f <$> x) (g <$> y) := by
  cases h with
  | ok hR => exact Same.ok (hf _ _ hR)
  | error e => exact Same.error e

/-- The same computation comes first on both sides. -/
theorem Same.bind_left {x : Except ε α} {f : α → Except ε γ} {g : α → Except ε δ}
    (hf : ∀ a, x = .ok a → Same S (f a) (g a)) : Same S (x >>= f) (x >>= g) := by
  cases x with
  | ok a => exact hf a rfl
  | error e => exact Same.error e

/-- Runs whose steps go alike. -/
theorem Same.foldlM {ι : Type} {f : α → ι → Except ε α} {g : β → ι → Except ε β}
    (h : ∀ a b i, R a b → Same R (f a i) (g b i)) :
    ∀ (l : List ι) (a : α) (b : β), R a b → Same R (l.foldlM f a) (l.foldlM g b) := by
  intro l
  induction l with
  | nil =>
      intro a b hR
      exact Same.ok hR
  | cons i rest ih =>
      intro a b hR
      rw [List.foldlM_cons, List.foldlM_cons]
      exact (h a b i hR).bind ih

end Ytl
