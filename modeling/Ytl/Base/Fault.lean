/-
Calls that may not come back.

A C++ function either returns, or it does something the language gives no meaning to, or it
never returns at all.  The three are kept apart here: a modelled call is an `Except Fault`, so
that "the call returns" is a statement one can prove and not a silent default.

Calls are put together with the bind of the monad, so whatever comes after a call that does
not return is not run.  The lemmas here take such a sequence apart again, without a look at
what the calls do: `bind_returns` gives what each of two calls has returned, and the rules for
loops over a list save an induction on the list each: for what is kept across a round, for
what is known when some of the elements are done, and for a loop that returns.
-/
import Mathlib.Logic.Basic

namespace Ytl

/-- Why a call has no result. -/
inductive Fault where
  /-- An index or a length past the end of the object it is used on. -/
  | outOfBounds
  /-- A read or a write through a null pointer. -/
  | nullPointer
  /-- A loop or a recursion that is still going when its bound is used up. -/
  | noReturn
deriving DecidableEq, Repr

variable {α β ε : Type}

/-! ### One call after another -/

/-- A sequence of two calls returns exactly when the first one returns and the
second one, given what the first produced, returns too. -/
theorem bind_returns {first : Except ε α} {second : α → Except ε β} {b : β} :
    (first >>= second) = .ok b ↔ ∃ a, first = .ok a ∧ second a = .ok b := by
  constructor
  · intro h
    rcases first with e | a
    · cases h
    · exact ⟨a, rfl, h⟩
  · rintro ⟨a, rfl, h⟩
    exact h

@[simp] theorem bind_of_ok (a : α) (second : α → Except ε β) :
    (Except.ok a >>= second) = second a := rfl

@[simp] theorem bind_of_error (e : ε) (second : α → Except ε β) :
    ((Except.error e : Except ε α) >>= second) = .error e := rfl

@[simp] theorem pure_is_ok (a : α) : (pure a : Except ε α) = .ok a := rfl

/-! ### Trying a call out

A statement about one fixed call is decided by making the call.
-/

/-- The call returns, and the check holds of its result. -/
def checkResult (x : Except ε α) (P : α → Bool) : Bool :=
  match x with
  | .ok a => P a
  | .error _ => false

theorem returns_of_checkResult {x : Except ε α} {P : α → Bool} (h : checkResult x P = true) :
    ∃ a, x = .ok a ∧ P a = true := by
  cases x with
  | error e => cases h
  | ok a => exact ⟨a, rfl, h⟩

theorem of_checkResult {x : Except ε α} {P : α → Bool} (h : checkResult x P = true) {a : α}
    (ha : x = .ok a) : P a = true := by
  rw [ha] at h
  exact h

/-- What is promised of the result of a call is tested by making the call. -/
instance decidableReturns (x : Except ε α) (P : α → Prop) [∀ a, Decidable (P a)] :
    Decidable (∀ a, x = .ok a → P a) :=
  match x with
  | .error _ => isTrue nofun
  | .ok a => decidable_of_iff (P a) ⟨fun h _ ha => Except.ok.inj ha ▸ h, fun h => h a rfl⟩

/-! ### The form of a result

Operations of the code return a value besides what they do to the state.  A run of operations
is only about the state, so the value is dropped there, and a proof about a step has to get it
back first.
-/

/-- A call whose result is put into another form. -/
theorem map_returns {x : Except ε α} {f : α → β} {b : β} :
    f <$> x = .ok b ↔ ∃ a, x = .ok a ∧ f a = b := by
  cases x with
  | error e => exact ⟨nofun, nofun⟩
  | ok a =>
      constructor
      · intro h
        exact ⟨a, rfl, Except.ok.inj h⟩
      · rintro ⟨a', ha, rfl⟩
        rw [Except.ok.inj ha]
        rfl

/-- An operation that returns a value besides the new state. -/
theorem snd_returns {x : Except ε (α × β)} {b : β} :
    Prod.snd <$> x = .ok b ↔ ∃ a, x = .ok (a, b) := by
  rw [map_returns]
  constructor
  · rintro ⟨⟨a, b⟩, hx, rfl⟩
    exact ⟨a, hx⟩
  · rintro ⟨a, hx⟩
    exact ⟨(a, b), hx, rfl⟩

/-! ### Loops over a list -/

/-- What every round of a loop does, the whole loop does. -/
theorem foldlM_rel {R : α → α → Prop} (hrefl : ∀ s, R s s)
    (htrans : ∀ s t u, R s t → R t u → R s u) {f : α → β → Except ε α}
    (hf : ∀ s x s', f s x = .ok s' → R s s') :
    ∀ (l : List β) (s s' : α), l.foldlM f s = .ok s' → R s s' := by
  intro l
  induction l with
  | nil =>
      intro s s' h
      rw [List.foldlM_nil] at h
      rw [← Except.ok.inj h]
      exact hrefl s
  | cons x rest ih =>
      intro s s' h
      rw [List.foldlM_cons] at h
      obtain ⟨t, ht, hrest⟩ := bind_returns.mp h
      exact htrans s t s' (hf s x t ht) (ih t s' hrest)

/-- A loop over a list, with an invariant that knows which elements are done. -/
theorem foldlM_invariant {f : α → β → Except ε α} {I : List β → α → Prop} (l : List β)
    (hstep : ∀ pre x post s s', l = pre ++ x :: post → I pre s → f s x = .ok s' →
      I (pre ++ [x]) s') :
    ∀ (post pre : List β) (s s' : α), l = pre ++ post → I pre s →
      post.foldlM f s = .ok s' → I l s' := by
  intro post
  induction post with
  | nil =>
      intro pre s s' hl hI h
      rw [List.foldlM_nil] at h
      rw [List.append_nil] at hl
      rw [hl, ← Except.ok.inj h]
      exact hI
  | cons x rest ih =>
      intro pre s s' hl hI h
      rw [List.foldlM_cons] at h
      obtain ⟨t, ht, hrest⟩ := bind_returns.mp h
      exact ih (pre ++ [x]) t s' (by rw [hl]; simp) (hstep pre x rest s t hl hI ht) hrest

/-- The loop returns if no round fails while the invariant holds. -/
theorem foldlM_returns {f : α → β → Except ε α} {I : List β → α → Prop} (l : List β)
    (hstep : ∀ pre x post s, l = pre ++ x :: post → I pre s →
      ∃ s', f s x = .ok s' ∧ I (pre ++ [x]) s') :
    ∀ (post pre : List β) (s : α), l = pre ++ post → I pre s →
      ∃ s', post.foldlM f s = .ok s' := by
  intro post
  induction post with
  | nil => intro pre s _ _; exact ⟨s, rfl⟩
  | cons x rest ih =>
      intro pre s hl hI
      obtain ⟨t, ht, hI'⟩ := hstep pre x rest s hl hI
      obtain ⟨s', hs'⟩ := ih (pre ++ [x]) t (by rw [hl]; simp) hI'
      refine ⟨s', ?_⟩
      rw [List.foldlM_cons, ht]
      exact hs'

end Ytl
