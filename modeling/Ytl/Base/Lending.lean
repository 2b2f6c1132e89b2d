/-
Things that are lent and given back.

A stock of things is split into those that are free and those that are out.  One that is free
may be lent, and one that is out may be given back; what happens is written down.  Then
nothing is lent twice unless it was given back in between, and no thing is ever lost (`OK`).

The log is kept beside the state and never looked at by a step.  It is there for the
statement: that a thing is not lent twice is about two times in a run, and the two sets of
things say only what is the case now.  The link between them is the field `held`: what was
lent and not given back since is out.
-/
import Mathlib.Data.Finset.Card

namespace Ytl.Lending

variable {α : Type}

/-- What is written down. -/
inductive Event (α : Type) where
  | lent (x : α)
  | returned (x : α)
deriving DecidableEq, Repr

/-- Between two times that a thing is lent, it is given back. -/
def NeverTwice (log : List (Event α)) : Prop :=
  ∀ l₁ l₂ l₃ x, log = l₁ ++ .lent x :: l₂ ++ .lent x :: l₃ → .returned x ∈ l₂

/-- Where a list with one more element at its end can be cut at an element. -/
theorem concat_cut {l l₁ l₂ : List α} {x y : α} (h : l ++ [y] = l₁ ++ x :: l₂) :
    (l₂ = [] ∧ l = l₁ ∧ y = x) ∨ ∃ l₂', l₂ = l₂' ++ [y] ∧ l = l₁ ++ x :: l₂' := by
  rcases List.eq_nil_or_concat' l₂ with rfl | ⟨l₂', z, rfl⟩
  · obtain ⟨hl, hy⟩ := List.append_inj' h rfl
    exact Or.inl ⟨rfl, hl, List.singleton_inj.mp hy⟩
  · rw [← List.cons_append, ← List.append_assoc] at h
    obtain ⟨hl, hy⟩ := List.append_inj' h rfl
    rw [List.singleton_inj.mp hy]
    exact Or.inr ⟨l₂', rfl, hl⟩

variable [DecidableEq α]

/-- The things that are free, those that are out, and what has happened so far. -/
structure State (α : Type) where
  free : Finset α
  out : List α
  log : List (Event α)

/-- All is there, and nothing has happened. -/
def State.initial (stock : Finset α) : State α := ⟨stock, [], []⟩

/-- A free thing may be lent, one that is out may be given back, or nothing happens. -/
inductive Step (s : State α) : State α → Prop
  | idle : Step s s
  | lend (x : α) (hx : x ∈ s.free) : Step s ⟨s.free.erase x, x :: s.out, s.log ++ [.lent x]⟩
  | giveBack (x : α) (hx : x ∈ s.out) :
      Step s ⟨insert x s.free, s.out.erase x, s.log ++ [.returned x]⟩

/-- The books are in order. -/
structure OK (stock : Finset α) (s : State α) : Prop where
  nodup : s.out.Nodup
  apart : Disjoint s.free s.out.toFinset
  all : s.free ∪ s.out.toFinset = stock
  /-- What was lent and not given back since is out. -/
  held : ∀ l₁ l₂ x, s.log = l₁ ++ .lent x :: l₂ → .returned x ∉ l₂ → x ∈ s.out
  once : NeverTwice s.log

namespace OK

variable {stock : Finset α} {s t : State α}

/-! ### Every step keeps the books -/

theorem initial (stock : Finset α) : OK stock (.initial stock) := by
  refine ⟨List.nodup_nil, Finset.disjoint_empty_right _, Finset.union_empty _, ?_, ?_⟩
  · intro l₁ l₂ x h
    exact absurd h.symm (List.append_ne_nil_of_right_ne_nil l₁ (List.cons_ne_nil _ _))
  · intro l₁ l₂ l₃ x h
    exact absurd h.symm (List.append_ne_nil_of_right_ne_nil _ (List.cons_ne_nil _ _))

theorem not_out (h : OK stock s) {x : α} (hx : x ∈ s.free) : x ∉ s.out := by
  intro hout
  exact Finset.disjoint_left.mp h.apart hx (List.mem_toFinset.mpr hout)

theorem mem_stock (h : OK stock s) {x : α} (hx : x ∈ s.out) : x ∈ stock := by
  rw [← h.all]
  exact Finset.mem_union_right _ (List.mem_toFinset.mpr hx)

theorem lend (h : OK stock s) {x : α} (hx : x ∈ s.free) :
    OK stock ⟨s.free.erase x, x :: s.out, s.log ++ [.lent x]⟩ := by
  have hout := h.not_out hx
  refine ⟨List.nodup_cons.mpr ⟨hout, h.nodup⟩, ?_, ?_, ?_, ?_⟩
  · rw [List.toFinset_cons, Finset.disjoint_insert_right]
    exact ⟨Finset.notMem_erase x _, h.apart.mono_left (Finset.erase_subset x _)⟩
  · rw [List.toFinset_cons, Finset.union_insert, ← Finset.insert_union, Finset.insert_erase hx]
    exact h.all
  · intro l₁ l₂ y hlog hret
    rcases concat_cut hlog with ⟨-, -, heq⟩ | ⟨l₂', rfl, hlog'⟩
    · rw [Event.lent.inj heq]
      exact List.mem_cons_self
    · exact List.mem_cons_of_mem _
        (h.held l₁ l₂' y hlog' fun hmem => hret (List.mem_append_left _ hmem))
  · intro l₁ l₂ l₃ y hlog
    rcases concat_cut hlog with ⟨-, hlog', heq⟩ | ⟨l₃', -, hlog'⟩
    · -- it is lent now, so it was free, and not out any more
      by_contra hret
      rw [← Event.lent.inj heq] at hlog' hret
      exact hout (h.held l₁ l₂ x hlog' hret)
    · exact h.once l₁ l₂ l₃' y hlog'

theorem giveBack (h : OK stock s) {x : α} (hx : x ∈ s.out) :
    OK stock ⟨insert x s.free, s.out.erase x, s.log ++ [.returned x]⟩ := by
  have hset : (s.out.erase x).toFinset = s.out.toFinset.erase x := by
    ext y
    rw [List.mem_toFinset, Finset.mem_erase, List.mem_toFinset, h.nodup.mem_erase_iff]
  refine ⟨h.nodup.erase x, ?_, ?_, ?_, ?_⟩
  · rw [hset, Finset.disjoint_insert_left]
    exact ⟨Finset.notMem_erase x _, h.apart.mono_right (Finset.erase_subset x _)⟩
  · rw [hset, Finset.insert_union, ← Finset.union_insert,
      Finset.insert_erase (List.mem_toFinset.mpr hx)]
    exact h.all
  · intro l₁ l₂ y hlog hret
    rcases concat_cut hlog with ⟨-, -, heq⟩ | ⟨l₂', rfl, hlog'⟩
    · cases heq
    · have hne : y ≠ x := by
        rintro rfl
        exact hret (List.mem_append_right _ List.mem_cons_self)
      exact (List.mem_erase_of_ne hne).mpr
        (h.held l₁ l₂' y hlog' fun hmem => hret (List.mem_append_left _ hmem))
  · intro l₁ l₂ l₃ y hlog
    rcases concat_cut hlog with ⟨-, -, heq⟩ | ⟨l₃', -, hlog'⟩
    · cases heq
    · exact h.once l₁ l₂ l₃' y hlog'

/-- **Every step keeps the books in order.** -/
theorem step (h : OK stock s) (hs : Step s t) : OK stock t := by
  cases hs with
  | idle => exact h
  | lend x hx => exact h.lend hx
  | giveBack x hx => exact h.giveBack hx

/-- Nothing is lost. -/
theorem card_add_length (h : OK stock s) : s.free.card + s.out.length = stock.card := by
  rw [← List.toFinset_card_of_nodup h.nodup, ← Finset.card_union_of_disjoint h.apart, h.all]

end OK

end Ytl.Lending
