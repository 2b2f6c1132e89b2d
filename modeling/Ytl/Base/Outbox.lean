/-
An outbox that keeps the last few items and sends them in order.

Items are offered one after the other until one is refused; `answer` gives the
reply to each call by the number of the call.  `offer` lists the calls,
`accepted` the items that went out and `refusal` the reply that ended the round.

On top of that, `Outbox` numbers the items as they come in and keeps the numbers
that have gone out.  What is pending is what is left of the last `width` items;
an older item that never went out is given up.  `InOrder` says that numbers go
out in increasing order, and both operations keep it.
-/
import Mathlib.Data.List.Basic
import Mathlib.Tactic.Common

namespace Ytl

/-! ### Offering items in turn

A round is over as soon as an item is refused, so what is accepted is the front of what was
offered, and at most one call of a round is answered with a no.
-/

section Offer

variable {α β ρ : Type} (answer : Nat → ρ) (ok : ρ → Bool)

/-- The calls made when the items are offered from call number `n` on. -/
def offer : Nat → List α → List (α × ρ)
  | _, [] => []
  | n, a :: rest => (a, answer n) :: if ok (answer n) then offer (n + 1) rest else []

/-- The items that were accepted. -/
def accepted : Nat → List α → List α
  | _, [] => []
  | n, a :: rest => if ok (answer n) then a :: accepted (n + 1) rest else []

/-- The reply that ended the round, if not all items were accepted. -/
def refusal : Nat → List α → Option ρ
  | _, [] => none
  | n, _ :: rest => if ok (answer n) then refusal (n + 1) rest else some (answer n)

variable {answer ok}

theorem offer_map (f : α → β) :
    ∀ (n : Nat) (l : List α),
      offer answer ok n (l.map f) = (offer answer ok n l).map fun p => (f p.1, p.2) := by
  intro n l
  induction l generalizing n with
  | nil => rfl
  | cons a rest ih =>
      rw [List.map_cons, offer, offer, ih]
      by_cases h : ok (answer n) = true
      · simp [h]
      · simp [h]

theorem accepted_map (f : α → β) :
    ∀ (n : Nat) (l : List α), accepted answer ok n (l.map f) = (accepted answer ok n l).map f := by
  intro n l
  induction l generalizing n with
  | nil => rfl
  | cons a rest ih =>
      rw [List.map_cons, accepted, accepted, ih]
      by_cases h : ok (answer n) = true
      · simp [h]
      · simp [h]

theorem refusal_map (f : α → β) :
    ∀ (n : Nat) (l : List α), refusal answer ok n (l.map f) = refusal answer ok n l := by
  intro n l
  induction l generalizing n with
  | nil => rfl
  | cons a rest ih => rw [List.map_cons, refusal, refusal, ih]

/-- What was accepted is what the calls say was accepted. -/
theorem accepted_eq_offer :
    ∀ (n : Nat) (l : List α),
      accepted answer ok n l = ((offer answer ok n l).filter fun p => ok p.2).map Prod.fst := by
  intro n l
  induction l generalizing n with
  | nil => rfl
  | cons a rest ih =>
      rw [accepted, offer]
      by_cases h : ok (answer n) = true
      · simp [h, ih]
      · simp [h]

theorem offer_sublist :
    ∀ (n : Nat) (l : List α), ((offer answer ok n l).map Prod.fst).Sublist l := by
  intro n l
  induction l generalizing n with
  | nil => exact List.Sublist.slnil
  | cons a rest ih =>
      rw [offer]
      by_cases h : ok (answer n) = true
      · simpa [h] using ih (n + 1)
      · simp [h]

/-- The accepted items come first. -/
theorem accepted_prefix (answer : Nat → ρ) (ok : ρ → Bool) :
    ∀ (n : Nat) (l : List α), ∃ rest, l = accepted answer ok n l ++ rest := by
  intro n l
  induction l generalizing n with
  | nil => exact ⟨[], rfl⟩
  | cons a rest ih =>
      rw [accepted]
      by_cases h : ok (answer n) = true
      · obtain ⟨tail, htail⟩ := ih (n + 1)
        refine ⟨tail, ?_⟩
        rw [if_pos h, List.cons_append, ← htail]
      · exact ⟨a :: rest, by simp [h]⟩

theorem mem_of_mem_accepted {a : α} {n : Nat} {l : List α} (h : a ∈ accepted answer ok n l) :
    a ∈ l := by
  obtain ⟨rest, hsplit⟩ := accepted_prefix answer ok n l
  rw [hsplit]
  exact List.mem_append_left rest h

/-- No reply ended the round exactly when every item was accepted. -/
theorem accepted_of_refusal_none :
    ∀ (n : Nat) (l : List α), refusal answer ok n l = none → accepted answer ok n l = l := by
  intro n l
  induction l generalizing n with
  | nil => intro _; rfl
  | cons a rest ih =>
      intro h
      rw [refusal] at h
      by_cases hok : ok (answer n) = true
      · rw [if_pos hok] at h
        rw [accepted, if_pos hok, ih (n + 1) h]
      · rw [if_neg hok] at h
        cases h

/-- The reply that ended the round was given to the item behind the accepted ones. -/
theorem refused_of_refusal {r : ρ} :
    ∀ (n : Nat) (l : List α), refusal answer ok n l = some r →
      ok r = false ∧ ∃ a rest, l = accepted answer ok n l ++ a :: rest := by
  intro n l
  induction l generalizing n with
  | nil => nofun
  | cons a rest ih =>
      intro h
      rw [refusal] at h
      rw [accepted]
      by_cases hok : ok (answer n) = true
      · rw [if_pos hok] at h ⊢
        obtain ⟨hr, b, tail, htail⟩ := ih (n + 1) h
        exact ⟨hr, b, tail, by rw [List.cons_append, ← htail]⟩
      · rw [if_neg hok] at h ⊢
        rw [← Option.some.inj h]
        exact ⟨Bool.not_eq_true _ ▸ hok, a, rest, rfl⟩

/-- What is left after a round. -/
theorem accepted_append_drop (answer : Nat → ρ) (ok : ρ → Bool) (n : Nat) (l : List α) :
    accepted answer ok n l ++ l.drop (accepted answer ok n l).length = l := by
  obtain ⟨rest, hsplit⟩ := accepted_prefix answer ok n l
  have hdrop : l.drop (accepted answer ok n l).length = rest := by
    calc l.drop (accepted answer ok n l).length
        = (accepted answer ok n l ++ rest).drop (accepted answer ok n l).length := by rw [← hsplit]
      _ = rest := List.drop_left
  rw [hdrop]
  exact hsplit.symm

/-- A round has at most one reply that is no, the one that ended it. -/
theorem offer_refused :
    ∀ (n : Nat) (l : List α), ((offer answer ok n l).filter fun p => !ok p.2).map Prod.snd =
      (refusal answer ok n l).toList := by
  intro n l
  induction l generalizing n with
  | nil => rfl
  | cons a rest ih =>
      rw [offer, refusal]
      by_cases h : ok (answer n) = true
      · simpa [h] using ih (n + 1)
      · simp [h]

/-- A call that was refused is the last one, and its reply ended the round. -/
theorem refused_last {c : α × ρ} {post : List (α × ρ)} :
    ∀ (n : Nat) (l : List α) (pre : List (α × ρ)), offer answer ok n l = pre ++ c :: post →
      ok c.2 = false → post = [] ∧ refusal answer ok n l = some c.2 := by
  intro n l
  induction l generalizing n with
  | nil =>
      intro pre h
      cases pre <;> cases h
  | cons a rest ih =>
      intro pre h hno
      rw [offer] at h
      rw [refusal]
      by_cases hok : ok (answer n) = true
      · rw [if_pos hok] at h ⊢
        cases pre with
        | nil =>
            rw [← (List.cons.inj h).1, hok] at hno
            cases hno
        | cons b pre => exact ih (n + 1) pre (List.cons.inj h).2 hno
      · rw [if_neg hok] at h ⊢
        cases pre with
        | nil =>
            obtain ⟨hc, hpost⟩ := List.cons.inj h
            exact ⟨hpost.symm, by rw [← hc]⟩
        | cons b pre => exact absurd (List.cons.inj h).2 (by simp)

end Offer

/-! ### Numbered items

Numbers are given when an item comes in and never again, so they say which of two items came
in first.  That the items of a ring are the last few is the width; that they go out in order
is kept because a round offers all that is pending, oldest first, and stops at the first
refusal.
-/

/-- How many items have come in, and the numbers of those that have gone out. -/
structure Outbox where
  queued : Nat
  sent : List Nat

namespace Outbox

variable {width : Nat} {o : Outbox}

/-- The numbers of the last `width` items. -/
def recent (width queued : Nat) : List Nat := List.range' (queued - width) (queued - (queued - width))

theorem mem_recent {queued n : Nat} :
    n ∈ recent width queued ↔ queued - width ≤ n ∧ n < queued := by
  rw [recent, List.mem_range'_1]
  omega

/-- What is left of the last `width` items, oldest first. -/
def pending (width : Nat) (o : Outbox) : List Nat :=
  (recent width o.queued).filter fun n => n ∉ o.sent

theorem mem_pending {n : Nat} :
    n ∈ o.pending width ↔ (o.queued - width ≤ n ∧ n < o.queued) ∧ n ∉ o.sent := by
  rw [pending, List.mem_filter, mem_recent]
  simp

theorem pending_sorted (width : Nat) (o : Outbox) : (o.pending width).Pairwise (· < ·) :=
  List.Pairwise.filter _ List.pairwise_lt_range'

/-- Another item comes in. -/
def push (o : Outbox) : Outbox := { o with queued := o.queued + 1 }

/-- What is pending is offered, and what is accepted has gone out. -/
def send (width : Nat) {ρ : Type} (answer : Nat → ρ) (ok : ρ → Bool) (calls : Nat)
    (o : Outbox) : Outbox :=
  { o with sent := o.sent ++ accepted answer ok calls (o.pending width) }

/-- A new item is pending, and of the others those that are still among the last. -/
theorem pending_push (hwidth : 0 < width) (hbound : ∀ n ∈ o.sent, n < o.queued) :
    o.push.pending width =
      (o.pending width ++ [o.queued]).filter fun n => decide (o.queued < n + width) := by
  have hnew : o.queued ∉ o.sent := fun hc => Nat.lt_irrefl _ (hbound _ hc)
  have hsorted : (o.pending width ++ [o.queued]).Pairwise (· < ·) := by
    refine List.pairwise_append.mpr ⟨pending_sorted width o, List.pairwise_singleton _ _, ?_⟩
    intro n hn m hm
    rw [List.mem_singleton.mp hm]
    exact (mem_pending.mp hn).1.2
  refine List.Perm.eq_of_pairwise ?_ (pending_sorted width o.push)
    (hsorted.filter _) ?_
  · intro a b _ _ hab hba
    exact absurd hba (Nat.lt_asymm hab)
  refine (List.perm_ext_iff_of_nodup ?_ ?_).mpr fun n => ?_
  · exact (pending_sorted width o.push).imp Nat.ne_of_lt
  · exact (hsorted.filter _).imp Nat.ne_of_lt
  · rw [mem_pending, List.mem_filter, List.mem_append, mem_pending, List.mem_singleton]
    show ((o.queued + 1 - width ≤ n ∧ n < o.queued + 1) ∧ n ∉ o.sent) ↔ _
    constructor
    · rintro ⟨⟨hlow, hhigh⟩, hnot⟩
      refine ⟨?_, decide_eq_true (by omega)⟩
      by_cases hn : n = o.queued
      · exact Or.inr hn
      · exact Or.inl ⟨⟨by omega, by omega⟩, hnot⟩
    · rintro ⟨hold | rfl, hlast⟩
      · have hlast' := of_decide_eq_true hlast
        exact ⟨⟨by omega, by omega⟩, hold.2⟩
      · exact ⟨⟨by omega, by omega⟩, hnew⟩

/-- What was accepted is pending no more. -/
theorem pending_send {ρ : Type} {answer : Nat → ρ} {ok : ρ → Bool} {calls : Nat} :
    (o.send width answer ok calls).pending width =
      (o.pending width).drop (accepted answer ok calls (o.pending width)).length := by
  have hsplit := accepted_append_drop answer ok calls (o.pending width)
  have hnodup : (o.pending width).Nodup := (pending_sorted width o).imp Nat.ne_of_lt
  have hfilter : (o.send width answer ok calls).pending width =
      (o.pending width).filter
        fun n => decide (n ∉ accepted answer ok calls (o.pending width)) := by
    show (recent width o.queued).filter (fun n => decide
      (n ∉ o.sent ++ accepted answer ok calls (o.pending width))) = _
    generalize accepted answer ok calls (o.pending width) = gone
    unfold pending
    rw [List.filter_filter]
    refine List.filter_congr fun n _ => ?_
    simp [and_comm]
  rw [hfilter]
  generalize accepted answer ok calls (o.pending width) = gone at hsplit
  generalize (o.pending width).drop gone.length = rest at hsplit ⊢
  rw [← hsplit] at hnodup ⊢
  obtain ⟨-, -, hcross⟩ := List.nodup_append.mp hnodup
  have hnone : gone.filter (fun n => decide (n ∉ gone)) = [] :=
    List.filter_eq_nil_iff.mpr fun n hn => by simpa using hn
  have hall : rest.filter (fun n => decide (n ∉ gone)) = rest :=
    List.filter_eq_self.mpr fun n hn => decide_eq_true fun hc => hcross n hc n hn rfl
  rw [List.filter_append, hnone, hall, List.nil_append]

/-- Numbers go out in increasing order, and nothing pending has been overtaken. -/
structure InOrder (width : Nat) (o : Outbox) : Prop where
  sorted : o.sent.Pairwise (· < ·)
  bound : ∀ n ∈ o.sent, n < o.queued
  before : ∀ n ∈ o.sent, ∀ m ∈ o.pending width, n < m

namespace InOrder

theorem init : InOrder width ⟨0, []⟩ := by
  refine ⟨List.Pairwise.nil, ?_, ?_⟩
  · intro n hn
    simp at hn
  · intro n hn
    simp at hn

theorem push (h : InOrder width o) : InOrder width o.push := by
  refine ⟨h.sorted, fun n hn => Nat.lt_succ_of_lt (h.bound n hn), ?_⟩
  intro n hn m hm
  have hlt : n < o.queued := h.bound n hn
  obtain ⟨⟨hlow, hhigh⟩, hnot⟩ := mem_pending.mp hm
  have hhigh' : m < o.queued + 1 := hhigh
  have hlow' : o.queued + 1 - width ≤ m := hlow
  -- the new item is behind everything; an old one was pending before
  by_cases hnew : m = o.queued
  · omega
  · exact h.before n hn m (mem_pending.mpr ⟨⟨by omega, by omega⟩, hnot⟩)

theorem send {ρ : Type} {answer : Nat → ρ} {ok : ρ → Bool} {calls : Nat}
    (h : InOrder width o) : InOrder width (o.send width answer ok calls) := by
  obtain ⟨rest, hsplit⟩ := accepted_prefix answer ok calls (o.pending width)
  have hsorted := pending_sorted width o
  rw [hsplit] at hsorted
  obtain ⟨hacc, -, hcross⟩ := List.pairwise_append.mp hsorted
  refine ⟨?_, ?_, ?_⟩
  · refine List.pairwise_append.mpr ⟨h.sorted, hacc, ?_⟩
    intro n hn m hm
    exact h.before n hn m (mem_of_mem_accepted hm)
  · intro n hn
    rcases List.mem_append.mp hn with hold | hnew
    · exact h.bound n hold
    · exact (mem_pending.mp (mem_of_mem_accepted hnew)).1.2
  · intro n hn m hm
    obtain ⟨hrange, hnot⟩ := mem_pending.mp hm
    have hm' : m ∈ o.pending width := by
      refine mem_pending.mpr ⟨hrange, fun hc => hnot ?_⟩
      exact List.mem_append_left _ hc
    rcases List.mem_append.mp hn with hold | hnew
    · exact h.before n hold m hm'
    · -- what stays pending lies behind what was accepted
      rw [hsplit] at hm'
      rcases List.mem_append.mp hm' with hc | hrest
      · exact absurd (List.mem_append_right _ hc) hnot
      · exact hcross n hnew m hrest

end InOrder

end Outbox

end Ytl
