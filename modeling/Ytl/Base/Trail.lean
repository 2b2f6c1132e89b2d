/-
Following pointers until a node where the walk stops.

Each node names at most one next node.  A trail is the list of nodes a walk
visits before it reaches a stopping node; a walk that runs in a circle or falls
off the structure has none.  Trails are unique, because the next node is, and
that alone makes them free of repetitions: the trail of a node met twice would
be a proper part of itself.

Every node has a trail exactly when there is no circle.  A stopping node that gets a next
node closes one if and only if that node leads back to it: `trails_link_iff`.
-/
import Mathlib.Data.Fintype.Card

namespace Ytl

variable {α : Type}

/-- `Trail next stop a l`: walking from `a` visits exactly `l` before it stops. -/
inductive Trail (next : α → Option α) (stop : α → Prop) : α → List α → Prop
  | done {a : α} (h : stop a) : Trail next stop a []
  | step {a b : α} {l : List α} (h : ¬ stop a) (hn : next a = some b)
      (ht : Trail next stop b l) : Trail next stop a (a :: l)

namespace Trail

variable {next : α → Option α} {stop : α → Prop} {a b : α} {l l' : List α}

theorem unique (h : Trail next stop a l) : ∀ {l' : List α}, Trail next stop a l' → l = l' := by
  induction h with
  | done hs =>
      intro l' h'
      cases h' with
      | done _ => rfl
      | step hns _ _ => exact absurd hs hns
  | step hns hn _ ih =>
      intro l' h'
      cases h' with
      | done hs => exact absurd hs hns
      | step _ hn' ht' =>
          have hb := Option.some.inj (hn.symm.trans hn')
          subst hb
          rw [ih ht']

theorem not_stop (h : Trail next stop a l) : ∀ x ∈ l, ¬ stop x := by
  induction h with
  | done _ => intro x hx; simp at hx
  | step hns _ _ ih =>
      intro x hx
      rcases List.mem_cons.mp hx with rfl | hx'
      · exact hns
      · exact ih x hx'

theorem eq_nil_iff (h : Trail next stop a l) : l = [] ↔ stop a := by
  cases h with
  | done hs => exact ⟨fun _ => hs, fun _ => rfl⟩
  | step hns _ _ => exact ⟨fun hc => by simp at hc, fun hs => absurd hs hns⟩

/-- A node on a trail has its own trail, and it is a tail of the trail it lies on. -/
theorem suffix_of_mem (h : Trail next stop a l) :
    ∀ {x : α}, x ∈ l → ∃ l', Trail next stop x l' ∧ l' <:+ l := by
  induction h with
  | done _ => intro x hx; simp at hx
  | @step a b rest hns hn ht ih =>
      intro x hx
      rcases List.mem_cons.mp hx with rfl | hx'
      · exact ⟨_, Trail.step hns hn ht, List.suffix_refl _⟩
      · obtain ⟨l', hl', hsuf⟩ := ih hx'
        exact ⟨l', hl', hsuf.trans (List.suffix_cons _ _)⟩

/-- **A trail repeats no node.** -/
theorem nodup (h : Trail next stop a l) : l.Nodup := by
  induction h with
  | done _ => exact List.nodup_nil
  | @step a b rest hns hn ht ih =>
      refine List.nodup_cons.mpr ⟨fun hmem => ?_, ih⟩
      -- the walk from `a` would be a part of the walk from its own successor
      obtain ⟨l', hl', hsuf⟩ := ht.suffix_of_mem hmem
      have heq : a :: rest = l' := (Trail.step hns hn ht).unique hl'
      have hlen := hsuf.length_le
      rw [← heq] at hlen
      exact absurd hlen (by simp)

theorem next_ne_self (h : Trail next stop a l) (hns : ¬ stop a) : next a ≠ some a := by
  intro hself
  cases h with
  | done hs => exact hns hs
  | step _ hn ht =>
      have hnode := Option.some.inj (hself.symm.trans hn)
      subst hnode
      -- the trail of the node would be the rest of itself
      have heq := (Trail.step hns hself ht).unique ht
      exact absurd (congrArg List.length heq) (by simp)

theorem length_le_card [Fintype α] (h : Trail next stop a l) : l.length ≤ Fintype.card α :=
  h.nodup.length_le_card

/-! ### Walks when some nodes have been turned into stopping nodes

Removing a node from a structure makes the walk stop there.  A trail that did not come to it
is as it was, and one that did is cut off in front of it.
-/

variable {next' : α → Option α} {stop' : α → Prop}

/-- With more stopping nodes the walk ends no later. -/
theorem cut (hstop : ∀ x, stop x → stop' x) (hnext : ∀ x, ¬ stop' x → next' x = next x)
    (h : Trail next stop a l) : ∃ l', Trail next' stop' a l' := by
  induction h with
  | done hs => exact ⟨[], Trail.done (hstop _ hs)⟩
  | @step a b rest hns hn ht ih =>
      by_cases hs' : stop' a
      · exact ⟨[], Trail.done hs'⟩
      · obtain ⟨l', hl'⟩ := ih
        exact ⟨a :: l', Trail.step hs' ((hnext a hs').trans hn) hl'⟩

/-- A walk that met one of the new stopping nodes goes on through them. -/
theorem extend {R : α → Prop} (hstop : ∀ x, stop' x → stop x ∨ R x)
    (hns : ∀ x, ¬ stop' x → ¬ stop x) (hnext : ∀ x, ¬ stop' x → next' x = next x)
    (hR : ∀ x, R x → ∃ l, Trail next stop x l ∧ ∀ y ∈ l, R y)
    (h : Trail next' stop' a l) :
    ∃ rest, Trail next stop a (l ++ rest) ∧ ∀ y ∈ rest, R y := by
  induction h with
  | @done a hs =>
      rcases hstop a hs with hs | hr
      · exact ⟨[], Trail.done hs, by simp⟩
      · exact hR a hr
  | @step a b tail hns' hn ht ih =>
      obtain ⟨rest, hrest, hall⟩ := ih
      exact ⟨rest, Trail.step (hns a hns') ((hnext a hns').symm.trans hn) hrest, hall⟩

/-- Walks do not notice what the next node of a stopping node is. -/
theorem congr (hstop : ∀ x, stop' x ↔ stop x) (hnext : ∀ x, ¬ stop x → next' x = next x)
    (h : Trail next stop a l) : Trail next' stop' a l := by
  induction h with
  | done hs => exact Trail.done ((hstop _).mpr hs)
  | step hns hn _ ih =>
      exact Trail.step (fun hs => hns ((hstop _).mp hs)) ((hnext _ hns).trans hn) ih

end Trail

/-! ### Where a walk comes to

A trail says all of a walk; often only one node of it matters.
-/

/-- The walk from the one node comes to the other, which may be where it stops. -/
inductive Leads (next : α → Option α) (stop : α → Prop) : α → α → Prop
  | self (a : α) : Leads next stop a a
  | step {a b c : α} (h : ¬ stop a) (hn : next a = some b) (ht : Leads next stop b c) :
      Leads next stop a c

namespace Leads

variable {next next' : α → Option α} {stop stop' : α → Prop} {a b : α} {l : List α}

/-- Where the walk comes to without stopping is on its trail. -/
theorem mem_trail (h : Leads next stop a b) (hb : ¬ stop b) :
    ∀ {l : List α}, Trail next stop a l → b ∈ l := by
  induction h with
  | self a =>
      intro l hl
      cases hl with
      | done hs => exact absurd hs hb
      | step _ _ _ => exact List.mem_cons_self
  | step hns hn _ ih =>
      intro l hl
      cases hl with
      | done hs => exact absurd hs hns
      | step _ hn' hl' =>
          have hnode := Option.some.inj (hn.symm.trans hn')
          subst hnode
          exact List.mem_cons_of_mem _ (ih hb hl')

/-- A walk may be followed where fewer nodes stop it. -/
theorem mono (hns : ∀ x, ¬ stop x → ¬ stop' x) (hnext : ∀ x, ¬ stop x → next' x = next x)
    (h : Leads next stop a b) : Leads next' stop' a b := by
  induction h with
  | self a => exact Leads.self a
  | step hns' hn _ ih => exact Leads.step (hns _ hns') ((hnext _ hns').trans hn) ih

end Leads

section Link

variable {next next' : α → Option α} {stop stop' : α → Prop} {i j : α}

/-- A trail that does not come to `i` is one after `i` has been linked. -/
theorem Trail.link {a : α} {l : List α} (hother : ∀ x, x ≠ i → (stop' x ↔ stop x))
    (hnext : ∀ x, x ≠ i → next' x = next x) (h : Trail next stop a l)
    (hi : ¬ Leads next stop a i) : Trail next' stop' a l := by
  induction h with
  | @done a hs =>
      have hne : a ≠ i := fun heq => hi (heq ▸ Leads.self a)
      exact Trail.done ((hother a hne).mpr hs)
  | @step a b rest hns hn _ ih =>
      have hne : a ≠ i := fun heq => hi (heq ▸ Leads.self a)
      exact Trail.step (fun hs => hns ((hother a hne).mp hs)) ((hnext a hne).trans hn)
        (ih fun hb => hi (Leads.step hns hn hb))

/-- **Linking a stopping node.**  There is no circle afterwards exactly when there was none
before and the node it is linked to does not lead to it. -/
theorem trails_link_iff (hi : stop i) (hi' : ¬ stop' i) (hlink : next' i = some j)
    (hother : ∀ x, x ≠ i → (stop' x ↔ stop x)) (hnext : ∀ x, x ≠ i → next' x = next x) :
    (∀ a, ∃ l, Trail next' stop' a l) ↔
      (∀ a, ∃ l, Trail next stop a l) ∧ ¬ Leads next stop j i := by
  -- what is no stop before is another node, and no stop afterwards
  have hne : ∀ x, ¬ stop x → x ≠ i := fun x hx heq => hx (heq ▸ hi)
  have hns : ∀ x, ¬ stop x → ¬ stop' x := fun x hx hs => hx ((hother x (hne x hx)).mp hs)
  constructor
  · intro hall
    constructor
    · intro a
      obtain ⟨l, hl⟩ := hall a
      refine hl.cut (fun x hs => ?_) fun x hx => (hnext x (hne x hx)).symm
      by_contra hx
      exact hns x hx hs
    · intro hlead
      obtain ⟨l, hl⟩ := hall j
      have hlead' : Leads next' stop' j i := hlead.mono hns fun x hx => hnext x (hne x hx)
      -- the circle through `i`: its trail would hold it twice
      have hcircle := (Trail.step hi' hlink hl).nodup
      exact (List.nodup_cons.mp hcircle).1 (hlead'.mem_trail hi' hl)
  · rintro ⟨hall, hlead⟩ a
    obtain ⟨lj, hlj⟩ := hall j
    have hfrom : Trail next' stop' i (i :: lj) :=
      Trail.step hi' hlink (hlj.link hother hnext hlead)
    obtain ⟨l, hl⟩ := hall a
    clear hall
    induction hl with
    | @done a hs =>
        by_cases heq : a = i
        · exact ⟨i :: lj, heq ▸ hfrom⟩
        · exact ⟨[], Trail.done ((hother a heq).mpr hs)⟩
    | @step a b rest hns' hn _ ih =>
        obtain ⟨l, hl⟩ := ih
        exact ⟨a :: l, Trail.step (hns a hns') ((hnext a (hne a hns')).trans hn) hl⟩

end Link

end Ytl
