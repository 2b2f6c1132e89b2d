/-
Runs of a system that is driven from outside.

A machine is a step function on labels.  A label carries the call together with everything the
environment answers while it runs, so a run is a list of labels and nothing else.  `admits` is
what the environment promises about an answer in the state it is given in.

Two kinds of statement are made about runs.  An invariant holds in every reachable state,
which is the rule `Reachable.invariant`.  A property that the code keeps only under a
condition is compared with that condition along the whole run: `always_iff_meets` lifts a
one-step equivalence to every run, and the invariant it carries is only needed while the
condition holds.  The other rules of this kind are for properties of the last state, or of all
states on the way.

Each of these is an induction on the run, done here once.  A proof about a component then has
two parts: what a single operation does, and which rule carries it to runs.
-/
import Ytl.Base.Fault

namespace Ytl

/-- A system with start states, promises of the environment, and a step function. -/
structure Machine (σ α ε : Type) where
  start : σ → Prop
  admits : σ → α → Prop
  step : σ → α → Except ε σ

namespace Machine

variable {σ α ε : Type} (m : Machine σ α ε)

/-! ### States that are reached -/

/-- The states that finitely many completed steps lead to. -/
inductive Reachable : σ → Prop
  | start {s : σ} (h : m.start s) : Reachable s
  | step {s s' : σ} {a : α} (h : Reachable s) (ha : m.admits s a)
      (hs : m.step s a = .ok s') : Reachable s'

variable {m}

/-- What holds at the start and survives every step holds in every reachable state. -/
theorem Reachable.invariant {I : σ → Prop} (hstart : ∀ s, m.start s → I s)
    (hstep : ∀ s a s', I s → m.admits s a → m.step s a = .ok s' → I s') {s : σ}
    (h : m.Reachable s) : I s := by
  induction h with
  | start h => exact hstart _ h
  | step _ ha hs ih => exact hstep _ _ _ ih ha hs

variable (m) in
/-- Run a list of labels, as long as the promises are kept and the steps return. -/
def run [∀ s a, Decidable (m.admits s a)] : σ → List α → Option σ
  | s, [] => some s
  | s, a :: as =>
      if m.admits s a then
        match m.step s a with
        | .ok s' => run s' as
        | .error _ => none
      else none

theorem Reachable.of_run [∀ s a, Decidable (m.admits s a)] :
    ∀ (as : List α) {s s' : σ}, m.Reachable s → m.run s as = some s' → m.Reachable s' := by
  intro as
  induction as with
  | nil =>
      intro s s' h hrun
      rw [← Option.some.inj hrun]
      exact h
  | cons a rest ih =>
      intro s s' h hrun
      rw [run] at hrun
      split at hrun
      · rename_i ha
        split at hrun
        · rename_i t ht
          exact ih (h.step ha ht) hrun
        · cases hrun
      · cases hrun

/-- A run that can be carried out ends in a reachable state. -/
theorem exists_reachable [∀ s a, Decidable (m.admits s a)] {s : σ} (hs : m.start s)
    (as : List α) (P : σ → Bool) (h : (m.run s as).any P = true) :
    ∃ s', m.Reachable s' ∧ P s' = true := by
  obtain ⟨s', hrun, hP⟩ := (Option.any_eq_true P _).mp h
  exact ⟨s', Reachable.of_run as (Reachable.start hs) hrun, hP⟩

variable (m)

/-! ### What is said of a run

`Admitted` is about the environment, the others about the code.  `Always` also says that every
step returns; `Meets` asks for its condition only as far as the run comes, because behind a
step that does not return there is no state to ask it of.
-/

/-- The environment keeps its promise at every step of the run. -/
def Admitted : σ → List α → Prop
  | _, [] => True
  | s, a :: as => m.admits s a ∧ ∀ s', m.step s a = .ok s' → Admitted s' as

/-- Every step of the run returns, and `Q` relates the states around it. -/
def Always (Q : σ → α → σ → Prop) : σ → List α → Prop
  | _, [] => True
  | s, a :: as => ∃ s', m.step s a = .ok s' ∧ Q s a s' ∧ Always Q s' as

/-- Every step of the run is taken in a state that meets the condition `C`. -/
def Meets (C : σ → α → Prop) : σ → List α → Prop
  | _, [] => True
  | s, a :: as => C s a ∧ ∀ s', m.step s a = .ok s' → Meets C s' as

/-- Every state that the run passes through has the property `P`. -/
def Throughout (P : σ → Prop) : σ → List α → Prop
  | s, [] => P s
  | s, a :: as => P s ∧ ∀ s', m.step s a = .ok s' → Throughout P s' as

/-- A machine that may start anywhere and is promised nothing. -/
def ofStep (step : σ → α → Except ε σ) : Machine σ α ε := ⟨fun _ => True, fun _ _ => True, step⟩

variable {m}

/-! ### From one step to every run

In each of these rules a hypothesis speaks of one step, and the conclusion is an equivalence
for whole runs.  They differ in when the property is looked at: around each step, at the end
of the run, or in every state on the way.
-/

/-- **A one-step equivalence lifts to whole runs.**  A step that meets the condition
returns, does as it should and keeps the invariant; a step that does as it should has
met the condition. -/
theorem always_iff_meets {I : σ → Prop} {Q : σ → α → σ → Prop} {C : σ → α → Prop}
    (hgood : ∀ s a, I s → m.admits s a → C s a → ∃ s', m.step s a = .ok s' ∧ Q s a s' ∧ I s')
    (hmeet : ∀ s a s', I s → m.admits s a → m.step s a = .ok s' → Q s a s' → C s a) :
    ∀ (as : List α) (s : σ), I s → m.Admitted s as → (m.Always Q s as ↔ m.Meets C s as) := by
  intro as
  induction as with
  | nil => intro s _ _; exact Iff.rfl
  | cons a rest ih =>
      intro s hI hadm
      obtain ⟨ha, hrest⟩ := hadm
      constructor
      · rintro ⟨s', hs, hQ, hall⟩
        have hC : C s a := hmeet s a s' hI ha hs hQ
        obtain ⟨t, ht, -, hI'⟩ := hgood s a hI ha hC
        have hts : t = s' := Except.ok.inj (ht.symm.trans hs)
        rw [hts] at hI'
        refine ⟨hC, fun u hu => ?_⟩
        rw [Except.ok.inj (hu.symm.trans hs)]
        exact (ih s' hI' (hrest s' hs)).mp hall
      · rintro ⟨hC, hall⟩
        obtain ⟨s', hs, hQ, hI'⟩ := hgood s a hI ha hC
        exact ⟨s', hs, hQ, (ih s' hI' (hrest s' hs)).mpr (hall s' hs)⟩

/-- Steps that return and keep an invariant make every run one that always does. -/
theorem always_of_invariant {I : σ → Prop} {Q : σ → α → σ → Prop}
    (hstep : ∀ s a, I s → m.admits s a → ∃ s', m.step s a = .ok s' ∧ Q s a s' ∧ I s') :
    ∀ (as : List α) (s : σ), I s → m.Admitted s as → m.Always Q s as := by
  intro as
  induction as with
  | nil => intro s _ _; exact trivial
  | cons a rest ih =>
      intro s hI hadm
      obtain ⟨s', hs, hQ, hI'⟩ := hstep s a hI hadm.1
      exact ⟨s', hs, hQ, ih s' hI' (hadm.2 s' hs)⟩

/-- A property that no step restores, and that a step keeps exactly when the condition
is met, holds at the end of a run exactly when every step met the condition. -/
theorem final_iff_meets {I P : σ → Prop} {C : σ → α → Prop}
    (hkeep : ∀ s a s', I s → m.admits s a → m.step s a = .ok s' → I s')
    (hback : ∀ s a s', I s → m.admits s a → m.step s a = .ok s' → P s' → P s)
    (hiff : ∀ s a, I s → m.admits s a → P s → (C s a ↔ ∃ s', m.step s a = .ok s' ∧ P s')) :
    ∀ (as : List α) (s : σ), I s → m.Admitted s as →
      ((∃ s', as.foldlM m.step s = .ok s' ∧ P s') ↔ P s ∧ m.Meets C s as) := by
  intro as
  induction as with
  | nil =>
      intro s _ _
      constructor
      · rintro ⟨s', hrun, hP⟩
        rw [Except.ok.inj hrun]
        exact ⟨hP, trivial⟩
      · rintro ⟨hP, -⟩
        exact ⟨s, rfl, hP⟩
  | cons a rest ih =>
      intro s hI hadm
      obtain ⟨ha, hrest⟩ := hadm
      constructor
      · rintro ⟨s', hrun, hP⟩
        rw [List.foldlM_cons] at hrun
        obtain ⟨t, ht, hrun⟩ := bind_returns.mp hrun
        obtain ⟨hPt, hmeets⟩ :=
          (ih t (hkeep s a t hI ha ht) (hrest t ht)).mp ⟨s', hrun, hP⟩
        have hPs : P s := hback s a t hI ha ht hPt
        refine ⟨hPs, (hiff s a hI ha hPs).mpr ⟨t, ht, hPt⟩, fun u hu => ?_⟩
        rw [Except.ok.inj (hu.symm.trans ht)]
        exact hmeets
      · rintro ⟨hPs, hC, hmeets⟩
        obtain ⟨t, ht, hPt⟩ := (hiff s a hI ha hPs).mp hC
        obtain ⟨s', hrun, hP⟩ :=
          (ih t (hkeep s a t hI ha ht) (hrest t ht)).mpr ⟨hPt, hmeets t ht⟩
        refine ⟨s', ?_, hP⟩
        rw [List.foldlM_cons, ht]
        exact hrun

/-- The same for runs that are known to return, where a step is also known to keep
what was there before. -/
theorem completed_iff_meets {I P : σ → Prop} {C : σ → α → Prop}
    (hkeep : ∀ s a s', I s → m.admits s a → m.step s a = .ok s' → I s')
    (hiff : ∀ s a s', I s → m.admits s a → m.step s a = .ok s' → (P s' ↔ P s ∧ C s a)) :
    ∀ (as : List α) (s s' : σ), I s → m.Admitted s as → as.foldlM m.step s = .ok s' →
      (P s' ↔ P s ∧ m.Meets C s as) := by
  intro as
  induction as with
  | nil =>
      intro s s' _ _ hrun
      rw [← Except.ok.inj hrun]
      exact ⟨fun hP => ⟨hP, trivial⟩, fun hP => hP.1⟩
  | cons a rest ih =>
      intro s s' hI hadm hrun
      obtain ⟨ha, hrest⟩ := hadm
      rw [List.foldlM_cons] at hrun
      obtain ⟨t, ht, hrun⟩ := bind_returns.mp hrun
      rw [ih t s' (hkeep s a t hI ha ht) (hrest t ht) hrun, hiff s a t hI ha ht, and_assoc]
      refine and_congr_right fun _ => and_congr_right fun _ => ?_
      constructor
      · intro hmeets u hu
        rw [Except.ok.inj (hu.symm.trans ht)]
        exact hmeets
      · intro hmeets
        exact hmeets t ht

theorem Throughout.start {P : σ → Prop} : ∀ {as : List α} {s : σ}, m.Throughout P s as → P s
  | [], _, h => h
  | _ :: _, _, h => h.1

/-- The last state is one of them. -/
theorem Throughout.last {P : σ → Prop} :
    ∀ (as : List α) {s s' : σ}, m.Throughout P s as → as.foldlM m.step s = .ok s' → P s' := by
  intro as
  induction as with
  | nil =>
      intro s s' h hrun
      rw [← Except.ok.inj hrun]
      exact h
  | cons a rest ih =>
      intro s s' h hrun
      rw [List.foldlM_cons] at hrun
      obtain ⟨t, ht, hrun⟩ := bind_returns.mp hrun
      exact ih (h.2 t ht) hrun

/-- A property that a step keeps exactly when the condition is met holds throughout a run
exactly when every step met it, also where a later step would restore it.  Where the run does not
return, the condition is about the step that it ends with too. -/
theorem throughout_iff {I P : σ → Prop} {C : σ → α → Prop}
    (hkeep : ∀ s a s', I s → m.admits s a → m.step s a = .ok s' → I s')
    (hiff : ∀ s a, I s → P s → m.admits s a →
      ((∀ s', m.step s a = .ok s' → P s') ↔ C s a)) :
    ∀ (as : List α) (s : σ), I s → m.Admitted s as →
      (m.Throughout P s as ↔ P s ∧ m.Meets C s as) := by
  intro as
  induction as with
  | nil => intro s _ _; exact ⟨fun hP => ⟨hP, trivial⟩, fun h => h.1⟩
  | cons a rest ih =>
      intro s hI hadm
      obtain ⟨ha, hlater⟩ := hadm
      refine and_congr_right fun hP => ?_
      constructor
      · intro hall
        refine ⟨(hiff s a hI hP ha).mp fun s' hs => (hall s' hs).start, fun s' hs => ?_⟩
        exact ((ih s' (hkeep s a s' hI ha hs) (hlater s' hs)).mp (hall s' hs)).2
      · rintro ⟨hC, hmeets⟩ s' hs
        have hP' : P s' := (hiff s a hI hP ha).mpr hC s' hs
        exact (ih s' (hkeep s a s' hI ha hs) (hlater s' hs)).mpr ⟨hP', hmeets s' hs⟩

/-- Conditions that agree wherever an invariant holds agree on every run that returns; a third
condition may be needed for that and to keep the invariant. -/
theorem meets_congr_of_invariant {I : σ → Prop} {C D E : σ → α → Prop}
    (hstep : ∀ s a s', I s → E s a → m.step s a = .ok s' → (C s a ↔ D s a) ∧ I s') :
    ∀ (as : List α) (s s' : σ), I s → m.Meets E s as → as.foldlM m.step s = .ok s' →
      (m.Meets C s as ↔ m.Meets D s as) := by
  intro as
  induction as with
  | nil => intro s s' _ _ _; exact Iff.rfl
  | cons a rest ih =>
      intro s s' hI hE hrun
      rw [List.foldlM_cons] at hrun
      obtain ⟨t, ht, hrun⟩ := bind_returns.mp hrun
      obtain ⟨hiff, hI'⟩ := hstep s a t hI hE.1 ht
      refine and_congr hiff (forall_congr' fun u => forall_congr' fun hu => ?_)
      rw [Except.ok.inj (hu.symm.trans ht)]
      exact ih t s' hI' (hE.2 t ht) hrun

theorem meets_of_forall {C : σ → α → Prop} (h : ∀ s a, C s a) :
    ∀ (as : List α) (s : σ), m.Meets C s as := by
  intro as
  induction as with
  | nil => intro s; exact trivial
  | cons a rest ih => intro s; exact ⟨h s a, fun s' _ => ih s'⟩

/-- Conditions that agree on every step that returns agree on every run that does. -/
theorem meets_congr {C D : σ → α → Prop}
    (hiff : ∀ s a s', m.step s a = .ok s' → (C s a ↔ D s a)) (as : List α) (s s' : σ)
    (hrun : as.foldlM m.step s = .ok s') : m.Meets C s as ↔ m.Meets D s as :=
  meets_congr_of_invariant (I := fun _ => True) (E := fun _ _ => True)
    (fun s a s' _ _ hs => ⟨hiff s a s' hs, trivial⟩) as s s' trivial
    (meets_of_forall (fun _ _ => trivial) as s) hrun

/-- For a run that returns, the condition is only about steps that do. -/
theorem throughout_iff_meets {I P : σ → Prop} {C : σ → α → Prop}
    (hkeep : ∀ s a s', I s → m.admits s a → m.step s a = .ok s' → I s')
    (hiff : ∀ s a s', I s → P s → m.admits s a → m.step s a = .ok s' → (P s' ↔ C s a))
    (as : List α) (s s' : σ) (hI : I s) (hadm : m.Admitted s as)
    (hrun : as.foldlM m.step s = .ok s') : m.Throughout P s as ↔ P s ∧ m.Meets C s as := by
  rw [← meets_congr (C := fun t a => ∀ t', m.step t a = .ok t' → C t a)
    (fun t a t' ht => ⟨fun h => h t' ht, fun h _ _ => h⟩) as s s' hrun]
  refine throughout_iff hkeep (fun t a hI hP ha => ?_) as s hI hadm
  exact forall_congr' fun t' => forall_congr' fun ht => hiff t a t' hI hP ha ht

/-- A machine that is promised nothing gets what it is promised. -/
theorem admitted_ofStep (step : σ → α → Except ε σ) :
    ∀ (as : List α) (s : σ), (ofStep step).Admitted s as := by
  intro as
  induction as with
  | nil => intro s; exact trivial
  | cons a rest ih => intro s; exact ⟨trivial, fun s' _ => ih s'⟩

/-- For such a machine no invariant is needed. -/
theorem ofStep_iff_meets {step : σ → α → Except ε σ} {P : σ → Prop} {C : σ → α → Prop}
    (hiff : ∀ s a s', step s a = .ok s' → (P s' ↔ P s ∧ C s a)) (as : List α) (s s' : σ)
    (hrun : as.foldlM step s = .ok s') : P s' ↔ P s ∧ (ofStep step).Meets C s as :=
  completed_iff_meets (m := ofStep step) (I := fun _ => True) (fun _ _ _ _ _ _ => trivial)
    (fun s a s' _ _ hs => hiff s a s' hs) as s s' trivial (admitted_ofStep step as s) hrun

/-! ### Runs in parts -/

/-- A run in two parts. -/
theorem Admitted.append {bs : List α} :
    ∀ (as : List α) {s : σ}, m.Admitted s as →
      (∀ t, as.foldlM m.step s = .ok t → m.Admitted t bs) → m.Admitted s (as ++ bs) := by
  intro as
  induction as with
  | nil =>
      intro s _ hrest
      exact hrest s rfl
  | cons a rest ih =>
      intro s hadm hrest
      refine ⟨hadm.1, fun s' hs => ih (hadm.2 s' hs) fun t ht => hrest t ?_⟩
      rw [List.foldlM_cons, hs]
      exact ht

theorem Always.append {Q : σ → α → σ → Prop} {bs : List α} :
    ∀ (as : List α) {s : σ}, m.Always Q s (as ++ bs) →
      ∃ t, as.foldlM m.step s = .ok t ∧ m.Always Q t bs := by
  intro as
  induction as with
  | nil =>
      intro s h
      exact ⟨s, rfl, h⟩
  | cons a rest ih =>
      rintro s ⟨u, hu, -, hrest⟩
      obtain ⟨t, ht, hlast⟩ := ih hrest
      refine ⟨t, ?_, hlast⟩
      rw [List.foldlM_cons, hu]
      exact ht

/-- The last step of a run: the state it leads to is the end of the run. -/
theorem Always.last {Q : σ → α → σ → Prop} {a : α} (as : List α) {s : σ}
    (h : m.Always Q s (as ++ [a])) :
    ∃ t, (as ++ [a]).foldlM m.step s = .ok t ∧ ∃ s', Q s' a t := by
  obtain ⟨s', hs', t, ht, hQ, -⟩ := Always.append as h
  refine ⟨t, ?_, s', hQ⟩
  rw [List.foldlM_append, hs', bind_of_ok, List.foldlM_cons, ht]
  rfl

variable (m) in
/-! ### Carrying a run out

A run is a list, so what is said of a fixed run can be decided.
-/

/-- Carry out a run, testing the promise and the condition at every step. -/
def check (C : σ → α → Prop) [∀ s a, Decidable (m.admits s a)] [∀ s a, Decidable (C s a)] :
    σ → List α → Bool
  | _, [] => true
  | s, a :: as => decide (m.admits s a ∧ C s a) &&
      checkResult (m.step s a) fun s' => check C s' as

/-- What a run meets is tested by carrying it out. -/
instance decidableMeets {C : σ → α → Prop} [∀ s a, Decidable (C s a)] :
    (as : List α) → (s : σ) → Decidable (m.Meets C s as)
  | [], _ => isTrue trivial
  | a :: as, s =>
      have _ (s' : σ) : Decidable (m.Meets C s' as) := decidableMeets as s'
      inferInstanceAs (Decidable (C s a ∧ ∀ s', m.step s a = .ok s' → m.Meets C s' as))

/-- For what an environment may answer: something that is not in use. -/
def decidableFresh {β : Type*} [DecidableEq β] (used : List β) (b : β) : Decidable (b ∉ used) :=
  inferInstance

instance decidableThroughout {P : σ → Prop} [∀ s, Decidable (P s)] :
    (as : List α) → (s : σ) → Decidable (m.Throughout P s as)
  | [], s => inferInstanceAs (Decidable (P s))
  | a :: as, s =>
      have _ (s' : σ) : Decidable (m.Throughout P s' as) := decidableThroughout as s'
      inferInstanceAs (Decidable (P s ∧ ∀ s', m.step s a = .ok s' → m.Throughout P s' as))

theorem meets_of_check {C : σ → α → Prop} [∀ s a, Decidable (m.admits s a)]
    [∀ s a, Decidable (C s a)] :
    ∀ (as : List α) (s : σ), m.check C s as = true → m.Admitted s as ∧ m.Meets C s as := by
  intro as
  induction as with
  | nil => intro s _; exact ⟨trivial, trivial⟩
  | cons a rest ih =>
      intro s h
      obtain ⟨hnow, hrest⟩ := Bool.and_eq_true_iff.mp h
      obtain ⟨ha, hC⟩ := of_decide_eq_true hnow
      refine ⟨⟨ha, fun s' hs => ?_⟩, ⟨hC, fun s' hs => ?_⟩⟩
      · exact (ih s' (of_checkResult hrest hs)).1
      · exact (ih s' (of_checkResult hrest hs)).2

/-! ### Loops as runs

A loop over a list is a run of the machine whose steps are its rounds.
-/

/-- What every step keeps that meets the condition holds at the end of a run that does. -/
theorem foldlM_invariant_of_meets {I : σ → Prop} {C : σ → α → Prop}
    (hkeep : ∀ s a s', I s → C s a → m.step s a = .ok s' → I s') :
    ∀ (as : List α) (s s' : σ), I s → m.Meets C s as → as.foldlM m.step s = .ok s' → I s' := by
  intro as
  induction as with
  | nil =>
      intro s s' hI _ hrun
      rw [← Except.ok.inj hrun]
      exact hI
  | cons a rest ih =>
      intro s s' hI hmeets hrun
      rw [List.foldlM_cons] at hrun
      obtain ⟨t, ht, hrun⟩ := bind_returns.mp hrun
      exact ih t s' (hkeep s a t hI hmeets.1 ht) (hmeets.2 t ht) hrun

theorem admitted_iff_meets :
    ∀ (as : List α) (s : σ), m.Admitted s as ↔ m.Meets m.admits s as := by
  intro as
  induction as with
  | nil => intro s; exact Iff.rfl
  | cons a rest ih =>
      intro s
      exact and_congr_right fun _ => forall_congr' fun s' => forall_congr' fun _ => ih s'

/-- What every step keeps holds at the end of a run. -/
theorem foldlM_invariant_of_admitted {I : σ → Prop}
    (hkeep : ∀ s a s', I s → m.admits s a → m.step s a = .ok s' → I s') (as : List α)
    (s s' : σ) (hI : I s) (hadm : m.Admitted s as) (hrun : as.foldlM m.step s = .ok s') : I s' :=
  foldlM_invariant_of_meets hkeep as s s' hI ((admitted_iff_meets as s).mp hadm) hrun

end Machine

end Ytl
