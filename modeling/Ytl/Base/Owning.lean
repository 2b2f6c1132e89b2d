/-
Blocks of memory that have one owner each.

The allocator numbers the blocks it hands out.  A place holds at most one of them; it may be
given a new one, lose the one it holds, or have it freed.  Whatever is done, no two places
hold the same block, no place holds one that was freed, and none is freed twice (`Sound`).

To lose a block is a leak: it is held by no place any more and will never be freed.  `Sound`
allows that.  What it excludes is the use of a block after it was freed, and for that it is
enough that a block is only ever handed to one place and that freeing empties the place.
-/
import Mathlib.Logic.Function.Basic
import Mathlib.Logic.Relation

namespace Ytl.Owning

variable {π : Type} [DecidableEq π]

/-- The blocks handed out so far are those with a number below `next`. -/
structure Heap (π : Type) where
  /-- The number of the next block. -/
  next : Nat
  freed : List Nat
  holds : π → Option Nat

/-- What may happen to a place.  The one that gets a new block loses the one it held. -/
inductive Step (h : Heap π) : Heap π → Prop
  | alloc (p : π) :
      Step h { h with next := h.next + 1, holds := Function.update h.holds p (some h.next) }
  | lose (p : π) : Step h { h with holds := Function.update h.holds p none }
  | free (p : π) : Step h
      { h with
        freed := h.freed ++ (h.holds p).toList
        holds := Function.update h.holds p none }

/-- Any number of steps. -/
abbrev Steps : Heap π → Heap π → Prop := Relation.ReflTransGen Step

/-- A block that is held was handed out and not freed, and is held once; none was freed twice. -/
structure Sound (h : Heap π) : Prop where
  live : ∀ p b, h.holds p = some b → b < h.next ∧ b ∉ h.freed
  once : ∀ p q b, h.holds p = some b → h.holds q = some b → p = q
  known : ∀ b ∈ h.freed, b < h.next
  nodup : h.freed.Nodup

namespace Sound

variable {h h' : Heap π}

/-! ### Every step keeps it -/

/-- What a place holds after one has been written is what it held, or was written. -/
theorem update_cases {holds : π → Option Nat} {p q : π} {v : Option Nat} {b : Nat}
    (h : Function.update holds p v q = some b) :
    q = p ∧ v = some b ∨ q ≠ p ∧ holds q = some b := by
  by_cases hq : q = p
  · rw [hq, Function.update_self] at h
    exact Or.inl ⟨hq, h⟩
  · rw [Function.update_of_ne hq] at h
    exact Or.inr ⟨hq, h⟩

theorem alloc (h : Sound h') (p : π) :
    Sound { h' with next := h'.next + 1, holds := Function.update h'.holds p (some h'.next) } := by
  -- no place holds a block with the number of the new one
  have hnew : ∀ q, h'.holds q ≠ some h'.next :=
    fun q hq => Nat.lt_irrefl _ (h.live q _ hq).1
  refine ⟨fun q b hq => ?_, fun q r b hq hr => ?_, fun b hb => Nat.lt_succ_of_lt (h.known b hb),
    h.nodup⟩
  · rcases update_cases hq with ⟨-, hb⟩ | ⟨-, hq⟩
    · obtain rfl := Option.some.inj hb
      exact ⟨Nat.lt_succ_self _, fun hmem => Nat.lt_irrefl _ (h.known _ hmem)⟩
    · exact ⟨Nat.lt_succ_of_lt (h.live q b hq).1, (h.live q b hq).2⟩
  · rcases update_cases hq with ⟨hqp, hb⟩ | ⟨-, hq⟩
    · rcases update_cases hr with ⟨hrp, -⟩ | ⟨-, hr⟩
      · rw [hqp, hrp]
      · rw [← Option.some.inj hb] at hr
        exact absurd hr (hnew r)
    · rcases update_cases hr with ⟨-, hb⟩ | ⟨-, hr⟩
      · rw [← Option.some.inj hb] at hq
        exact absurd hq (hnew q)
      · exact h.once q r b hq hr

theorem lose (h : Sound h') (p : π) :
    Sound { h' with holds := Function.update h'.holds p none } := by
  have hold : ∀ {q b}, Function.update h'.holds p none q = some b → h'.holds q = some b := by
    intro q b hq
    rcases update_cases hq with ⟨-, hb⟩ | ⟨-, hq⟩
    · cases hb
    · exact hq
  exact ⟨fun q b hq => h.live q b (hold hq),
    fun q r b hq hr => h.once q r b (hold hq) (hold hr), h.known, h.nodup⟩

theorem free (h : Sound h') (p : π) :
    Sound { h' with
      freed := h'.freed ++ (h'.holds p).toList
      holds := Function.update h'.holds p none } := by
  cases hp : h'.holds p with
  | none =>
      rw [Option.toList_none, List.append_nil]
      exact h.lose p
  | some x =>
      obtain ⟨hlive, hunfreed⟩ := h.live p x hp
      refine ⟨fun q b hq => ?_, (h.lose p).once, fun b hb => ?_, ?_⟩
      · obtain ⟨hlt, hnot⟩ := (h.lose p).live q b hq
        refine ⟨hlt, fun hmem => ?_⟩
        rcases List.mem_append.mp hmem with hmem | hmem
        · exact hnot hmem
        · -- the freed block was held here and nowhere else
          rw [Option.mem_toList.mp hmem] at hp
          rcases update_cases hq with ⟨-, hb⟩ | ⟨hqp, hq⟩
          · cases hb
          · exact hqp (h.once q p b hq hp)
      · rcases List.mem_append.mp hb with hb | hb
        · exact h.known b hb
        · rw [← Option.some.inj (Option.mem_toList.mp hb)]
          exact hlive
      · refine List.nodup_append.mpr ⟨h.nodup, List.pairwise_singleton _ x, fun a ha b hb hab => ?_⟩
        rw [hab, List.mem_singleton.mp hb] at ha
        exact hunfreed ha

theorem step (hs : Sound h) (hstep : Step h h') : Sound h' := by
  cases hstep with
  | alloc p => exact hs.alloc p
  | lose p => exact hs.lose p
  | free p => exact hs.free p

theorem steps (hs : Sound h) (hsteps : Steps h h') : Sound h' := by
  induction hsteps with
  | refl => exact hs
  | tail _ hstep ih => exact ih.step hstep

end Sound

end Ytl.Owning
