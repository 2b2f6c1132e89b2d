/-
A program that rearranges an array.

Every function of the library that only moves elements is called with numbers for the range it
works on, and the library checks none of them.  Which calls stay in the array depends on the
number of its elements and on nothing else, since the calls keep that number: so a program can be
checked before it runs, and the check is exact.

What the calls leave is a permutation of what they found.  A program that sorts at the end might
as well have sorted at once.

Exact means two proofs for each function.  A call that is in range returns, and permutes the
front of the array; and a call that returns was in range, because somewhere on its way it has
looked at the last element of its range, whatever the elements are.
-/
import Ytl.Proofs.Algorithm.Linear
import Ytl.Proofs.Algorithm.NthElement
import Ytl.Proofs.Algorithm.PartialSort
import Ytl.Proofs.Algorithm.Rotate

namespace Ytl.Algorithm

variable {α : Type} {t t' : Array α} {n : Nat}

/-! ### What a call leaves

The functions are told apart by how far their range goes, and not by what they do with it.
-/

/-- The first `n` elements have changed places among themselves. -/
structure Permuted (n : Nat) (t t' : Array α) : Prop where
  perm : t'.toList.Perm t.toList
  behind : t'.toList.drop n = t.toList.drop n

theorem Moves.permuted {d : α} (h : Moves d 0 n t t') : Permuted n t t' := ⟨h.perm, h.drop_eq⟩

/-- A range of at most one element is left alone without a look at it. -/
theorem permuted_of_short {call : Except Fault (Array α)} (hshort : n ≤ 1 → call = .ok t)
    (hmoves : ∀ d, n ≤ t.size → ∃ t', call = .ok t' ∧ Moves d 0 n t t')
    (h : n ≤ 1 ∨ n ≤ t.size) : ∃ t', call = .ok t' ∧ Permuted n t t' := by
  by_cases hn : n ≤ 1
  · exact ⟨t, hshort hn, List.Perm.refl _, rfl⟩
  · have hpos : 0 < t.size := by omega
    obtain ⟨t', ht', hmoved⟩ := hmoves t[0] (h.resolve_left hn)
    exact ⟨t', ht', hmoved.permuted⟩

/-! ### Reads and swaps that return

An access that returns tells that its index was in range.
-/

theorem read_inside {i : Nat} {a : α} (h : read t i = .ok a) : i < t.size := by
  by_contra hi
  rw [read_error hi] at h
  cases h

theorem swap_inside {i j : Nat} (h : swap t i j = .ok t') : i < t.size ∧ j < t.size := by
  by_contra hc
  simp [swap, hc] at h

theorem swap_size {i j : Nat} (h : swap t i j = .ok t') : t'.size = t.size := by
  have hij := swap_inside h
  simp only [swap, dif_pos hij, Except.ok.injEq] at h
  simp [← h]

theorem reverse_inside {off : Nat} (h : reverse t off n = .ok t') (hn : 1 < n) :
    off + n ≤ t.size := by
  obtain ⟨i, hi⟩ : ∃ i, n / 2 = i + 1 := ⟨n / 2 - 1, by omega⟩
  rw [reverse, hi, reverseLoop] at h
  obtain ⟨u, hu, -⟩ := bind_returns.mp h
  have hlast := (swap_inside hu).2
  omega

theorem reverseLoop_size {off : Nat} :
    ∀ (left i : Nat) (t : Array α), reverseLoop off n left i t = .ok t' → t'.size = t.size := by
  intro left
  induction left with
  | zero =>
      intro i t h
      rw [Except.ok.inj h]
  | succ left ih =>
      intro i t h
      obtain ⟨u, hu, hrest⟩ := bind_returns.mp h
      rw [ih (i + 1) u hrest, swap_size hu]

theorem reverseLoop_moves (d : α) {off : Nat} (hsize : off + n ≤ t.size) :
    ∀ (left i : Nat), i + left ≤ n / 2 → ∀ u : Array α, u.size = t.size →
      ∃ t', reverseLoop off n left i u = .ok t' ∧ Moves d off (off + n) u t' := by
  intro left
  induction left with
  | zero =>
      intro i _ u _
      exact ⟨u, rfl, Moves.refl d off (off + n) u⟩
  | succ left ih =>
      intro i hi u hu
      obtain ⟨v, hv, hmoves, -⟩ := swap_moves d off (off + n) (off + i) (off + (n - 1 - i))
        (t := u) (by omega) (by omega) (by omega)
      obtain ⟨t', ht', hrest⟩ := ih (i + 1) (by omega) v (by rw [hmoves.size, hu])
      refine ⟨t', ?_, hmoves.trans hrest⟩
      rw [reverseLoop, hv, bind_of_ok]
      exact ht'

theorem reverse_moves (d : α) (off : Nat) (hsize : off + n ≤ t.size) :
    ∃ t', reverse t off n = .ok t' ∧ Moves d off (off + n) t t' :=
  reverseLoop_moves d hsize (n / 2) 0 (by omega) t rfl

theorem reverse_permuted (h : n ≤ 1 ∨ n ≤ t.size) :
    ∃ t', reverse t 0 n = .ok t' ∧ Permuted n t t' := by
  refine permuted_of_short (fun hn => ?_) (fun d hn => ?_) h
  · rw [reverse, show n / 2 = 0 by omega]
    rfl
  · have hmoves := reverse_moves d 0 (n := n) (t := t) (by omega)
    rwa [Nat.zero_add] at hmoves

theorem swap_permuted {i j : Nat} (hi : i < t.size) (hj : j < t.size) :
    ∃ t', swap t i j = .ok t' ∧ Permuted (max i j + 1) t t' := by
  obtain ⟨t', ht', hmoves, -⟩ := swap_moves t[i] 0 (max i j + 1) i j (t := t) (by omega)
    (by omega) (by omega)
  exact ⟨t', ht', hmoves.permuted⟩

theorem rotate_permuted {mid : Nat} (h : mid = 0 ∨ mid = n ∨ mid < n ∧ n ≤ t.size) :
    ∃ t', Prod.snd <$> rotate t n mid = .ok t' ∧ Permuted n t t' := by
  by_cases hends : mid = 0 ∨ mid = n
  · refine ⟨t, ?_, List.Perm.refl _, rfl⟩
    rw [rotate, if_pos hends]
    rfl
  · have hmid : mid < n ∧ n ≤ t.size := by omega
    have hsub : sub64 n mid = n - mid := if_pos hmid.1.le
    have hpos : 0 < t.size := by omega
    obtain ⟨u, hu, hfront⟩ := reverse_moves t[0] 0 (n := mid) (t := t) (by omega)
    obtain ⟨v, hv, hback⟩ := reverse_moves t[0] mid (n := n - mid) (t := u)
      (by rw [hfront.size]; omega)
    obtain ⟨t', ht', hall⟩ := reverse_moves t[0] 0 (n := n) (t := v)
      (by rw [hback.size, hfront.size]; omega)
    rw [Nat.zero_add] at hfront hall
    refine ⟨t', ?_, Moves.permuted (d := t[0]) ?_⟩
    · rw [rotate, if_neg hends, hu, bind_of_ok, hsub, hv, bind_of_ok, ht']
      rfl
    · exact (hfront.mono (Nat.le_refl 0) hmid.1.le).trans
        ((hback.mono (Nat.zero_le mid) (by omega)).trans hall)

theorem rotate_inside {mid : Nat} {x : Nat × Array α} (h : rotate t n mid = .ok x)
    (hsize : t.size < 2 ^ 63) (hmid : ¬ (mid = 0 ∨ mid = n)) : mid < n ∧ n ≤ t.size := by
  rw [rotate, if_neg hmid] at h
  obtain ⟨u, hu, hrest⟩ := bind_returns.mp h
  obtain ⟨v, hv, hrest⟩ := bind_returns.mp hrest
  obtain ⟨w, hw, -⟩ := bind_returns.mp hrest
  have husize : u.size = t.size := reverseLoop_size _ _ _ hu
  have hvsize : v.size = u.size := reverseLoop_size _ _ _ hv
  have hfront : 1 < mid → 0 + mid ≤ t.size := reverse_inside hu
  have hback : 1 < sub64 n mid → mid + sub64 n mid ≤ u.size := reverse_inside hv
  have hall : 1 < n → 0 + n ≤ v.size := reverse_inside hw
  unfold sub64 at hback
  split at hback <;> omega

variable [LinearOrder α]

/-! ### Calls that leave the array

For each function a loop is found, or a round of one, that looks at the end of the range.
-/

theorem larger_inside {m child k : Nat} (h : larger t n m child = .ok k) (hc : child < n) :
    child < t.size := by
  rw [larger, if_pos hc] at h
  obtain ⟨a, ha, -⟩ := bind_returns.mp h
  exact read_inside ha

/-- The children of the first node are looked at. -/
theorem siftDown_inside {pos : Nat} (h : siftDown t pos n = .ok t') {j : Nat}
    (hj : IsChild pos j) (hjn : j < n) : j < t.size := by
  obtain ⟨m, hm, hrest⟩ := bind_returns.mp h
  obtain ⟨k, hk, -⟩ := bind_returns.mp hrest
  rcases hj with rfl | rfl
  · exact larger_inside hm hjn
  · exact larger_inside hk hjn

theorem siftDownLoop_size :
    ∀ (fuel : Nat) (t : Array α) (pos : Nat), siftDownLoop fuel t pos n = .ok t' →
      t'.size = t.size := by
  intro fuel
  induction fuel with
  | zero =>
      intro t pos h
      simp [siftDownLoop, throw, throwThe, MonadExceptOf.throw] at h
  | succ fuel ih =>
      intro t pos h
      obtain ⟨m, -, hrest⟩ := bind_returns.mp h
      obtain ⟨k, -, hrest⟩ := bind_returns.mp hrest
      by_cases hk : k = pos
      · rw [if_pos hk] at hrest
        rw [Except.ok.inj hrest]
      · rw [if_neg hk] at hrest
        obtain ⟨u, hu, hlast⟩ := bind_returns.mp hrest
        rw [ih u k hlast, swap_size hu]

theorem partition_inside {off : Nat} {x : Nat × Array α} (h : partition t off n = .ok x) :
    off + pred64 n < t.size := by
  obtain ⟨pivot, hpivot, -⟩ := bind_returns.mp h
  exact read_inside hpivot

theorem sort_inside (h : sort t n = .ok t') (hn : 1 < n) : n ≤ t.size := by
  rw [sort, quickSort, quickSortLoop, if_neg (by omega)] at h
  obtain ⟨x, hx, -⟩ := bind_returns.mp h
  have hlast := partition_inside hx
  rw [pred64, if_neg (by omega)] at hlast
  omega

theorem makeHeap_inside (h : makeHeap t n = .ok t') (hn : 1 < n) : n ≤ t.size := by
  obtain ⟨i, hi⟩ : ∃ i, n / 2 = i + 1 := ⟨n / 2 - 1, by omega⟩
  rw [makeHeap, hi, makeHeapLoop] at h
  obtain ⟨u, hu, -⟩ := bind_returns.mp h
  -- the last position has the last node that has children as its parent
  have hlast := siftDown_inside hu (j := n - 1) (by unfold IsChild; omega) (by omega)
  omega

theorem pushHeap_inside (h : pushHeap t n = .ok t') (hsize : t.size < 2 ^ 63) (hn : n ≠ 1) :
    0 < n ∧ n ≤ t.size := by
  unfold pushHeap siftUp at h
  obtain ⟨pos, hpos⟩ : ∃ pos, pred64 n = pos + 1 := by
    refine ⟨pred64 n - 1, ?_⟩
    unfold pred64
    split <;> omega
  rw [hpos, siftUpLoop, if_pos (Nat.succ_pos pos)] at h
  obtain ⟨a, -, hrest⟩ := bind_returns.mp h
  obtain ⟨b, hb, -⟩ := bind_returns.mp hrest
  have hlt := read_inside hb
  unfold pred64 at hpos
  split at hpos <;> omega

theorem popHeap_inside (h : popHeap t n = .ok t') (hn : 1 < n) : n ≤ t.size := by
  rw [popHeap, if_neg (by omega)] at h
  obtain ⟨u, hu, -⟩ := bind_returns.mp h
  have hlast := (swap_inside hu).2
  omega

theorem sortHeap_inside (h : sortHeap t n = .ok t') (hn : 1 < n) : n ≤ t.size := by
  obtain ⟨i, rfl⟩ : ∃ i, n = i + 1 := ⟨n - 1, by omega⟩
  rw [sortHeap, sortHeapLoop, if_pos hn] at h
  obtain ⟨u, hu, -⟩ := bind_returns.mp h
  exact (swap_inside hu).2

theorem makeHeapLoop_size :
    ∀ (i : Nat) (t : Array α), makeHeapLoop n i t = .ok t' → t'.size = t.size := by
  intro i
  induction i with
  | zero =>
      intro t h
      rw [Except.ok.inj h]
  | succ i ih =>
      intro t h
      obtain ⟨u, hu, hrest⟩ := bind_returns.mp h
      rw [ih u hrest, siftDownLoop_size _ _ _ hu]

theorem scanLoop_inside {last : Nat} :
    ∀ (remaining i : Nat) (t : Array α), scanLoop last remaining i t = .ok t' →
      0 < remaining → i + remaining ≤ t.size := by
  intro remaining
  induction remaining with
  | zero =>
      intro i t _ hpos
      exact absurd hpos (Nat.lt_irrefl 0)
  | succ remaining ih =>
      intro i t h _
      obtain ⟨a, ha, hrest⟩ := bind_returns.mp h
      obtain ⟨b, -, hrest⟩ := bind_returns.mp hrest
      have hi := read_inside ha
      by_cases hzero : remaining = 0
      · omega
      · by_cases hlt : a < b
        · rw [if_pos hlt] at hrest
          obtain ⟨u, hu, hrest⟩ := bind_returns.mp hrest
          obtain ⟨v, hv, hrest⟩ := bind_returns.mp hrest
          have hrem := ih (i + 1) v hrest (Nat.pos_of_ne_zero hzero)
          rw [Sort.siftDown_eq] at hv
          rw [siftDownLoop_size _ _ _ hv, swap_size hu] at hrem
          omega
        · rw [if_neg hlt] at hrest
          have hrem := ih (i + 1) t hrest (Nat.pos_of_ne_zero hzero)
          omega

theorem partialSort_inside {m : Nat} (h : partialSort t n m = .ok t') (hsize : t.size < 2 ^ 63)
    (hmn : m < n) : 0 < m ∧ n ≤ t.size := by
  rw [partialSort, if_neg (by omega)] at h
  obtain ⟨u, hu, hrest⟩ := bind_returns.mp h
  obtain ⟨v, hv, -⟩ := bind_returns.mp hrest
  by_cases hzero : m = 0
  · -- the first node that is sifted down has children behind any array
    subst hzero
    have hlarge : t.size ≤ 2 * (2 ^ 63 - 1) + 1 := by omega
    rw [show pred64 0 = 2 * (2 ^ 63 - 1) + 1 from rfl,
      show (2 * (2 ^ 63 - 1) + 1) / 2 = 2 ^ 63 - 1 from rfl, heapifyLoop,
      Sort.siftDown_outOfBounds hlarge] at hu
    cases hu
  · have hscan := scanLoop_inside _ _ _ hv (by omega)
    rw [heapifyLoop_eq] at hu
    rw [makeHeapLoop_size _ _ hu] at hscan
    exact ⟨Nat.pos_of_ne_zero hzero, by omega⟩

theorem nthElement_inside {nth : Nat} (h : nthElement t n nth = .ok t') (hn : nth < n) :
    n ≤ t.size := by
  obtain ⟨k, rfl⟩ : ∃ k, n = k + 1 := ⟨n - 1, by omega⟩
  rw [nthElement, if_neg (by omega), nthLoop] at h
  obtain ⟨x, hx, -⟩ := bind_returns.mp h
  obtain ⟨y, hy, -⟩ := bind_returns.mp hx
  have hlast : k < t.size := by simpa [pred64, span64] using partition_inside hy
  exact hlast

/-! ### Calls that stay in the array

The functions that need a heap are called on anything here, and still they only swap.
-/

theorem sort_permuted (h : n ≤ 1 ∨ n ≤ t.size) : ∃ t', sort t n = .ok t' ∧ Permuted n t t' := by
  refine permuted_of_short (fun hn => ?_) (fun d hn => ?_) h
  · simp [sort, quickSort, quickSortLoop, hn]
  · obtain ⟨t', ht', hmoves, -⟩ := sort_spec d hn
    exact ⟨t', ht', hmoves⟩

theorem makeHeap_permuted (h : n ≤ 1 ∨ n ≤ t.size) :
    ∃ t', makeHeap t n = .ok t' ∧ Permuted n t t' := by
  refine permuted_of_short (fun hn => ?_) (fun d hn => ?_) h
  · rw [makeHeap, show n / 2 = 0 by omega]
    rfl
  · obtain ⟨t', ht', hmoves, -⟩ := makeHeap_spec d hn
    exact ⟨t', ht', hmoves⟩

theorem pushHeap_permuted (hpos : 0 < n) (h : n ≤ 1 ∨ n ≤ t.size) :
    ∃ t', pushHeap t n = .ok t' ∧ Permuted n t t' := by
  have hpred : pred64 n = n - 1 := if_neg (by omega)
  refine permuted_of_short (fun hn => ?_) (fun d hn => ?_) h
  · rw [pushHeap, hpred, show n - 1 = 0 by omega]
    rfl
  · rw [pushHeap, hpred]
    obtain ⟨t', ht', hmoves, -⟩ := siftUp_spec d hn (show n - 1 < n by omega)
    exact ⟨t', ht', hmoves⟩

theorem popHeap_permuted (h : n ≤ 1 ∨ n ≤ t.size) :
    ∃ t', popHeap t n = .ok t' ∧ Permuted n t t' := by
  refine permuted_of_short (fun hn => ?_) (fun d hn => ?_) h
  · rw [popHeap, if_pos hn]
    rfl
  · by_cases hone : n ≤ 1
    · exact ⟨t, by rw [popHeap, if_pos hone]; rfl, Moves.refl d 0 n t⟩
    · obtain ⟨u, hu, hmoves, -⟩ := swap_moves d 0 n 0 (n - 1) hn (by omega) (by omega)
      obtain ⟨t', ht', hmoves', -⟩ := siftDown_spec d 0
        (show n - 1 ≤ u.size by rw [hmoves.size]; omega) (show 0 < n - 1 by omega) (Nat.le_refl 0)
      refine ⟨t', ?_, hmoves.trans (hmoves'.mono (Nat.le_refl 0) (Nat.sub_le n 1))⟩
      rw [popHeap, if_neg hone, hu, bind_of_ok]
      exact ht'

theorem sortHeapLoop_moves (d : α) :
    ∀ (i : Nat) (t : Array α), i ≤ t.size → ∃ t', sortHeapLoop i t = .ok t' ∧ Moves d 0 i t t' := by
  intro i
  induction i with
  | zero =>
      intro t _
      exact ⟨t, rfl, Moves.refl d 0 0 t⟩
  | succ i ih =>
      intro t hi
      rw [sortHeapLoop]
      by_cases hone : i + 1 > 1
      · rw [if_pos hone]
        obtain ⟨u, hu, hmoves, -⟩ := swap_moves d 0 (i + 1) 0 i hi (by omega) (by omega)
        obtain ⟨v, hv, hmoves', -⟩ := siftDown_spec d 0
          (show i ≤ u.size by rw [hmoves.size]; omega) (show 0 < i by omega) (Nat.le_refl 0)
        obtain ⟨t', ht', hrest⟩ := ih v (by rw [hmoves'.size, hmoves.size]; omega)
        refine ⟨t', ?_, hmoves.trans ((hmoves'.trans hrest).mono (Nat.le_refl 0) (Nat.le_succ i))⟩
        rw [hu, bind_of_ok, hv, bind_of_ok]
        exact ht'
      · rw [if_neg hone]
        exact ⟨t, rfl, Moves.refl d 0 (i + 1) t⟩

theorem sortHeap_permuted (h : n ≤ 1 ∨ n ≤ t.size) :
    ∃ t', sortHeap t n = .ok t' ∧ Permuted n t t' := by
  refine permuted_of_short (fun hn => ?_) (fun d hn => sortHeapLoop_moves d n t hn) h
  rcases Nat.le_one_iff_eq_zero_or_eq_one.mp hn with rfl | rfl <;> rfl

theorem partialSort_permuted {m : Nat} (hm : m < n → 0 < m ∧ n ≤ t.size)
    (h : n ≤ m → n ≤ 1 ∨ n ≤ t.size) : ∃ t', partialSort t n m = .ok t' ∧ Permuted n t t' := by
  by_cases hmn : m ≥ n
  · rw [partialSort, if_pos hmn]
    exact sort_permuted (h hmn)
  · obtain ⟨hpos, hn⟩ := hm (by omega)
    have hsize : 0 < t.size := by omega
    obtain ⟨t', ht', hmoves, -⟩ := partialSort_spec t[0] hpos (by omega) hn
    exact ⟨t', ht', hmoves.permuted⟩

/-- The window stays around `nth`, and what is moved lies in it. -/
theorem nthLoop_moves (d : α) {nth : Nat} :
    ∀ (fuel : Nat) (w : Window α), w.right - w.left < fuel → w.left ≤ nth → nth ≤ w.right →
      w.right < n → n ≤ w.cells.size →
      ∃ t', nthLoop nth fuel w = .ok t' ∧ Moves d 0 n w.cells t' := by
  intro fuel
  induction fuel with
  | zero =>
      intro w hfuel
      omega
  | succ fuel ih =>
      intro w hfuel hle hge hlt hn
      have hspan : span64 w.left w.right = w.right - w.left + 1 := if_pos (by omega)
      obtain ⟨p, u, hu, hp, hmoves, -, -⟩ := partition_spec d w.left (t := w.cells)
        (n := w.right - w.left + 1) (by omega) (by omega)
      have hmoved : Moves d 0 n w.cells u := hmoves.mono (Nat.zero_le _) (by omega)
      have hsize := hmoved.size
      simp only [nthLoop, nthStep, hspan, hu, bind_of_ok]
      by_cases heq : p + w.left = nth
      · rw [if_pos heq]
        exact ⟨u, rfl, hmoved⟩
      · rw [if_neg heq]
        by_cases hbelow : p + w.left < nth
        · rw [if_pos hbelow]
          obtain ⟨t', ht', hrest⟩ := ih ⟨u, p + w.left + 1, w.right⟩ (by dsimp only; omega)
            hbelow hge hlt (by dsimp only; omega)
          exact ⟨t', ht', hmoved.trans hrest⟩
        · rw [if_neg hbelow, show pred64 (p + w.left) = p + w.left - 1 from if_neg (by omega)]
          obtain ⟨t', ht', hrest⟩ := ih ⟨u, w.left, p + w.left - 1⟩ (by dsimp only; omega)
            hle (by dsimp only; omega) (by dsimp only; omega) (by dsimp only; omega)
          exact ⟨t', ht', hmoved.trans hrest⟩

theorem nthElement_permuted {nth : Nat} (h : n ≤ nth ∨ n ≤ t.size) :
    ∃ t', nthElement t n nth = .ok t' ∧ Permuted n t t' := by
  by_cases hnth : nth ≥ n
  · exact ⟨t, if_pos hnth, List.Perm.refl _, rfl⟩
  · have hn := h.resolve_left hnth
    have hpos : 0 < t.size := by omega
    have hpred : pred64 n = n - 1 := if_neg (by omega)
    obtain ⟨t', ht', hmoves⟩ := nthLoop_moves t[0] (n := n) n ⟨t, 0, n - 1⟩
      (by dsimp only; omega) (Nat.zero_le nth) (by dsimp only; omega) (by dsimp only; omega) hn
    refine ⟨t', ?_, hmoves.permuted⟩
    rw [nthElement, if_neg hnth, hpred]
    exact ht'

/-! ### Programs -/

/-- A call, with the numbers it is made with. -/
inductive Call where
  | swap (i j : Nat)
  | reverse (n : Nat)
  | rotate (n mid : Nat)
  | sort (num : Nat)
  | partialSort (num m : Nat)
  | nthElement (num nth : Nat)
  | makeHeap (n : Nat)
  | pushHeap (n : Nat)
  | popHeap (n : Nat)
  | sortHeap (n : Nat)
deriving DecidableEq

namespace Call

/-- The call on an array. -/
def apply (t : Array α) : Call → Except Fault (Array α)
  | .swap i j => Algorithm.swap t i j
  | .reverse n => Algorithm.reverse t 0 n
  | .rotate n mid => Prod.snd <$> Algorithm.rotate t n mid
  | .sort num => Algorithm.sort t num
  | .partialSort num m => Algorithm.partialSort t num m
  | .nthElement num nth => Algorithm.nthElement t num nth
  | .makeHeap n => Algorithm.makeHeap t n
  | .pushHeap n => Algorithm.pushHeap t n
  | .popHeap n => Algorithm.popHeap t n
  | .sortHeap n => Algorithm.sortHeap t n

/-- One call after the other. -/
def run (calls : List Call) (t : Array α) : Except Fault (Array α) := calls.foldlM apply t

/-- Where the range of a call ends. -/
def stop : Call → Nat
  | .swap i j => max i j + 1
  | .reverse n | .rotate n _ | .sort n | .partialSort n _ | .nthElement n _ => n
  | .makeHeap n | .pushHeap n | .popHeap n | .sortHeap n => n

/-- The calls that an array of `size` elements can take.  Of a range of at most one element most
functions do not even look at that. -/
def InRange (size : Nat) : Call → Prop
  | .swap i j => i < size ∧ j < size
  | .reverse n | .sort n | .makeHeap n | .popHeap n | .sortHeap n => n ≤ 1 ∨ n ≤ size
  | .rotate n mid => mid = 0 ∨ mid = n ∨ mid < n ∧ n ≤ size
  | .partialSort num m => (m < num → 0 < m ∧ num ≤ size) ∧ (num ≤ m → num ≤ 1 ∨ num ≤ size)
  | .nthElement num nth => num ≤ nth ∨ num ≤ size
  | .pushHeap n => 0 < n ∧ (n ≤ 1 ∨ n ≤ size)

instance decidableInRange (size : Nat) : (c : Call) → Decidable (c.InRange size)
  | .swap i j => inferInstanceAs (Decidable (i < size ∧ j < size))
  | .reverse n | .sort n | .makeHeap n | .popHeap n | .sortHeap n =>
      inferInstanceAs (Decidable (n ≤ 1 ∨ n ≤ size))
  | .rotate n mid => inferInstanceAs (Decidable (mid = 0 ∨ mid = n ∨ mid < n ∧ n ≤ size))
  | .partialSort num m => inferInstanceAs (Decidable
      ((m < num → 0 < m ∧ num ≤ size) ∧ (num ≤ m → num ≤ 1 ∨ num ≤ size)))
  | .nthElement num nth => inferInstanceAs (Decidable (num ≤ nth ∨ num ≤ size))
  | .pushHeap n => inferInstanceAs (Decidable (0 < n ∧ (n ≤ 1 ∨ n ≤ size)))

variable {c : Call}

theorem apply_permuted (h : c.InRange t.size) : ∃ t', c.apply t = .ok t' ∧ Permuted c.stop t t' :=
  match c with
  | .swap _ _ => swap_permuted h.1 h.2
  | .reverse _ => reverse_permuted h
  | .rotate _ _ => rotate_permuted h
  | .sort _ => sort_permuted h
  | .partialSort _ _ => partialSort_permuted h.1 h.2
  | .nthElement _ _ => nthElement_permuted h
  | .makeHeap _ => makeHeap_permuted h
  | .pushHeap _ => pushHeap_permuted h.1 h.2
  | .popHeap _ => popHeap_permuted h
  | .sortHeap _ => sortHeap_permuted h

theorem inRange_of_apply (hsize : t.size < 2 ^ 63) (h : c.apply t = .ok t') :
    c.InRange t.size := by
  cases c with
  | swap i j => exact swap_inside h
  | reverse n =>
      have hlast : 1 < n → 0 + n ≤ t.size := reverse_inside h
      show n ≤ 1 ∨ n ≤ t.size
      omega
  | rotate n mid =>
      obtain ⟨x, hx, -⟩ := map_returns.mp h
      show mid = 0 ∨ mid = n ∨ mid < n ∧ n ≤ t.size
      by_cases hends : mid = 0 ∨ mid = n
      · omega
      · exact Or.inr (Or.inr (rotate_inside hx hsize hends))
  | sort n => exact Nat.lt_or_ge 1 n |>.symm.imp_right (sort_inside h)
  | partialSort num m =>
      refine ⟨partialSort_inside h hsize, fun hle => ?_⟩
      have hsort : Algorithm.sort t num = .ok t' := by
        rw [← h]
        exact (if_pos hle).symm
      exact Nat.lt_or_ge 1 num |>.symm.imp_right (sort_inside hsort)
  | nthElement num nth => exact Nat.lt_or_ge nth num |>.symm.imp_right (nthElement_inside h)
  | makeHeap n => exact Nat.lt_or_ge 1 n |>.symm.imp_right (makeHeap_inside h)
  | pushHeap n =>
      have hlast : n ≠ 1 → 0 < n ∧ n ≤ t.size := pushHeap_inside h hsize
      show 0 < n ∧ (n ≤ 1 ∨ n ≤ t.size)
      omega
  | popHeap n => exact Nat.lt_or_ge 1 n |>.symm.imp_right (popHeap_inside h)
  | sortHeap n => exact Nat.lt_or_ge 1 n |>.symm.imp_right (sortHeap_inside h)

/-! ### Runs of programs

By induction on the calls: the size of the array stays what it is, so being in range can be
asked of all of them at the start.
-/

theorem run_permuted :
    ∀ (calls : List Call) (t : Array α), (∀ c ∈ calls, c.InRange t.size) →
      ∃ t', run calls t = .ok t' ∧ t'.toList.Perm t.toList ∧
        ∀ k, (∀ c ∈ calls, c.stop ≤ k) → t'.toList.drop k = t.toList.drop k := by
  intro calls
  induction calls with
  | nil =>
      intro t _
      exact ⟨t, rfl, List.Perm.refl _, fun _ _ => rfl⟩
  | cons c rest ih =>
      intro t h
      rw [List.forall_mem_cons] at h
      obtain ⟨u, hu, hperm, hbehind⟩ := apply_permuted h.1
      have hsize : u.size = t.size := by simpa using hperm.length_eq
      obtain ⟨t', ht', hperm', hrest⟩ := ih u (by rw [hsize]; exact h.2)
      refine ⟨t', ?_, hperm'.trans hperm, fun k hk => ?_⟩
      · rw [run, List.foldlM_cons, hu]
        exact ht'
      · rw [List.forall_mem_cons] at hk
        obtain ⟨j, rfl⟩ := Nat.exists_eq_add_of_le hk.1
        rw [hrest _ hk.2, ← List.drop_drop, hbehind, List.drop_drop]

theorem inRange_of_run :
    ∀ (calls : List Call) (t : Array α), t.size < 2 ^ 63 → run calls t = .ok t' →
      ∀ c ∈ calls, c.InRange t.size := by
  intro calls
  induction calls with
  | nil =>
      intro t _ _ c hc
      cases hc
  | cons c rest ih =>
      intro t hsize h
      rw [run, List.foldlM_cons] at h
      obtain ⟨u, hu, hrest⟩ := bind_returns.mp h
      have hc := inRange_of_apply hsize hu
      obtain ⟨v, hv, hpermuted⟩ := apply_permuted hc
      rw [hu] at hv
      have husize : u.size = t.size := by
        rw [Except.ok.inj hv]
        simpa using hpermuted.perm.length_eq
      rw [List.forall_mem_cons]
      refine ⟨hc, ?_⟩
      rw [← husize]
      exact ih u (by rw [husize]; exact hsize) hrest

/-- Sorting does not see in which order the elements were. -/
theorem sort_forgets {u : Array α} (h : u.toList.Perm t.toList) :
    Algorithm.sort u u.size = Algorithm.sort t t.size := by
  obtain ⟨u', hu', husorted, huperm⟩ := sort_sorts u
  obtain ⟨t', ht', htsorted, htperm⟩ := sort_sorts t
  rw [hu', ht', eq_of_pairwise husorted htsorted (huperm.trans (h.trans htperm.symm))]

theorem count_kept {u : Array α} (h : u.toList.Perm t.toList) (x : α) :
    count u t.size x = count t t.size x := by
  have hu := count_list u.toList x
  have ht := count_list t.toList x
  rw [Array.toArray_toList, h.length_eq, Array.length_toList, h.count_eq] at hu
  rw [Array.toArray_toList, Array.length_toList] at ht
  rw [hu, ht]

/--
**Which programs stay in the array.**  A program of calls that move elements comes to its end
without an access outside the array exactly when every one of its calls is in range for the size
that the array has at the start.  Then no element is lost or doubled, the elements behind all the
ranges are where they were, `count` finds each value as often as before, and `sort` leaves what it
would have left at once.
-/
theorem runs_inside_iff (t : Array α) (hsize : t.size < 2 ^ 63) (calls : List Call) :
    ((∃ t', run calls t = .ok t') ↔ ∀ c ∈ calls, c.InRange t.size) ∧
    ∀ t', run calls t = .ok t' →
      t'.toList.Perm t.toList ∧
      (∀ k, (∀ c ∈ calls, c.stop ≤ k) → t'.toList.drop k = t.toList.drop k) ∧
      (∀ x, count t' t.size x = count t t.size x) ∧
      Algorithm.sort t' t.size = Algorithm.sort t t.size := by
  refine ⟨⟨fun ⟨t', h⟩ => inRange_of_run calls t hsize h, fun h => ?_⟩, fun t' h => ?_⟩
  · obtain ⟨t', ht', -⟩ := run_permuted calls t h
    exact ⟨t', ht'⟩
  · obtain ⟨u, hu, hperm, hbehind⟩ := run_permuted calls t (inRange_of_run calls t hsize h)
    rw [h] at hu
    have heq : t' = u := Except.ok.inj hu
    subst heq
    have hsize' : t'.size = t.size := by simpa using hperm.length_eq
    have hsort := sort_forgets hperm
    rw [hsize'] at hsort
    exact ⟨hperm, hbehind, count_kept hperm, hsort⟩

/-- A queue that is turned and half sorted, and one that is asked for its least none. -/
theorem runs_inside_iff_four :
    (∃ t', run [.makeHeap 4, .rotate 4 1, .partialSort 3 2, .nthElement 9 12] #[5, 2, 9, 4] =
      .ok t' ∧ Algorithm.sort t' 4 = Algorithm.sort (#[5, 2, 9, 4] : Array Nat) 4) ∧
    ¬ ∃ t' : Array Nat, run [.reverse 4, .partialSort 4 0] #[5, 2, 9, 4] = .ok t' := by
  have h := fun calls => runs_inside_iff (#[5, 2, 9, 4] : Array Nat) (by decide) calls
  refine ⟨?_, fun hrun => ?_⟩
  · obtain ⟨t', ht'⟩ := (h [.makeHeap 4, .rotate 4 1, .partialSort 3 2, .nthElement 9 12]).1.mpr
      (by decide)
    exact ⟨t', ht', ((h _).2 t' ht').2.2.2⟩
  · exact absurd ((h _).1.mp hrun) (by decide)

end Call

end Ytl.Algorithm
