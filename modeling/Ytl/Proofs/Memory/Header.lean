/-
What a header tells `deallocate`.

The class byte comes back as it was put in, whatever the size beside it, and the flag is
set in the headers of mapped blocks only.  But the two numberings of size classes
overlap: `alloc_tiny` counts steps of eight bytes up to class 7, `alloc_small` counts
powers of two and begins with class 6.  Blocks of 65 to 256 bytes come from
`alloc_small` and are released as tiny ones.

The header is one word: the size in its low 48 bits, the class in the byte above that, and the
flag further up.  What `deallocate` makes of it is computed bit by bit, for every size at once.
-/
import Mathlib.Tactic.IntervalCases
import Ytl.Memory.Allocator

namespace Ytl.Memory.Allocator

variable {h : Headers} {block : Addr} {size : Nat}

/-! ### The bits of a header

A class that needs no more than its byte does not reach the flag, and the size beside it is cut
off below the class.
-/

/-- **The class byte is read back as it was put in.** -/
theorem classOf_data (s c : BitVec 64) :
    classOf ((s &&& sizeMask) ||| (c <<< 48)) = c.setWidth 8 := by
  ext i hi
  unfold classOf classMask sizeMask
  interval_cases i <;> simp

theorem classOf_mapped (s : BitVec 64) :
    classOf ((s &&& sizeMask) ||| ((255 : BitVec 64) <<< 48) ||| mmapFlag) = 255 := by
  ext i hi
  unfold classOf classMask sizeMask mmapFlag
  interval_cases i <;> simp

/-- The flag is bit 62. -/
theorem and_mmapFlag (x : BitVec 64) : x &&& mmapFlag = 0 ↔ x.getLsbD 62 = false := by
  rw [show mmapFlag = BitVec.twoPow 64 62 from rfl, BitVec.and_twoPow]
  cases x.getLsbD 62 with
  | false => simp
  | true => simp [BitVec.twoPow]

theorem flag_data (s c : BitVec 64) (hc : c.toNat < 256) :
    ((s &&& sizeMask) ||| (c <<< 48)) &&& mmapFlag = 0 := by
  have hbit : c.getLsbD 14 = false := Nat.testBit_lt_two_pow (by omega)
  rw [and_mmapFlag]
  simpa [sizeMask] using hbit

theorem flag_mapped (s : BitVec 64) :
    ¬ ((s &&& sizeMask) ||| ((255 : BitVec 64) <<< 48) ||| mmapFlag) &&& mmapFlag = 0 := by
  rw [and_mmapFlag]
  simp [mmapFlag]

/-- The pointer behind a header leads back to it. -/
theorem headerOf_placeHeader (h : Headers) (block : Addr) (data : BitVec 64) :
    (headerOf (placeHeader h block data).2 (placeHeader h block data).1).data = data := by
  unfold headerOf placeHeader
  dsimp only
  rw [BitVec.add_sub_cancel, if_pos rfl]

/-! ### The numberings

`deallocate` takes a class for a tiny one if it is below the number of tiny classes, wherever
it came from.
-/

theorem tinyClass_lt (hpos : 1 ≤ size) (hsize : size ≤ 64) :
    (tinyClass size).toNat < tinyClasses := by
  unfold tinyClass
  rw [BitVec.toNat_ofNat, Nat.shiftRight_eq_div_pow]
  exact (Nat.mod_le _ _).trans_lt (show (size - 1) / 2 ^ 3 < 8 by omega)

theorem smallClass_eq (hlow : 64 < size) (hhigh : size < largeThreshold) :
    smallClass size = Nat.log2 (size - 1) := by
  have hlog : Nat.log2 (size - 1) < 20 := by
    rw [Nat.log2_lt (by omega)]
    exact Nat.lt_of_le_of_lt (Nat.sub_le _ _) hhigh
  unfold smallClass clz
  omega

theorem smallClass_lt (hlow : 64 < size) (hhigh : size < largeThreshold) :
    smallClass size < 20 := by
  rw [smallClass_eq hlow hhigh, Nat.log2_lt (by omega)]
  exact Nat.lt_of_le_of_lt (Nat.sub_le _ _) hhigh

/-- `alloc_small` uses a class that `deallocate` takes for a tiny one up to 256 bytes. -/
theorem smallClass_lt_tiny (hlow : 64 < size) (hhigh : size < largeThreshold) :
    smallClass size < tinyClasses ↔ size ≤ 256 := by
  rw [smallClass_eq hlow hhigh, tinyClasses, Nat.log2_lt (by omega)]
  omega

/-! ### Allocating and releasing

For each of the three paths: which header it writes, and where that header leads.
-/

/-- What `deallocate` does with the header `data`. -/
theorem deallocatePath_placeHeader (h : Headers) (block : Addr) (data : BitVec 64) :
    deallocatePath (placeHeader h block data).2 (placeHeader h block data).1 =
      if (classOf data).toNat < tinyClasses then .tiny
      else if data &&& mmapFlag = 0 then .small
      else .large := by
  unfold deallocatePath
  rw [headerOf_placeHeader]

theorem tiny_released (h : Headers) (block : Addr) (hpos : 1 ≤ size) (hsize : size ≤ 64) :
    deallocatePath (buildTiny h block size).2 (buildTiny h block size).1 = .tiny ∧
      (classOf (headerOf (buildTiny h block size).2 (buildTiny h block size).1).data).toNat =
        (tinyClass size).toNat := by
  have hclass : classOf ((BitVec.ofNat 64 size &&& sizeMask) |||
      ((tinyClass size).setWidth 64 <<< 48)) = tinyClass size := by
    rw [classOf_data]
    simp
  unfold buildTiny
  rw [deallocatePath_placeHeader, headerOf_placeHeader, hclass, if_pos (tinyClass_lt hpos hsize)]
  exact ⟨rfl, rfl⟩

/-- A small block is released as one exactly when its class is none of the tiny ones. -/
theorem small_released (h : Headers) (block : Addr) (hlow : 64 < size)
    (hhigh : size < largeThreshold) :
    (deallocatePath (buildSmall h block size).2 (buildSmall h block size).1 = .small ↔
      256 < size) ∧
      (classOf (headerOf (buildSmall h block size).2 (buildSmall h block size).1).data).toNat =
        smallClass size := by
  have hlt := smallClass_lt hlow hhigh
  have hclass : (classOf (((sizeClassTable (smallClass size)).size.setWidth 64 &&& sizeMask) |||
      (BitVec.ofNat 64 (smallClass size) <<< 48))).toNat = smallClass size := by
    rw [classOf_data, BitVec.toNat_setWidth, BitVec.toNat_ofNat]
    omega
  have hflag := flag_data ((sizeClassTable (smallClass size)).size.setWidth 64)
    (BitVec.ofNat 64 (smallClass size)) (by rw [BitVec.toNat_ofNat]; omega)
  have htiny := smallClass_lt_tiny hlow hhigh
  unfold buildSmall
  rw [deallocatePath_placeHeader, headerOf_placeHeader, hclass, if_pos hflag]
  refine ⟨?_, rfl⟩
  by_cases hsize : size ≤ 256
  · rw [if_pos (htiny.mpr hsize)]
    exact ⟨nofun, fun hc => absurd hsize (by omega)⟩
  · rw [if_neg (fun hc => hsize (htiny.mp hc))]
    exact ⟨fun _ => by omega, fun _ => rfl⟩

theorem large_released (h : Headers) (block : Addr) (size : Nat) :
    deallocatePath (buildLarge h block size).2 (buildLarge h block size).1 = .large ∧
      (classOf (headerOf (buildLarge h block size).2 (buildLarge h block size).1).data).toNat =
        255 := by
  unfold buildLarge
  rw [deallocatePath_placeHeader, headerOf_placeHeader, classOf_mapped,
    if_neg (show ¬ (255 : BitVec 8).toNat < tinyClasses by decide), if_neg (flag_mapped _)]
  exact ⟨rfl, rfl⟩

/-- The function `allocate` calls, by the size. -/
theorem allocatePath_cases (hpos : 1 ≤ size) (hmax : size ≤ 2 ^ 47) :
    (size ≤ 64 ∧ allocatePath size = some .tiny) ∨
    (64 < size ∧ size < largeThreshold ∧ allocatePath size = some .small) ∨
    (largeThreshold ≤ size ∧ allocatePath size = some .large) := by
  have hmax' : ¬ (size = 0 ∨ size > 1 <<< 47) := by
    rw [show 1 <<< 47 = 2 ^ 47 from rfl]
    omega
  have hlarge : largeThreshold = 1048576 := rfl
  unfold allocatePath tinyThreshold smallThreshold
  rw [if_neg hmax']
  by_cases htiny : size ≤ 64
  · rw [if_pos htiny]
    exact Or.inl ⟨htiny, rfl⟩
  · rw [if_neg htiny]
    by_cases hsmall : size ≤ 256
    · rw [if_pos hsmall]
      exact Or.inr (Or.inl ⟨by omega, by omega, rfl⟩)
    · rw [if_neg hsmall]
      by_cases hbig : size < largeThreshold
      · rw [if_pos hbig]
        exact Or.inr (Or.inl ⟨by omega, hbig, rfl⟩)
      · rw [if_neg hbig]
        exact Or.inr (Or.inr ⟨by omega, rfl⟩)

/-- A block of `size` bytes is released by the function that belongs to the one that
allocated it, and its size class is read as it was written. -/
def Matches (h : Headers) (block : Addr) (size : Nat) (path : Path) : Prop :=
  deallocatePath (path.build h block size).2 (path.build h block size).1 = path ∧
    (classOf (headerOf (path.build h block size).2 (path.build h block size).1).data).toNat =
      path.sizeClass size

/--
**`allocate` and `deallocate` agree exactly outside 65 to 256 bytes.**  For every size
up to 2^47, wherever the block lies and whatever the other headers are, the header that
the path of `allocate` writes makes `deallocate` take the matching one, with the class
that was written, if and only if the size is at most 64 or more than 256.
-/
theorem release_matches_iff (h : Headers) (block : Addr) (size : Nat) (hpos : 1 ≤ size)
    (hmax : size ≤ 2 ^ 47) :
    (∃ path, allocatePath size = some path ∧ Matches h block size path) ↔
      size ≤ 64 ∨ 256 < size := by
  have hlarge : largeThreshold = 1048576 := rfl
  rcases allocatePath_cases hpos hmax with ⟨hsize, hpath⟩ | ⟨hlow, hhigh, hpath⟩ | ⟨hsize, hpath⟩
  · exact ⟨fun _ => Or.inl hsize, fun _ => ⟨.tiny, hpath, tiny_released h block hpos hsize⟩⟩
  · obtain ⟨hiff, hclass⟩ := small_released h block hlow hhigh
    constructor
    · rintro ⟨path, hpath', hmatch⟩
      rw [hpath] at hpath'
      cases hpath'
      exact Or.inr (hiff.mp hmatch.1)
    · intro hsize
      exact ⟨.small, hpath, hiff.mpr (by omega), hclass⟩
  · exact ⟨fun _ => Or.inr (by omega), fun _ => ⟨.large, hpath, large_released h block size⟩⟩

/-- A tiny, a small and a mapped block. -/
theorem release_matches_three :
    (∃ path, allocatePath 64 = some path ∧ Matches (fun _ => ⟨0, 0⟩) 4160 64 path) ∧
    (∃ path, allocatePath 257 = some path ∧ Matches (fun _ => ⟨0, 0⟩) 4160 257 path) ∧
    ∃ path, allocatePath 1048576 = some path ∧ Matches (fun _ => ⟨0, 0⟩) 4096 1048576 path :=
  ⟨(release_matches_iff (fun _ => ⟨0, 0⟩) 4160 64 (by decide) (by decide)).mpr (by decide),
    (release_matches_iff (fun _ => ⟨0, 0⟩) 4160 257 (by decide) (by decide)).mpr (by decide),
    (release_matches_iff (fun _ => ⟨0, 0⟩) 4096 1048576 (by decide) (by decide)).mpr (by decide)⟩

/-- A block of 65 bytes is small, has class 6, and is released as a tiny one. -/
theorem release_mismatch :
    ¬ ∀ (h : Headers) (block : Addr) (size : Nat), 1 ≤ size → size ≤ 2 ^ 47 →
      ∃ path, allocatePath size = some path ∧ Matches h block size path := by
  intro hall
  obtain ⟨path, hpath, hmatch⟩ := hall (fun _ => ⟨0, 0⟩) 4160 65 (by decide) (by decide)
  cases (show some Path.small = some path from hpath)
  have hsize := (small_released (fun _ => ⟨0, 0⟩) 4160 (show 64 < 65 by decide)
    (by decide)).1.mp hmatch.1
  exact absurd hsize (by decide)

end Ytl.Memory.Allocator
