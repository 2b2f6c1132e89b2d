/-
Large blocks are unmapped as they were mapped.

The size is in the low 48 bits of the header, between which and the limit of 2^47 there is room;
the class byte and the flag are above it.  So `free_large` reads the size that `alloc_large` was
given, and rounds it to the same length.

The size may be rounded up to one of several page sizes.  It is a power of two for the mask,
and small enough for no sum to wrap; nothing else is asked of it.
-/
import Ytl.Base.RoundUp
import Ytl.Memory.Large
import Ytl.Proofs.Memory.Header

namespace Ytl.Memory.Allocator

variable {size k : Nat}

/-! ### The size in a header

The size is put below the class byte and cut out with a mask.
-/

/-- The header of a block of `size` bytes that was mapped. -/
def largeData (size : Nat) : BitVec 64 :=
  (BitVec.ofNat 64 size &&& sizeMask) ||| ((255 : BitVec 64) <<< 48) ||| mmapFlag

/-- Neither the class nor the flag is read as a part of the size. -/
theorem size_mapped (s : BitVec 64) :
    ((s &&& sizeMask) ||| ((255 : BitVec 64) <<< 48) ||| mmapFlag) &&& sizeMask =
      s &&& sizeMask := by
  ext i hi
  unfold sizeMask mmapFlag
  interval_cases i <;> simp

theorem and_sizeMask (hsize : size < 2 ^ 48) :
    BitVec.ofNat 64 size &&& sizeMask = BitVec.ofNat 64 size := by
  apply BitVec.eq_of_toNat_eq
  rw [BitVec.toNat_and, BitVec.toNat_ofNat, Nat.mod_eq_of_lt (by omega)]
  exact (Nat.and_two_pow_sub_one_eq_mod size 48).trans (Nat.mod_eq_of_lt hsize)

/-! ### The length of a mapping

Both functions compute the length from a size in the same way.  So it is enough that the size
that is read is the one that was written.
-/

/-- **The length is the size with the header, rounded up to pages.** -/
theorem allocSize_toNat (hk : k ≤ 20) (hsize : size ≤ 2 ^ 47) :
    (allocSize (2 ^ k) (BitVec.ofNat 64 size)).toNat =
      (size + headerSize.toNat + 2 ^ k - 1) / 2 ^ k * 2 ^ k := by
  have hpage : 2 ^ k ≤ 2 ^ 20 := Nat.pow_le_pow_right (by decide) hk
  have hpos : 0 < 2 ^ k := Nat.two_pow_pos k
  have hheader : headerSize.toNat = 64 := rfl
  have hsum : (BitVec.ofNat 64 size + headerSize + BitVec.ofNat 64 (2 ^ k) - 1).toNat =
      size + headerSize.toNat + 2 ^ k - 1 := by
    rw [add_sub_assoc, RoundUp.ofNat_pow_sub_one, BitVec.toNat_add, BitVec.toNat_add,
      BitVec.toNat_ofNat, BitVec.toNat_ofNat, hheader]
    omega
  unfold allocSize
  dsimp only
  rw [RoundUp.toNat_and_not_mask, hsum]

namespace Mappings

variable {s t : Mappings} {ptr pages : Addr}

/-- A block is released with the size in its header. -/
theorem freeLarge_of_data (ps : Nat) (hsize : size < 2 ^ 48)
    (hdata : (headerOf s.headers ptr).data = largeData size) :
    s.freeLarge ps ptr =
      { s with unmapped :=
          s.unmapped ++ [(ptr - headerSize, allocSize ps (BitVec.ofNat 64 size))] } := by
  unfold freeLarge
  dsimp only
  rw [hdata, largeData, if_neg (flag_mapped _), size_mapped, and_sizeMask hsize]

/--
**Large blocks are unmapped exactly as they were mapped.**  For every size up to 2^47 and every
page size that is a power of two up to 2^20, `free_large` passes to `munmap` the address that
`mmap` has returned to `alloc_large`, and the length it was called with, whatever has happened
in between, as long as the header is what it was.  The length is the least multiple of the page
size for the header and the block, and no sum wraps.
-/
theorem large_unmapped_as_mapped (k size : Nat) (hk : k ≤ 20) (hsize : size ≤ 2 ^ 47)
    (s : Mappings) (pages : Addr) :
    ∃ (ptr : Addr) (t : Mappings) (length : BitVec 64),
      s.allocLarge (2 ^ k) size (some pages) = (some ptr, t) ∧
      t.mapped = s.mapped ++ [(pages, length)] ∧
      (∀ u : Mappings, headerOf u.headers ptr = headerOf t.headers ptr →
        u.freeLarge (2 ^ k) ptr = { u with unmapped := u.unmapped ++ [(pages, length)] }) ∧
      2 ^ k ∣ length.toNat ∧ size + headerSize.toNat ≤ length.toNat ∧
      length.toNat < size + headerSize.toNat + 2 ^ k ∧
      size + headerSize.toNat + 2 ^ k - 1 < 2 ^ 64 := by
  have hpage : 2 ^ k ≤ 2 ^ 20 := Nat.pow_le_pow_right (by decide) hk
  have hheader : headerSize.toNat = 64 := rfl
  obtain ⟨hdvd, hlow, hhigh⟩ :=
    RoundUp.div_mul_bounds (Nat.two_pow_pos k) (size + headerSize.toNat)
  rw [← allocSize_toNat hk hsize] at hdvd hlow hhigh
  refine ⟨pages + headerSize, _, _, rfl, rfl, fun u hu => ?_, hdvd, hlow, hhigh, by omega⟩
  have hdata : (headerOf u.headers (pages + headerSize)).data = largeData size :=
    hu ▸ headerOf_placeHeader s.headers pages _
  rw [freeLarge_of_data (2 ^ k) (by omega) hdata, BitVec.add_sub_cancel]

/-- The largest block, with pages of 16384 bytes. -/
theorem large_unmapped_as_mapped_largest :
    ∃ (ptr : Addr) (t : Mappings),
      allocLarge { headers := fun _ => ⟨0, 0⟩ } (2 ^ 14) (2 ^ 47) (some 65536) = (some ptr, t) ∧
      (t.freeLarge (2 ^ 14) ptr).unmapped = t.mapped := by
  obtain ⟨ptr, t, length, hptr, hmapped, hfree, -⟩ :=
    large_unmapped_as_mapped 14 (2 ^ 47) (by decide) (by decide) { headers := fun _ => ⟨0, 0⟩ }
      65536
  refine ⟨ptr, t, hptr, ?_⟩
  have hunmapped : t.unmapped = [] := by
    rw [← (Prod.mk.inj hptr).2]
  rw [hfree t rfl, hmapped, hunmapped]

end Mappings

end Ytl.Memory.Allocator
