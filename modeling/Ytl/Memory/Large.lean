/-
Large blocks with any page size: `alloc_large` and `free_large` of
`memory/include/allocator.inl`.

Both compute the length of the mapping from the size, `alloc_large` from the argument and
`free_large` from the header, in 64 bits.  The calls of `mmap` and `munmap` are written down, so
that what is unmapped can be compared with what was mapped.  Only the headers are read here; the
rest of the allocator has these two functions with pages of `pageSize`.
-/
import Ytl.Memory.Allocator

namespace Ytl.Memory.Allocator

/-- `(total_size + ps - 1) & ~(ps - 1)` -/
def allocSize (ps : Nat) (size : BitVec 64) : BitVec 64 :=
  let totalSize := size + headerSize
  (totalSize + BitVec.ofNat 64 ps - 1) &&& ~~~(BitVec.ofNat 64 ps - 1)

/-- The headers, and the calls of `mmap` that succeeded and of `munmap`, each with the address
and the length. -/
structure Mappings where
  headers : Headers
  mapped : List (Addr × BitVec 64) := []
  unmapped : List (Addr × BitVec 64) := []

namespace Mappings

/-- What `mmap` returns is given with the call, and none is `MAP_FAILED`. -/
def allocLarge (s : Mappings) (ps size : Nat) (answer : Option Addr) :
    Option Addr × Mappings :=
  match answer with
  | none => (none, s)
  | some pages =>
      let (ptr, headers) := buildLarge s.headers pages size
      (some ptr, { s with
        headers := headers
        mapped := s.mapped ++ [(pages, allocSize ps (BitVec.ofNat 64 size))] })

def freeLarge (s : Mappings) (ps : Nat) (ptr : Addr) : Mappings :=
  let data := (headerOf s.headers ptr).data
  if data &&& mmapFlag = 0 then s
  else
    { s with unmapped := s.unmapped ++ [(ptr - headerSize, allocSize ps (data &&& sizeMask))] }

end Mappings

end Ytl.Memory.Allocator
