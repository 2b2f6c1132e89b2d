/-
What a buffer for strings is for.

A buffer of `size` bytes holds a text of at most that many bytes, none of them a NUL; only if it
is full is there no NUL behind it.  The writers put other texts in its place, cut to what fits.
This is their purpose and not their code.
-/
import Ytl.String.Bounded

namespace Ytl.CString

open Memory

/-- A string somewhere else. -/
structure Source where
  addr : Addr
  bytes : List Byte
  nonzero : 0 ∉ bytes

/-- The functions that write a string into a buffer. -/
inductive BufferOp where
  | strlcpy (src : Source)
  | strlcat (src : Source)
  | strncpy (src : Source)
  | strncat (src : Source) (count : Nat)
  | strcpy (src : Source)
  | strcat (src : Source)

def BufferOp.source : BufferOp → Source
  | .strlcpy src | .strlcat src | .strncpy src | .strncat src _ | .strcpy src | .strcat src => src

/-- A string that lies in `size` bytes; it has no NUL in it. -/
structure Text (size : Nat) where
  bytes : List Byte
  le : bytes.length ≤ size
  nonzero : 0 ∉ bytes

namespace Text

variable {size : Nat}

/-- As much of a string as fits, in `room` of the bytes. -/
def limit (room : Nat) (hroom : room ≤ size) (bytes : List Byte) (h : 0 ∉ bytes) : Text size where
  bytes := bytes.take room
  le := (List.length_take_le room bytes).trans hroom
  nonzero hmem := h (List.mem_of_mem_take hmem)

theorem nonzero_append (t : Text size) {more : List Byte} (h : 0 ∉ more) : 0 ∉ t.bytes ++ more :=
  fun hmem => (List.mem_append.mp hmem).elim t.nonzero h

/-- A string in place of the text. -/
def set (room : Nat) (hroom : room ≤ size) (src : Source) : Text size :=
  limit room hroom src.bytes src.nonzero

/-- A string behind the text, of which one byte stays free. -/
def append (t : Text size) (src : Source) (count : Nat) : Text size :=
  limit (size - 1) (Nat.sub_le size 1) (t.bytes ++ src.bytes.take count)
    (t.nonzero_append fun hmem => src.nonzero (List.mem_of_mem_take hmem))

theorem append_bytes_eq (t : Text size) (src : Source) (count : Nat) :
    (t.append src count).bytes = (t.bytes ++ src.bytes.take count).take (size - 1) := rfl

theorem append_bytes (t : Text size) (src : Source) (count : Nat) (h : t.bytes.length < size) :
    (t.append src count).bytes =
      t.bytes ++ src.bytes.take (min count (size - 1 - t.bytes.length)) := by
  simp only [append_bytes_eq, List.take_append,
    List.take_of_length_le (show t.bytes.length ≤ size - 1 by omega), List.take_take, Nat.min_comm]

/-- A string that fits. -/
theorem append_bytes_of_fits (t : Text size) (src : Source) (count : Nat)
    (h : t.bytes.length + min src.bytes.length count < size) :
    (t.append src count).bytes = t.bytes ++ src.bytes.take count := by
  rw [append_bytes_eq]
  exact List.take_of_length_le (by simp; omega)

theorem set_bytes (src : Source) {room : Nat} (hroom : room ≤ size) :
    (set room hroom src).bytes = src.bytes.take room := rfl

/-- A text that fills the buffer is not appended to. -/
def put (t : Text size) : BufferOp → Text size
  | .strlcpy src | .strcpy src => set (size - 1) (Nat.sub_le size 1) src
  | .strncpy src => set size (Nat.le_refl size) src
  | .strlcat src => if t.bytes.length < size then t.append src src.bytes.length else t
  | .strcat src => t.append src src.bytes.length
  | .strncat src count => t.append src count

/-- The lengths that have been returned since there was last another string in its place. -/
def told (t : Text size) (results : List Nat) : BufferOp → List Nat
  | .strlcpy src => [src.bytes.length]
  | .strcpy _ | .strncpy _ => []
  | .strlcat src => results ++ [t.bytes.length + src.bytes.length]
  | .strcat _ | .strncat _ _ => results

/-- The text and the lengths together. -/
def step (x : Text size × List Nat) (op : BufferOp) : Text size × List Nat :=
  (x.1.put op, x.1.told x.2 op)

/-- What the functions without the size of the buffer need. -/
def Fits (t : Text size) : BufferOp → Prop
  | .strlcpy _ | .strlcat _ | .strncpy _ => True
  | .strncat src count => t.bytes.length + min src.bytes.length count < size
  | .strcpy src => src.bytes.length < size
  | .strcat src => t.bytes.length + src.bytes.length < size

/-- Every call of a run has what it needs. -/
def Fitting : Text size → List BufferOp → Prop
  | _, [] => True
  | t, op :: ops => t.Fits op ∧ Fitting (t.put op) ops

end Text

end Ytl.CString
