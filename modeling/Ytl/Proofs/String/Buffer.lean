/-
A buffer for strings, over whole runs.

Every writer of the library leaves the front of the buffer alone and puts the first bytes of a
string behind it, with NULs behind those; the writers differ in how much they leave alone and in
how much fits.  So one lemma about memory says what each of them does to the text in the buffer.
The strings come from outside of the buffer, where nothing ever changes.
-/
import Ytl.Base.Simulation
import Ytl.Proofs.String.Append
import Ytl.String.Text

namespace Ytl.CString

open Memory

variable {m m' : Bytes} {buf a : Addr} {l : List Byte} {src : Source} {size n k c : Nat}

/-! ### Bytes in memory

Lists of bytes are what the specification speaks of, and memory is a function on addresses.
-/

/-- The bytes of `l` are those from `a` on. -/
def Spelled (m : Bytes) (a : Addr) (l : List Byte) : Prop :=
  ∀ i, i < l.length → l[i]? = some (m (a + BitVec.ofNat 64 i))

theorem Spelled.ne_zero (h : Spelled m a l) (hl : 0 ∉ l) {i : Nat} (hi : i < l.length) :
    m (a + BitVec.ofNat 64 i) ≠ 0 :=
  fun hzero => hl (List.mem_of_getElem? ((h i hi).trans (congrArg some hzero)))

/-- The string is there. -/
structure Source.At (src : Source) (m : Bytes) : Prop where
  bytes : Spelled m src.addr src.bytes
  nul : m (src.addr + BitVec.ofNat 64 src.bytes.length) = 0

theorem Source.At.isString (h : src.At m) : IsString m src.addr src.bytes.length :=
  ⟨fun _ hi => h.bytes.ne_zero src.nonzero hi, h.nul⟩

/-- **What a writer does**: it puts `c` bytes of the string behind the text. -/
theorem Spelled.written (h : Spelled m buf l) (hs : src.At m) (hc : c ≤ src.bytes.length)
    (hck : c ≤ k) (hroom : l.length + k ≤ 2 ^ 64) :
    Spelled (Ytl.written k (buf + BitVec.ofNat 64 l.length) (cut m src.addr c) m) buf
        (l ++ src.bytes.take c) ∧
      (c < k → Ytl.written k (buf + BitVec.ofNat 64 l.length) (cut m src.addr c) m
        (buf + BitVec.ofNat 64 (l ++ src.bytes.take c).length) = 0) := by
  have hlength : (l ++ src.bytes.take c).length = l.length + c := by simp [hc]
  refine ⟨fun i hi => ?_, fun hlt => ?_⟩
  · rw [hlength] at hi
    by_cases hold : i < l.length
    · rw [List.getElem?_append_left hold, h i hold, written_outside]
      intro j hj heq
      rw [add_ofNat_add] at heq
      exact ofNat_ne (show i < 2 ^ 64 by omega) (show l.length + j < 2 ^ 64 by omega) (by omega)
        (add_left_cancel heq)
    · obtain ⟨j, rfl⟩ := Nat.exists_eq_add_of_le (Nat.not_lt.mp hold)
      rw [List.getElem?_append_right (Nat.le_add_right _ _), Nat.add_sub_cancel_left,
        List.getElem?_take_of_lt (by omega), hs.bytes j (by omega), ← add_ofNat_add,
        written_inside (by omega) (by omega), cut_of_lt (by omega)]
  · rw [hlength, ← add_ofNat_add, written_inside hlt (by omega), cut_of_le (Nat.le_refl c)]

/-! ### What the buffer shows

The relation says what lies in the buffer and that nothing has changed outside of it.  The
strings to be copied lie there, so they are the same all the time.
-/

/-- The text is in the buffer, and outside of it everything is as in `m₀`. -/
structure Shows (m₀ : Bytes) (buf : Addr) (m : Bytes) (t : Text size) : Prop where
  bytes : Spelled m buf t.bytes
  nul : t.bytes.length < size → m (buf + BitVec.ofNat 64 t.bytes.length) = 0
  outside : ∀ a, (∀ i, i < size → a ≠ buf + BitVec.ofNat 64 i) → m a = m₀ a

variable {m₀ : Bytes} {t u : Text size}

theorem Shows.limited (h : Shows m₀ buf m t) : Limited m buf size t.bytes.length :=
  ⟨t.le, fun _ hi => h.bytes.ne_zero t.nonzero hi, h.nul⟩

/-- A text that does not fill the buffer is a string. -/
theorem Shows.isString (h : Shows m₀ buf m t) (hlt : t.bytes.length < size) :
    IsString m buf t.bytes.length := ⟨h.limited.before, h.nul hlt⟩

theorem Shows.length_eq (h : Shows m₀ buf m t) (hn : IsString m buf n) (hlt : n < size) :
    t.bytes.length = n := by
  have hle : t.bytes.length ≤ n := hn.le_of_before h.limited.before
  exact hn.eq_of_nul h.limited.before (h.nul (Nat.lt_of_le_of_lt hle hlt))

/-- The front of the text is left alone, and `k` cells behind it are written. -/
theorem Shows.written (h : Shows m₀ buf m t) (hl : Spelled m buf l) (hs : src.At m)
    (hc : c ≤ src.bytes.length) (hck : c ≤ k) (hend : l.length + c < size → c < k)
    (hk : l.length + k ≤ size) (hroom : size ≤ 2 ^ 64)
    (hm : m' = Ytl.written k (buf + BitVec.ofNat 64 l.length) (cut m src.addr c) m)
    (hu : u.bytes = l ++ src.bytes.take c) : Shows m₀ buf m' u := by
  obtain ⟨hbytes, hnul⟩ := hl.written hs hc hck (by omega)
  rw [← hm, ← hu] at hbytes hnul
  refine ⟨hbytes, fun hlt => hnul (hend ?_), fun a ha => ?_⟩
  · simpa [hu, hc] using hlt
  · rw [hm, written_outside, h.outside a ha]
    intro i hi
    rw [add_ofNat_add]
    exact ha _ (by omega)

/-- The whole buffer is written over. -/
theorem Shows.rewritten (h : Shows m₀ buf m t) (hs : src.At m) (hc : c ≤ src.bytes.length)
    (hck : c ≤ k) (hend : c < size → c < k) (hk : k ≤ size) (hroom : size ≤ 2 ^ 64)
    (hm : m' = Ytl.written k buf (cut m src.addr c) m) (hu : u.bytes = src.bytes.take c) :
    Shows m₀ buf m' u := by
  refine h.written (l := []) (fun i hi => absurd hi (Nat.not_lt_zero i)) hs hc hck ?_ ?_ hroom
    ?_ hu
  · simpa using hend
  · simpa using hk
  · rw [hm, List.length_nil, show buf + BitVec.ofNat 64 0 = buf from BitVec.add_zero buf]

/-! ### The writers

Each writer comes to the one lemma about what a writer does, with its own numbers.
-/

/-- The string, with its NUL, lies outside of the buffer. -/
def Source.Apart (src : Source) (buf : Addr) (size : Nat) : Prop :=
  ∀ i j, i ≤ src.bytes.length → j < size →
    src.addr + BitVec.ofNat 64 i ≠ buf + BitVec.ofNat 64 j

theorem moved_eq_cut (d : Addr) (hs : src.At m) :
    moved (src.bytes.length + 1) d src.addr m =
      Ytl.written (src.bytes.length + 1) d (cut m src.addr src.bytes.length) m := by
  rw [moved_eq_written]
  refine written_congr fun i hi => ?_
  rcases Nat.lt_succ_iff_lt_or_eq.mp hi with hlt | rfl
  · rw [cut_of_lt hlt]
  · rw [cut_of_le (Nat.le_refl _), hs.nul]

section Writers

variable (h : Shows m₀ buf m t) (hs : src.At m) (hapart : src.Apart buf size)

include h hs hapart

theorem strlcpy_shows :
    ∃ w, strlcpy m buf src.addr size = .ok (BitVec.ofNat 64 src.bytes.length, w) ∧
      Shows m₀ buf w.mem (t.put (.strlcpy src)) := by
  have hroom := room_of_apart hs.isString hapart
  obtain ⟨w, hw, hnone, hsome⟩ := strlcpy_holds hs.isString
    fun i j hi _ (hj : j < size) => hapart i j hi hj
  refine ⟨w, hw, ?_⟩
  by_cases hzero : size = 0
  · have hmem : w.mem = m := by rw [hnone hzero]
    refine ⟨fun i hi => absurd hi ?_, fun hlt => absurd hlt ?_, ?_⟩
    · simp [Text.put, Text.set, Text.limit, hzero]
    · simp [hzero]
    · rw [hmem]
      exact h.outside
  · refine h.rewritten hs (Nat.min_le_left _ (size - 1)) (Nat.le_succ _)
      (fun _ => Nat.lt_succ_self _) (by omega) (by omega) (hsome hzero).mem ?_
    rw [Text.put, Text.set_bytes, List.take_eq_take_min, Nat.min_comm]

theorem strlcat_shows :
    ∃ r w, strlcat m buf src.addr size =
        .ok (BitVec.ofNat 64 (t.bytes.length + src.bytes.length), r, w) ∧
      Shows m₀ buf w.mem (t.put (.strlcat src)) := by
  have hroom := room_of_apart hs.isString hapart
  obtain ⟨r, w, hw, -, hnone, hsome⟩ := strlcat_holds hs.isString h.limited hapart
  refine ⟨r, w, hw, ?_⟩
  rcases Nat.lt_or_eq_of_le t.le with hlt | hfull
  · refine h.written h.bytes hs (Nat.min_le_left _ (size - 1 - t.bytes.length)) (Nat.le_succ _)
      (fun _ => Nat.lt_succ_self _) (by omega) (by omega) (hsome hlt).mem ?_
    rw [Text.put, if_pos hlt, t.append_bytes src _ hlt]
  · rw [Text.put, if_neg (by omega), (hnone hfull).1]
    exact h

theorem strncpy_shows :
    ∃ w, strncpy m buf src.addr size = (buf, w) ∧ Shows m₀ buf w.mem (t.put (.strncpy src)) := by
  have hroom := room_of_apart hs.isString hapart
  obtain ⟨w, hw, hholds⟩ := strncpy_holds hs.isString hapart
  refine ⟨w, hw, h.rewritten hs (Nat.min_le_left _ size) (Nat.min_le_right _ size) (fun hlt => hlt)
    (Nat.le_refl size) (by omega) ?_ ?_⟩
  · rw [hholds.mem]
    refine written_congr fun i hi => ?_
    by_cases hn : i < src.bytes.length
    · rw [cut_of_lt hn, cut_of_lt (Nat.lt_min.mpr ⟨hn, hi⟩)]
    · rw [cut_of_le (Nat.not_lt.mp hn), cut_of_le ((Nat.min_le_left _ _).trans (Nat.not_lt.mp hn))]
  · rw [Text.put, Text.set_bytes, List.take_eq_take_min, Nat.min_comm]

theorem strncat_shows {count : Nat}
    (hfit : t.bytes.length + min src.bytes.length count < size) :
    ∃ w, strncat m buf src.addr count = .ok (buf, w) ∧
      Shows m₀ buf w.mem (t.put (.strncat src count)) := by
  have hroom := room_of_apart hs.isString hapart
  obtain ⟨w, hw, hholds⟩ := strncat_holds (h.isString (by omega)) hs.isString
    fun i j hi (hj : j ≤ t.bytes.length + min src.bytes.length count) =>
      hapart i j hi (by omega)
  refine ⟨w, hw, h.written h.bytes hs (Nat.min_le_left _ count) (Nat.le_succ _)
    (fun _ => Nat.lt_succ_self _) (by omega) (by omega) hholds.mem ?_⟩
  rw [Text.put, t.append_bytes_of_fits src count hfit, Nat.min_comm, ← List.take_eq_take_min]

theorem strcpy_shows (hfit : src.bytes.length < size) :
    ∃ mem, strcpy m buf src.addr = .ok (buf, mem) ∧ Shows m₀ buf mem (t.put (.strcpy src)) := by
  have hroom := room_of_apart hs.isString hapart
  have hsafe : Cursor.SafeUp (src.bytes.length + 1) ⟨m, buf, src.addr⟩ := by
    have hat : Cursor.SafeUp (src.bytes.length + 1) ⟨m, buf + BitVec.ofNat 64 0, src.addr⟩ :=
      safeUp_of_apart fun i j hi hj => hapart i j hi (by omega)
    rwa [show buf + BitVec.ofNat 64 0 = buf from BitVec.add_zero buf] at hat
  refine ⟨_, strcpy_moved hs.isString hsafe, h.rewritten hs (Nat.le_refl _) (Nat.le_succ _)
    (fun _ => Nat.lt_succ_self _) hfit (by omega) (moved_eq_cut buf hs) ?_⟩
  rw [Text.put, Text.set_bytes, List.take_length, List.take_of_length_le (by omega)]

theorem strcat_shows (hfit : t.bytes.length + src.bytes.length < size) :
    ∃ mem, strcat m buf src.addr = .ok (buf, mem) ∧ Shows m₀ buf mem (t.put (.strcat src)) := by
  have hroom := room_of_apart hs.isString hapart
  have hsafe : Cursor.SafeUp (src.bytes.length + 1)
      ⟨m, buf + BitVec.ofNat 64 t.bytes.length, src.addr⟩ :=
    safeUp_of_apart fun i j hi hj => hapart i j hi (by omega)
  refine ⟨_, strcat_moved (h.isString (by omega)) hs.isString hsafe,
    h.written h.bytes hs (Nat.le_refl _) (Nat.le_succ _) (fun _ => Nat.lt_succ_self _) (by omega)
      (by omega) (moved_eq_cut _ hs) ?_⟩
  rw [Text.put, t.append_bytes_of_fits src _ (by omega)]

end Writers

/-! ### Runs

The lengths that are returned are collected, and forgotten when the buffer is written from its
beginning.
-/

/-- The memory, and the lengths that have been returned since there was last another string in
the buffer. -/
structure Buffer where
  mem : Bytes
  results : List Nat := []

namespace Buffer

/-- One call, with the length that it returns, if it returns one. -/
def step (buf : Addr) (size : Nat) (b : Buffer) : BufferOp → Except Fault Buffer
  | .strlcpy src => do
      let (len, w) ← CString.strlcpy b.mem buf src.addr size
      return ⟨w.mem, [len.toNat]⟩
  | .strlcat src => do
      let (len, _, w) ← CString.strlcat b.mem buf src.addr size
      return ⟨w.mem, b.results ++ [len.toNat]⟩
  | .strncpy src => return ⟨(CString.strncpy b.mem buf src.addr size).2.mem, []⟩
  | .strncat src count => do
      let (_, w) ← CString.strncat b.mem buf src.addr count
      return ⟨w.mem, b.results⟩
  | .strcpy src => do
      let (_, mem) ← CString.strcpy b.mem buf src.addr
      return ⟨mem, []⟩
  | .strcat src => do
      let (_, mem) ← CString.strcat b.mem buf src.addr
      return ⟨mem, b.results⟩

variable {b : Buffer}

/-- **One call**, whatever is in the buffer. -/
theorem step_shows {op : BufferOp} (h : Shows m₀ buf b.mem t) (hs : op.source.At b.mem)
    (hapart : op.source.Apart buf size) (hfit : t.Fits op) :
    ∃ b', b.step buf size op = .ok b' ∧ Shows m₀ buf b'.mem (t.put op) ∧
      b'.results = t.told b.results op := by
  have hroom := room_of_apart hs.isString hapart
  have hle := t.le
  cases op with
  | strlcpy src =>
      dsimp only [BufferOp.source] at hs hapart hroom
      obtain ⟨w, hw, hshows⟩ := strlcpy_shows h hs hapart
      refine ⟨_, by rw [step, hw]; rfl, hshows, ?_⟩
      have hlt : src.bytes.length < 2 ^ 64 := Nat.lt_of_le_of_lt (Nat.le_add_left _ _) hroom
      simp only [Text.told, BitVec.toNat_ofNat, Nat.mod_eq_of_lt hlt]
  | strlcat src =>
      dsimp only [BufferOp.source] at hs hapart hroom
      obtain ⟨r, w, hw, hshows⟩ := strlcat_shows h hs hapart
      refine ⟨_, by rw [step, hw]; rfl, hshows, ?_⟩
      have hlt : t.bytes.length + src.bytes.length < 2 ^ 64 :=
        Nat.lt_of_le_of_lt (Nat.add_le_add_right hle _) hroom
      simp only [Text.told, BitVec.toNat_ofNat, Nat.mod_eq_of_lt hlt]
  | strncpy src =>
      dsimp only [BufferOp.source] at hs hapart hroom
      obtain ⟨w, hw, hshows⟩ := strncpy_shows h hs hapart
      exact ⟨⟨w.mem, []⟩, by rw [step, hw]; rfl, hshows, rfl⟩
  | strncat src count =>
      dsimp only [BufferOp.source] at hs hapart hroom
      obtain ⟨w, hw, hshows⟩ := strncat_shows h hs hapart hfit
      exact ⟨⟨w.mem, b.results⟩, by rw [step, hw]; rfl, hshows, rfl⟩
  | strcpy src =>
      dsimp only [BufferOp.source] at hs hapart hroom
      obtain ⟨mem, hmem, hshows⟩ := strcpy_shows h hs hapart hfit
      exact ⟨⟨mem, []⟩, by rw [step, hmem]; rfl, hshows, rfl⟩
  | strcat src =>
      dsimp only [BufferOp.source] at hs hapart hroom
      obtain ⟨mem, hmem, hshows⟩ := strcat_shows h hs hapart hfit
      exact ⟨⟨mem, b.results⟩, by rw [step, hmem]; rfl, hshows, rfl⟩

/-- A string outside of the buffer is still there. -/
theorem at_of_shows (h : Shows m₀ buf m t) (hs : src.At m₀) (hapart : src.Apart buf size) :
    src.At m := by
  have hkept : ∀ i, i ≤ src.bytes.length →
      m (src.addr + BitVec.ofNat 64 i) = m₀ (src.addr + BitVec.ofNat 64 i) :=
    fun i hi => h.outside _ fun j hj => hapart i j hi hj
  refine ⟨fun i hi => ?_, ?_⟩
  · rw [hkept i hi.le]
    exact hs.bytes i hi
  · rw [hkept _ (Nat.le_refl _)]
    exact hs.nul

theorem run_shows :
    ∀ (ops : List BufferOp) (b : Buffer) (t : Text size), Shows m₀ buf b.mem t →
      (∀ op ∈ ops, op.source.At m₀ ∧ op.source.Apart buf size) → t.Fitting ops →
      ∃ b', ops.foldlM (step buf size) b = .ok b' ∧
        Shows m₀ buf b'.mem (ops.foldl Text.step (t, b.results)).1 ∧
        b'.results = (ops.foldl Text.step (t, b.results)).2 := by
  intro ops
  induction ops with
  | nil =>
      intro b t h _ _
      exact ⟨b, rfl, h, rfl⟩
  | cons op rest ih =>
      intro b t h hsources hfit
      rw [List.forall_mem_cons] at hsources
      obtain ⟨⟨hs, hapart⟩, hrest⟩ := hsources
      obtain ⟨b', hb', hshows, hresults⟩ := step_shows h (at_of_shows h hs hapart) hapart hfit.1
      obtain ⟨b'', hb'', hend⟩ := ih b' (t.put op) hshows hrest hfit.2
      rw [hresults] at hend
      refine ⟨b'', ?_, hend⟩
      rw [List.foldlM_cons, hb']
      exact hb''

/-! ### Two strings to run with -/

/-- `ab` at 200 and `cde` at 300. -/
def letters : Bytes := fun a =>
  if a = 200 then 97 else if a = 201 then 98 else if a = 300 then 99
  else if a = 301 then 100 else if a = 302 then 101 else 0

/-- The string `ab`. -/
def ab : Source := ⟨200, [97, 98], by decide⟩

/-- The string `cde`. -/
def cde : Source := ⟨300, [99, 100, 101], by decide⟩

theorem letters_ready (hsize : size ≤ 5) {src : Source} (h : src = ab ∨ src = cde) :
    src.At letters ∧ src.Apart 16 size := by
  rcases h with rfl | rfl
  · refine ⟨⟨by unfold Spelled; decide, by decide⟩, fun i j hi hj => ?_⟩
    have hi' : i ≤ 2 := hi
    show (200 : Addr) + BitVec.ofNat 64 i ≠ 16 + BitVec.ofNat 64 j
    bv_omega
  · refine ⟨⟨by unfold Spelled; decide, by decide⟩, fun i j hi hj => ?_⟩
    have hi' : i ≤ 3 := hi
    show (300 : Addr) + BitVec.ofNat 64 i ≠ 16 + BitVec.ofNat 64 j
    bv_omega

/-- The empty text. -/
def noText (size : Nat) : Text size := ⟨[], Nat.zero_le size, List.not_mem_nil⟩

theorem noText_shows (size : Nat) : Shows letters 16 letters (noText size) :=
  ⟨fun i hi => absurd hi (Nat.not_lt_zero i), fun _ => (by decide : letters (16 + 0) = 0),
    fun _ _ => rfl⟩

/--
**A buffer holds a text.**  Over any run of the writers, with strings from outside of the buffer
and with room where a function does not ask for the size, every call returns; the buffer holds
what its text has become, the lengths that were returned are those of the texts, `strnlen` finds
the length, and no byte outside of the buffer has changed.
-/
theorem buffer_refines_text (m : Bytes) (buf : Addr) (size : Nat) (t : Text size)
    (h : Shows m buf m t) (ops : List BufferOp)
    (hsources : ∀ op ∈ ops, op.source.At m ∧ op.source.Apart buf size) (hfit : t.Fitting ops) :
    ∃ b u, ops.foldlM (step buf size) ⟨m, []⟩ = .ok b ∧
      ops.foldl Text.step (t, []) = (u, b.results) ∧ Spelled b.mem buf u.bytes ∧
      (u.bytes.length < size → b.mem (buf + BitVec.ofNat 64 u.bytes.length) = 0) ∧
      (strnlen b.mem buf size).1 = BitVec.ofNat 64 u.bytes.length ∧
      ∀ a, (∀ i, i < size → a ≠ buf + BitVec.ofNat 64 i) → b.mem a = m a := by
  obtain ⟨b, hb, hshows, hresults⟩ := run_shows ops ⟨m, []⟩ t h hsources hfit
  refine ⟨b, (ops.foldl Text.step (t, [])).1, hb, ?_, hshows.bytes, hshows.nul,
    (strnlen_stops hshows.limited).1, hshows.outside⟩
  rw [hresults]

/-- A buffer that `strncpy` fills up, and nothing is appended to. -/
theorem buffer_refines_text_full :
    ∃ b u, [BufferOp.strncpy cde, .strlcat ab].foldlM (step 16 3) ⟨letters, []⟩ = .ok b ∧
      [BufferOp.strncpy cde, .strlcat ab].foldl Text.step (noText 3, []) = (u, b.results) ∧
      Spelled b.mem 16 u.bytes ∧
      (u.bytes.length < 3 → b.mem (16 + BitVec.ofNat 64 u.bytes.length) = 0) ∧
      (strnlen b.mem 16 3).1 = BitVec.ofNat 64 u.bytes.length ∧
      ∀ a, (∀ i, i < 3 → a ≠ 16 + BitVec.ofNat 64 i) → b.mem a = letters a :=
  buffer_refines_text letters 16 3 (noText 3) (noText_shows 3) [.strncpy cde, .strlcat ab]
    (by
      rw [List.forall_mem_cons, List.forall_mem_singleton]
      exact ⟨letters_ready (by decide) (Or.inr rfl), letters_ready (by decide) (Or.inl rfl)⟩)
    ⟨trivial, trivial, trivial⟩

end Buffer

/-! ### What was meant

A caller means to put strings one behind the other, without thinking of the end of the
buffer.  How much of that is there, and whether a caller can know, is a question about the
texts only.
-/

/-- The string that would be in a buffer without an end. -/
def meant (l : List Byte) : BufferOp → List Byte
  | .strlcpy src | .strncpy src | .strcpy src => src.bytes
  | .strlcat src | .strcat src => l ++ src.bytes
  | .strncat src count => l ++ src.bytes.take count

/-- `strncpy` leaves out the NUL if the string does not fit. -/
def BufferOp.KeepsNul (size : Nat) : BufferOp → Prop
  | .strncpy src => src.bytes.length < size
  | .strlcpy _ | .strlcat _ | .strncat _ _ | .strcpy _ | .strcat _ => True

/-- The text is as much as fits of what was meant, and the results tell if that is all. -/
structure Follows (l : List Byte) (x : Text size × List Nat) : Prop where
  bytes : x.1.bytes = l.take (size - 1)
  told : l.length < size ↔ ∀ r ∈ x.2, r < size

namespace Follows

variable {x : Text size × List Nat}

/-- As long as nothing was cut, the text is what was meant; after that it is full. -/
theorem cases (h : Follows l x) (hpos : 0 < size) :
    x.1.bytes = l ∧ l.length < size ∨ x.1.bytes.length = size - 1 ∧ size ≤ l.length := by
  by_cases hlt : l.length < size
  · refine Or.inl ⟨?_, hlt⟩
    rw [h.bytes, List.take_of_length_le (by omega)]
  · refine Or.inr ⟨?_, Nat.not_lt.mp hlt⟩
    rw [h.bytes, List.length_take]
    omega

/-- A string that fits. -/
theorem append_fits (h : Follows l x) (hpos : 0 < size) {src : Source} {count : Nat}
    (hfit : x.1.bytes.length + min src.bytes.length count < size) :
    Follows (l ++ src.bytes.take count) (x.1.append src count, x.2) := by
  have htake : (src.bytes.take count).length = min src.bytes.length count := by
    rw [List.length_take, Nat.min_comm]
  rcases h.cases hpos with ⟨hall, hlt⟩ | ⟨hfull, hcut⟩
  · have hlength : (l ++ src.bytes.take count).length < size := by
      rw [List.length_append, htake, ← hall]
      exact hfit
    refine ⟨?_, iff_of_true hlength (h.told.mp hlt)⟩
    rw [Text.append_bytes_of_fits _ _ _ hfit, hall]
    exact (List.take_of_length_le (Nat.le_sub_one_of_lt hlength)).symm
  · -- there is room for nothing
    have hnil : src.bytes.take count = [] := List.length_eq_zero_iff.mp (by omega)
    refine ⟨?_, ?_⟩
    · rw [Text.append_bytes_of_fits _ _ _ hfit, hnil, List.append_nil, List.append_nil, h.bytes]
    · rw [hnil, List.append_nil]
      exact h.told

/-- `strlcat` appends what fits, and says how much there was. -/
theorem append_cut (h : Follows l x) (hpos : 0 < size) (src : Source) :
    Follows (l ++ src.bytes) (Text.step x (.strlcat src)) := by
  have hlt : x.1.bytes.length < size := by
    rw [h.bytes, List.length_take]
    omega
  have hput : x.1.put (.strlcat src) = x.1.append src src.bytes.length := if_pos hlt
  refine ⟨?_, ?_⟩
  · rw [Text.step, hput, Text.append_bytes_eq, List.take_length, h.bytes]
    -- what was cut off before would not have fitted now
    simp only [List.take_append, List.take_take, Nat.min_self, List.length_take]
    congr 2
    omega
  · simp only [Text.step, Text.told, List.forall_mem_append, List.forall_mem_singleton, ← h.told,
      List.length_append]
    rcases h.cases hpos with ⟨hall, -⟩ | ⟨-, hcut⟩
    · rw [hall]
      omega
    · omega

theorem step (h : Follows l x) (hpos : 0 < size) {op : BufferOp} (hfit : x.1.Fits op)
    (hnul : op.KeepsNul size) : Follows (meant l op) (Text.step x op) := by
  cases op with
  | strlcpy src => exact ⟨rfl, by simp [meant, Text.step, Text.told]⟩
  | strlcat src => exact h.append_cut hpos src
  | strncpy src =>
      have hlt : src.bytes.length < size := hnul
      refine ⟨?_, iff_of_true hlt fun r hr => absurd hr List.not_mem_nil⟩
      simp only [Text.step, Text.put, Text.set_bytes, meant]
      rw [List.take_of_length_le hlt.le, List.take_of_length_le (by omega)]
  | strncat src count => exact h.append_fits hpos hfit
  | strcpy src => exact ⟨rfl, iff_of_true hfit fun r hr => absurd hr List.not_mem_nil⟩
  | strcat src =>
      have hroom : x.1.bytes.length + min src.bytes.length src.bytes.length < size := by
        rw [Nat.min_self]
        exact hfit
      have hall := h.append_fits hpos hroom
      rwa [List.take_length] at hall

theorem run (hpos : 0 < size) :
    ∀ (ops : List BufferOp) (l : List Byte) (x : Text size × List Nat), Follows l x →
      x.1.Fitting ops → (∀ op ∈ ops, op.KeepsNul size) →
      Follows (ops.foldl meant l) (ops.foldl Text.step x) := by
  intro ops
  induction ops with
  | nil =>
      intro l x h _ _
      exact h
  | cons op rest ih =>
      intro l x h hfit hnul
      rw [List.forall_mem_cons] at hnul
      exact ih _ _ (h.step hpos hfit.1 hnul.1) hfit.2 hnul.2

end Follows

namespace Buffer

end Buffer

end Ytl.CString
