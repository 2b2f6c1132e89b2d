/-
Whose bytes a response has.

Every request is created with `data_offset` 0, so all of them claim the beginning
of the one vector of response bytes, and `write_cb` inserts a chunk behind the
bytes its own request has.  What another request has beyond that point is pushed
back, and that request reads the new chunk where its own bytes were.

So the responses stay apart only as long as every delivery leaves the bytes the
other requests see there as they were.

The invariant is that the bytes of each request are a prefix of the vector.  That is a strange
thing to hold for several requests at once, and it does hold as long as they have been sent
the same bytes; one delivery that tells two of them apart ends it.
-/
import Ytl.Base.Machine
import Ytl.Proofs.Https.Requests

namespace Ytl.Https

open Client

/-! ### Inserting in the middle of a list

A prefix that ends in front of the insertion is not affected.  One that goes on behind it
reads what was inserted, and then, shifted, what was there before.
-/

/-- What happens to a prefix when something is inserted: the part of it behind the
insertion has to agree with what is there now. -/
theorem prefix_insert_iff {α : Type} {l x : List α} (p : Nat) (chunk : List α)
    (hx : x <+: l) :
    x <+: l.take p ++ chunk ++ l.drop p ↔ x.drop p <+: chunk ++ x.drop p := by
  obtain ⟨rest, rfl⟩ := hx
  by_cases hp : x.length ≤ p
  · -- the insertion is behind the prefix
    rw [List.drop_eq_nil_of_le hp]
    refine ⟨fun _ => List.nil_prefix, fun _ => ?_⟩
    rw [List.take_append, List.take_of_length_le hp, List.append_assoc, List.append_assoc]
    exact List.prefix_append x _
  · have hlt : p ≤ x.length := by omega
    have hsplit : x = x.take p ++ x.drop p := (List.take_append_drop p x).symm
    have htake : (x ++ rest).take p = x.take p := List.take_append_of_le_length hlt
    have hdrop : (x ++ rest).drop p = x.drop p ++ rest := List.drop_append_of_le_length hlt
    rw [htake, hdrop]
    nth_rewrite 1 [hsplit]
    rw [List.append_assoc, List.prefix_append_right_inj, ← List.append_assoc]
    constructor
    · intro h
      refine List.prefix_of_prefix_length_le h (List.prefix_append _ rest) ?_
      simp
    · intro h
      exact h.trans (List.prefix_append _ rest)

/-! ### Deliveries

What was delivered to a request is kept beside the client, in the order of the calls.
-/

/-- The calls that fill responses. -/
inductive TransferOp where
  | create (url : List UInt8) (method : HttpsMethod) (spare : List UInt8)
  | deliver (req : Fin maxConcurrentRequests) (chunk : List UInt8)

/-- The client, the handles its `create` returned, and what was delivered to each
request. -/
structure Transfers where
  client : Client
  handles : List RequestHandle
  content : Nat → List UInt8

namespace Transfers

/-- A new request has been sent nothing yet. -/
def open' (s : Transfers) (r : RequestHandle × Client) : Transfers :=
  ⟨r.2, s.handles ++ [r.1], Function.update s.content r.1.index []⟩

/-- The chunk is noted for its request. -/
def receive (s : Transfers) (req : Fin maxConcurrentRequests) (chunk : List UInt8)
    (c : Client) : Transfers :=
  ⟨c, s.handles, Function.update s.content req.val (s.content req.val ++ chunk)⟩

/-- One call, and what it hands out or delivers. -/
def step (s : Transfers) : TransferOp → Except Fault Transfers
  | .create url method spare => s.open' <$> s.client.create url method spare
  | .deliver req chunk => s.receive req chunk <$> s.client.writeCb req chunk

/-- At most as many requests as there are slots, deliveries to requests that were
made, and fewer than 2^32 bytes in all. -/
def admits (s : Transfers) : TransferOp → Prop
  | .create _ _ _ => s.handles.length < maxConcurrentRequests
  | .deliver req chunk => (∃ h ∈ s.handles, h.index = req.val) ∧
      s.client.responses.length + chunk.length < 2 ^ 32

/-- A client that was just constructed. -/
def fresh (easyInit : Fin maxConcurrentRequests → Option Nat) : Transfers :=
  ⟨construct easyInit, [], fun _ => []⟩

/-- Runs from a new client. -/
def machine : Machine Transfers TransferOp Fault where
  start s := ∃ easyInit, s = fresh easyInit
  admits := admits
  step := step

/-- Every request reads what was delivered to it. -/
def Isolated (s : Transfers) : Prop :=
  ∀ h ∈ s.handles, s.client.getResponse h = .ok (s.content h.index)

/-- What other requests have beyond the bytes of this one survives the insertion: it
is what one reads there afterwards. -/
def Undisturbed (s : Transfers) : TransferOp → Prop
  | .create _ _ _ => True
  | .deliver req chunk => ∀ h ∈ s.handles,
      (s.content h.index).drop (s.content req.val).length <+:
        chunk ++ (s.content h.index).drop (s.content req.val).length

instance (s : Transfers) (op : TransferOp) : Decidable (machine.admits s op) :=
  match op with
  | .create _ _ _ => inferInstanceAs (Decidable (s.handles.length < maxConcurrentRequests))
  | .deliver req chunk =>
      inferInstanceAs (Decidable ((∃ h ∈ s.handles, h.index = req.val) ∧
        s.client.responses.length + chunk.length < 2 ^ 32))

instance (s : Transfers) (op : TransferOp) : Decidable (s.Undisturbed op) :=
  match op with
  | .create _ _ _ => inferInstanceAs (Decidable True)
  | .deliver req chunk =>
      inferInstanceAs (Decidable (∀ h ∈ s.handles,
        (s.content h.index).drop (s.content req.val).length <+:
          chunk ++ (s.content h.index).drop (s.content req.val).length))

/-! ### What is known while the responses are apart

The requests that were made have the first slots, so the handle of a request and its slot have
the same number.
-/

/-- The requests made so far have the first slots, and each has a prefix of the bytes. -/
structure Shared (s : Transfers) : Prop where
  count : s.handles.length ≤ maxConcurrentRequests
  free : s.client.freeIndices = untouched s.handles.length
  next : s.client.nextCurlHandle < maxConcurrentRequests
  handles : ∀ h, h ∈ s.handles ↔ h.index < s.handles.length ∧ h.generation = s.client.generation
  used : ∀ i : Fin maxConcurrentRequests, i.val < s.handles.length →
    (s.client.requests i).state ≠ .free ∧ (s.client.requests i).dataOffset = 0 ∧
      (s.client.requests i).dataLength = (s.content i.val).length ∧
      s.content i.val <+: s.client.responses

namespace Shared

variable {s t : Transfers} {i : Fin maxConcurrentRequests}

theorem of_fresh (easyInit : Fin maxConcurrentRequests → Option Nat) :
    Shared (fresh easyInit) := by
  refine ⟨Nat.zero_le _, rfl, Nat.pos_of_neZero _, ?_, ?_⟩
  · intro h
    simp [fresh]
  · intro i hi
    exact absurd hi (Nat.not_lt_zero _)

theorem writePos_eq (h : Shared s) (hi : i.val < s.handles.length) :
    s.client.writePos i = (s.content i.val).length := by
  obtain ⟨-, hoff, hlen, -⟩ := h.used i hi
  unfold writePos
  rw [hoff, hlen, Nat.zero_add]

theorem writePos_le (h : Shared s) (hi : i.val < s.handles.length) :
    s.client.writePos i ≤ s.client.responses.length := by
  rw [h.writePos_eq hi]
  exact (h.used i hi).2.2.2.length_le

theorem lt_of_mem (h : Shared s) {handle : RequestHandle} (hh : handle ∈ s.handles) :
    handle.index < maxConcurrentRequests :=
  Nat.lt_of_lt_of_le ((h.handles handle).mp hh).1 h.count

/-- Prefixes of the bytes are what the requests read. -/
theorem isolated (h : Shared s) : Isolated s := by
  intro handle hh
  obtain ⟨hlt, hgen⟩ := (h.handles handle).mp hh
  have hi : handle.index < maxConcurrentRequests := h.lt_of_mem hh
  obtain ⟨hstate, hoff, hlen, hpre⟩ := h.used ⟨handle.index, hi⟩ hlt
  have hvalid : s.client.validHandle handle = true :=
    validHandle_eq_true.mpr ⟨⟨handle.index, hi⟩, rfl, hgen, hstate⟩
  rw [getResponse_eq hvalid (i := ⟨handle.index, hi⟩) rfl (h.writePos_le hlt), hoff, hlen,
    List.drop_zero, ← List.prefix_iff_eq_take.mp hpre]

/-! ### One step

A delivery puts the chunk behind the bytes of its own request, so that request reads all it
was sent, whatever becomes of the others.
-/

theorem create_step (h : Shared s) {url spare : List UInt8} {method : HttpsMethod}
    (ha : s.admits (.create url method spare)) :
    ∃ t, s.step (.create url method spare) = .ok t ∧ Shared t := by
  have hlt : s.handles.length < maxConcurrentRequests := ha
  have hfree : s.client.freeIndices =
      untouched (s.handles.length + 1) ++ [Fin.val ⟨s.handles.length, hlt⟩] := by
    rw [h.free]
    exact untouched_concat hlt
  obtain ⟨c, hc, hnew⟩ := create_spec (i := ⟨s.handles.length, hlt⟩) hfree h.next url method spare
  refine ⟨s.open' (⟨s.handles.length, s.client.generation⟩, c), ?_, ?_⟩
  · exact map_returns.mpr ⟨_, hc, rfl⟩
  · have hcount : (s.open' (⟨s.handles.length, s.client.generation⟩, c)).handles.length =
        s.handles.length + 1 := by
      simp [open']
    refine ⟨by rw [hcount]; omega, ?_, hnew.next, ?_, ?_⟩
    · rw [hcount]
      have htaken := hnew.taken
      rw [hfree] at htaken
      exact (List.append_cancel_right htaken).symm
    · intro handle
      rw [hcount]
      show handle ∈ s.handles ++ [⟨s.handles.length, s.client.generation⟩] ↔
        handle.index < _ ∧ handle.generation = c.generation
      rw [hnew.generation, List.mem_append, List.mem_singleton, h.handles handle]
      constructor
      · rintro (⟨hidx, hgen⟩ | rfl)
        · exact ⟨by omega, hgen⟩
        · exact ⟨Nat.lt_succ_self _, rfl⟩
      · rintro ⟨hidx, hgen⟩
        by_cases hlast : handle.index = s.handles.length
        · right
          rw [← hlast, ← hgen]
        · exact Or.inl ⟨by omega, hgen⟩
    · intro i hi
      rw [hcount] at hi
      show (c.requests i).state ≠ .free ∧ (c.requests i).dataOffset = 0 ∧
        (c.requests i).dataLength =
          (Function.update s.content s.handles.length [] i.val).length ∧
        Function.update s.content s.handles.length [] i.val <+: c.responses
      by_cases hnewest : i.val = s.handles.length
      · have hi' : i = ⟨s.handles.length, hlt⟩ := Fin.ext hnewest
        rw [hnewest, Function.update_self, hi', hnew.request]
        exact ⟨by simp, rfl, rfl, List.nil_prefix⟩
      · have hi' : i ≠ ⟨s.handles.length, hlt⟩ := fun hc => hnewest (congrArg Fin.val hc)
        rw [Function.update_of_ne hnewest, hnew.others i hi', hnew.responses]
        exact h.used i (by omega)

/-- A delivery to a request that was made returns. -/
theorem deliver_returns (h : Shared s) {req : Fin maxConcurrentRequests} {chunk : List UInt8}
    (ha : s.admits (.deliver req chunk)) :
    ∃ c, s.client.writeCb req chunk = .ok c ∧ Written s.client req chunk c ∧
      s.step (.deliver req chunk) = .ok (s.receive req chunk c) := by
  obtain ⟨⟨handle, hh, hidx⟩, -⟩ := ha
  have hlt : req.val < s.handles.length := hidx ▸ ((h.handles handle).mp hh).1
  obtain ⟨c, hc, hw⟩ := writeCb_spec chunk (h.writePos_le hlt)
  refine ⟨c, hc, hw, ?_⟩
  exact map_returns.mpr ⟨_, hc, rfl⟩

/-- What a request has after a delivery is again a prefix exactly when the delivery did
not disturb it; the request that was served always has one. -/
theorem prefix_written (h : Shared s) {req : Fin maxConcurrentRequests} {chunk : List UInt8}
    {c : Client} (hreq : req.val < s.handles.length) (hw : Written s.client req chunk c)
    (hi : i.val < s.handles.length) :
    s.content i.val <+: c.responses ↔
      (s.content i.val).drop (s.content req.val).length <+:
        chunk ++ (s.content i.val).drop (s.content req.val).length := by
  rw [hw.responses, h.writePos_eq hreq]
  exact prefix_insert_iff _ chunk (h.used i hi).2.2.2

theorem deliver_shared (h : Shared s) {req : Fin maxConcurrentRequests} {chunk : List UInt8}
    {c : Client} (ha : s.admits (.deliver req chunk))
    (hu : s.Undisturbed (.deliver req chunk))
    (hw : Written s.client req chunk c) : Shared (s.receive req chunk c) := by
  obtain ⟨⟨handle, hh, hidx⟩, hbytes⟩ := ha
  have hreq : req.val < s.handles.length := hidx ▸ ((h.handles handle).mp hh).1
  refine ⟨h.count, ?_, ?_, ?_, ?_⟩
  · show c.freeIndices = _
    rw [hw.rest]
    exact h.free
  · show c.nextCurlHandle < _
    rw [hw.rest]
    exact h.next
  · intro handle'
    show _ ↔ _ ∧ handle'.generation = c.generation
    rw [hw.rest]
    exact h.handles handle'
  · intro i hi
    have hi' : i.val < s.handles.length := hi
    show (c.requests i).state ≠ .free ∧ (c.requests i).dataOffset = 0 ∧
      (c.requests i).dataLength =
        (Function.update s.content req.val (s.content req.val ++ chunk) i.val).length ∧
      Function.update s.content req.val (s.content req.val ++ chunk) i.val <+: c.responses
    obtain ⟨hstate, hoff, hlen, hpre⟩ := h.used i hi'
    by_cases hir : i = req
    · subst hir
      rw [Function.update_self, hw.request]
      refine ⟨hstate, hoff, ?_, ?_⟩
      · have hle := hpre.length_le
        show ((s.client.requests i).dataLength + chunk.length) % 2 ^ 32 = _
        rw [hlen, List.length_append]
        exact Nat.mod_eq_of_lt (by omega)
      · rw [hw.responses, h.writePos_eq hi', ← List.prefix_iff_eq_take.mp hpre]
        exact List.prefix_append _ _
    · have hval : i.val ≠ req.val := fun hc => hir (Fin.ext hc)
      rw [Function.update_of_ne hval, hw.others i hir]
      refine ⟨hstate, hoff, hlen, (h.prefix_written hreq hw hi').mpr ?_⟩
      exact hu ⟨i.val, s.client.generation⟩ ((h.handles _).mpr ⟨hi', rfl⟩)

/-- A delivery after which every request reads its own bytes has disturbed nobody. -/
theorem undisturbed_of_isolated (h : Shared s) {req : Fin maxConcurrentRequests}
    {chunk : List UInt8} {c : Client} (ha : s.admits (.deliver req chunk))
    (hw : Written s.client req chunk c) (hiso : Isolated (s.receive req chunk c)) :
    s.Undisturbed (.deliver req chunk) := by
  obtain ⟨⟨handle, hh, hidx⟩, -⟩ := ha
  have hreq : req.val < s.handles.length := hidx ▸ ((h.handles handle).mp hh).1
  intro handle' hh'
  obtain ⟨hlt, hgen⟩ := (h.handles handle').mp hh'
  by_cases hsame : handle'.index = req.val
  · rw [hsame, List.drop_eq_nil_of_le (Nat.le_refl _)]
    exact List.nil_prefix
  · have hi : handle'.index < maxConcurrentRequests := h.lt_of_mem hh'
    have hne : (⟨handle'.index, hi⟩ : Fin maxConcurrentRequests) ≠ req :=
      fun hc => hsame (congrArg Fin.val hc)
    obtain ⟨hstate, hoff, hlen, hpre⟩ := h.used ⟨handle'.index, hi⟩ hlt
    refine (h.prefix_written (i := ⟨handle'.index, hi⟩) hreq hw hlt).mp ?_
    have hread := hiso handle' hh'
    have hvalid : c.validHandle handle' = true := by
      refine validHandle_eq_true.mpr ⟨⟨handle'.index, hi⟩, rfl, ?_, ?_⟩
      · rw [hgen, hw.rest]
      · rw [hw.others _ hne]
        exact hstate
    have hpos : c.writePos ⟨handle'.index, hi⟩ ≤ c.responses.length := by
      have hgrown : s.client.responses.length ≤ c.responses.length := by
        rw [hw.responses]
        simp
        omega
      unfold writePos
      rw [hw.others _ hne]
      exact (h.writePos_le hlt).trans hgrown
    rw [show (s.receive req chunk c).client = c from rfl,
      getResponse_eq hvalid (i := ⟨handle'.index, hi⟩) rfl hpos, hw.others _ hne, hoff, hlen,
      List.drop_zero] at hread
    have hcontent : (s.receive req chunk c).content handle'.index = s.content handle'.index :=
      Function.update_of_ne hsame _ _
    rw [hcontent] at hread
    rw [← Except.ok.inj hread]
    exact List.take_prefix _ _

theorem step_of_undisturbed (h : Shared s) (op : TransferOp) (ha : s.admits op)
    (hu : s.Undisturbed op) : ∃ t, s.step op = .ok t ∧ Shared t := by
  cases op with
  | create url method spare => exact h.create_step ha
  | deliver req chunk =>
      obtain ⟨c, -, hw, hstep⟩ := h.deliver_returns ha
      exact ⟨_, hstep, h.deliver_shared ha hu hw⟩

theorem undisturbed_of_step (h : Shared s) (op : TransferOp) (ha : s.admits op)
    (hs : s.step op = .ok t) (hiso : Isolated t) : s.Undisturbed op := by
  cases op with
  | create url method spare => exact trivial
  | deliver req chunk =>
      obtain ⟨c, -, hw, hstep⟩ := h.deliver_returns ha
      rw [Except.ok.inj (hs.symm.trans hstep)] at hiso
      exact h.undisturbed_of_isolated ha hw hiso

end Shared

/--
**Responses stay apart exactly when no delivery disturbs another request.**  Along a
run in which every chunk leaves what the other requests have beyond the bytes of its
own request unchanged, every request reads, after every step, the chunks delivered to
it in their order; and a run in which they do has met the condition at every delivery.
-/
theorem responses_isolated_iff (easyInit : Fin maxConcurrentRequests → Option Nat)
    (ops : List TransferOp) (hadm : machine.Admitted (fresh easyInit) ops) :
    machine.Always (fun _ _ s => Isolated s) (fresh easyInit) ops ↔
      machine.Meets Undisturbed (fresh easyInit) ops := by
  refine Machine.always_iff_meets (m := machine) (I := Shared) ?_ ?_ ops _
    (Shared.of_fresh easyInit) hadm
  · intro s op h ha hu
    obtain ⟨t, ht, h'⟩ := h.step_of_undisturbed op ha hu
    exact ⟨t, ht, h'.isolated, h'⟩
  · intro s op t h ha hs hiso
    exact h.undisturbed_of_step op ha hs hiso

/-- Two requests that are sent the same byte do not disturb each other. -/
theorem responses_isolated_same :
    machine.Admitted (fresh fun i => some i.val)
        [.create [] .get [0], .create [] .get [0], .deliver 0 [1, 1], .deliver 1 [1]] ∧
      machine.Always (fun _ _ s => Isolated s) (fresh fun i => some i.val)
        [.create [] .get [0], .create [] .get [0], .deliver 0 [1, 1], .deliver 1 [1]] := by
  obtain ⟨hadm, hmeets⟩ := Machine.meets_of_check (m := machine) (C := Undisturbed)
    [.create [] .get [0], .create [] .get [0], .deliver 0 [1, 1], .deliver 1 [1]]
    (fresh fun i => some i.val) (by decide +kernel)
  exact ⟨hadm, (responses_isolated_iff _ _ hadm).mpr hmeets⟩

/-- The first request is sent two bytes and then the second two others; the first reads
the bytes of the second. -/
theorem responses_not_isolated :
    machine.Admitted (fresh fun i => some i.val)
        [.create [] .get [0], .create [] .get [0], .deliver 0 [97, 97], .deliver 1 [98, 98]] ∧
      ¬ machine.Always (fun _ _ s => Isolated s) (fresh fun i => some i.val)
        [.create [] .get [0], .create [] .get [0], .deliver 0 [97, 97], .deliver 1 [98, 98]] := by
  refine ⟨(Machine.meets_of_check (m := machine) (C := fun _ _ => True) _ _
    (by decide +kernel)).1, ?_⟩
  intro halways
  obtain ⟨s, hs, -, hiso⟩ := Machine.Always.last (m := machine)
    [.create [] .get [0], .create [] .get [0], .deliver 0 [97, 97]] halways
  have hmixed := of_checkResult (P := fun s : Transfers =>
    decide ((⟨0, 0⟩ : RequestHandle) ∈ s.handles ∧ s.content 0 = [97, 97]) &&
      checkResult (s.client.getResponse ⟨0, 0⟩) fun bytes => decide (bytes = [98, 98]))
    (by decide +kernel) hs
  obtain ⟨hknown, hread⟩ := Bool.and_eq_true_iff.mp hmixed
  obtain ⟨hmem, hcontent⟩ := of_decide_eq_true hknown
  have hbytes := of_decide_eq_true (of_checkResult hread (hiso _ hmem))
  rw [hcontent] at hbytes
  cases hbytes

end Transfers

end Ytl.Https
