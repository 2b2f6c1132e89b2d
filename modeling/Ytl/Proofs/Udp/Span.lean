/-
What `get_data` spans.

The length that `FIONREAD` reports is written to the connection before there is room for it.
Every exit of the receiving functions puts it right, but for the one on which the allocator
refuses: there the buffer keeps its size, and the connection an error with which it is never
received on again.

Apart from that exit the length fits, which rests on three facts about every slot: the buffer
is as large as `max_packet_size` says, a slot that is `FREE` has no data, and a length that
does not fit stands next to an error.
-/
import Ytl.Proofs.Udp.Poll
import Ytl.Proofs.Udp.Slots

namespace Ytl.Udp

open Process

/-- How many bytes a buffer has; a null pointer has none. -/
def allocated (buffer : Option Block) : Nat := (buffer.map fun b => b.bytes.length).getD 0

/-- What `get_data` returns lies within the buffer, for every connection. -/
def SpansFit (s : Process) : Prop :=
  ∀ id, id < maxConnections → ∃ buffer len, s.getData id = .ok (buffer, len) ∧
    len ≤ allocated buffer

/-- The data of a slot lies within its buffer. -/
def Fits (c : ConnectionData) : Prop := c.dataLen ≤ allocated c.recvBuffer

theorem getData_val (s : Process) (i : Fin maxConnections) :
    s.getData i.val = .ok ((s.conns i).recvBuffer, (s.conns i).dataLen) := by
  rw [getData, ref_val, bind_of_ok]
  rfl

theorem spansFit_iff {s : Process} : SpansFit s ↔ ∀ i, Fits (s.conns i) := by
  constructor
  · intro h i
    obtain ⟨buffer, len, hget, hle⟩ := h i.val i.isLt
    rw [getData_val] at hget
    cases hget
    exact hle
  · intro h id hid
    exact ⟨_, _, getData_val s ⟨id, hid⟩, h ⟨id, hid⟩⟩

/-- A call that needs a larger buffer gets it. -/
def HasRoom (s : Process) (connId : Nat) (os : RecvAnswers) : Prop :=
  s.usable connId = true → ∀ (conn : Fin maxConnections) (n : Nat), conn.val = connId →
    os.fionread = some n → (s.conns conn).maxPacketSize < n → os.realloc.granted = true

/-- Every call of the receiving functions does. -/
def GrantsRoom (s : Process) : Op → Prop
  | .recv connId os => HasRoom s connId os
  | .recvFrom connId os => HasRoom s connId os
  | .recvFromAll connIds os => ∀ revents, os.poll = some revents →
      (Machine.ofStep (recvCall os.recv)).Meets
        (fun t call => HasRoom t call.1 (os.recv call.2)) s (s.recvCalls connIds revents)
  | _ => True

/-! ### The invariant

A length that does not fit is not excluded, since one exit leaves it behind; but such a slot
has an error, and none of the receiving functions looks at its data again.
-/

/-- What holds of a slot whatever the allocator answers. -/
structure SlotSized (c : ConnectionData) : Prop where
  size : ∀ b, c.recvBuffer = some b → b.bytes.length = c.maxPacketSize
  free : c.state = .free → c.dataLen = 0
  error : Fits c ∨ c.error ≠ .none

/-- A slot without data. -/
theorem SlotSized.of_empty {c : ConnectionData}
    (hsize : ∀ b, c.recvBuffer = some b → b.bytes.length = c.maxPacketSize)
    (hlen : c.dataLen = 0) : SlotSized c ∧ Fits c := by
  have hfits : Fits c := by
    rw [Fits, hlen]
    exact Nat.zero_le _
  exact ⟨⟨hsize, fun _ => hlen, Or.inl hfits⟩, hfits⟩

theorem slotSized_default : SlotSized {} ∧ Fits {} := SlotSized.of_empty nofun rfl

section Slots

variable {s s' t : Process} {conn : Fin maxConnections} {c : ConnectionData}

/-- What holds of all slots after one of them has been written. -/
theorem forall_setConn {X : ConnectionData → Prop} (hconns : t.conns = s.conns) :
    (∀ i, X ((t.setConn conn c).conns i)) ↔ (∀ i, i ≠ conn → X (s.conns i)) ∧ X c := by
  constructor
  · intro h
    refine ⟨fun i hi => ?_, ?_⟩
    · have hi' := h i
      rwa [setConn_of_ne _ _ hi, hconns] at hi'
    · have hconn := h conn
      rwa [setConn_self] at hconn
  · rintro ⟨hothers, hc⟩ i
    by_cases hi : i = conn
    · rw [hi, setConn_self]
      exact hc
    · rw [setConn_of_ne _ _ hi, hconns]
      exact hothers i hi

/-- The error of a slot may change, but is not cleared. -/
theorem SlotSized.of_error (h : SlotSized c) {e : Error} (he : c.error ≠ .none → e ≠ .none) :
    SlotSized { c with error := e } := ⟨h.size, h.free, h.error.imp_right he⟩

end Slots

/-! ### Receiving

For each exit it is said what the slot is like that it leaves, and whether its data lies
within its buffer.  A connection that can be used has no error, so before the call its data
did.
-/

section Receive

variable {s s' t : Process} {conn : Fin maxConnections} {c : ConnectionData} {os : RecvAnswers}
  {before after : Address → Address} {r : Bool} {n : Nat}

theorem fillBuffer_eq_ok {buffer filled : Option Block} {bytes : List UInt8}
    (h : fillBuffer buffer bytes = .ok filled) :
    ∃ b, buffer = some b ∧ bytes.length ≤ b.bytes.length ∧
      filled = some { b with bytes := bytes ++ b.bytes.drop bytes.length } := by
  unfold fillBuffer at h
  split at h
  · cases h
  · rename_i b
    split at h
    · rename_i hle
      cases h
      exact ⟨b, rfl, hle, rfl⟩
    · cases h

/-- Where there is room, the buffer is as large as it is said to be. -/
theorem roomFor_size {c : ConnectionData} (hc : SlotSized c)
    (hroom : c.maxPacketSize < n → os.realloc.granted = true) :
    ∀ b, (s.roomFor c n os.realloc).1 = some b → b.bytes.length = sizeFor c n := by
  intro b hb
  unfold roomFor realloc malloc at hb
  unfold sizeFor
  split at hb
  · rename_i hn
    rw [if_pos hn]
    rw [if_pos (hroom hn)] at hb
    cases hb
    simp
  · rename_i hn
    rw [if_neg hn]
    exact hc.size b hb

/-- The length of a datagram that was received lies within the buffer it was written to. -/
theorem SlotSized.of_filled {buffer : Option Block} {bytes : List UInt8}
    (hstate : c.state ≠ .free)
    (hsize : ∀ b, buffer = some b → b.bytes.length = c.maxPacketSize)
    (hfill : fillBuffer buffer bytes = .ok c.recvBuffer) (hlen : c.dataLen = bytes.length) :
    SlotSized c ∧ Fits c := by
  obtain ⟨b, hb, hle, hfilled⟩ := fillBuffer_eq_ok hfill
  have hlength : (bytes ++ b.bytes.drop bytes.length).length = b.bytes.length := by
    rw [List.length_append, List.length_drop]
    omega
  have hfits : Fits c := by
    rw [Fits, hlen, hfilled]
    show bytes.length ≤ (bytes ++ b.bytes.drop bytes.length).length
    omega
  refine ⟨⟨fun b' hb' => ?_, fun hfree => absurd hfree hstate, Or.inl hfits⟩, hfits⟩
  rw [hfilled] at hb'
  rw [← Option.some.inj hb']
  exact hlength.trans (hsize b hb)

/-- The length is written before the allocator is asked.  Where it refuses, the buffer is as
small as it was. -/
theorem SlotSized.not_fits_of_refused (hc : SlotSized c) (hn : c.maxPacketSize < n) {e : Error} :
    ¬ Fits { c with dataLen := n, error := e } := by
  intro hfits
  have hle : n ≤ allocated c.recvBuffer := hfits
  cases hb : c.recvBuffer with
  | none =>
      rw [hb] at hle
      exact absurd (Nat.lt_of_lt_of_le hn hle) (Nat.not_lt_zero _)
  | some b =>
      rw [hb] at hle
      have hsize := hc.size b hb
      have hle' : n ≤ b.bytes.length := hle
      omega

theorem hasRoom_of_not_usable (huse : ¬ s.usable conn.val = true) :
    HasRoom s conn.val os := fun hc => absurd hc huse

theorem hasRoom_of_unread (hlen : os.fionread = none) : HasRoom s conn.val os := by
  intro _ i n _ hn
  rw [hlen] at hn
  cases hn

theorem hasRoom_iff (huse : s.usable conn.val = true) (hlen : os.fionread = some n) :
    HasRoom s conn.val os ↔ ((s.conns conn).maxPacketSize < n → os.realloc.granted = true) := by
  constructor
  · intro h hn
    exact h huse conn n rfl hlen hn
  · intro h _ i k hi hk hlt
    rw [Fin.ext hi] at hlt
    rw [hlen] at hk
    rw [← Option.some.inj hk] at hlt
    exact h hlt

/-- A usable connection has no error, so its data lies within its buffer. -/
theorem fits_of_usable (hI : ∀ i, SlotSized (s.conns i)) (huse : s.usable conn.val = true) :
    Fits (s.conns conn) := by
  refine (hI conn).error.resolve_right ?_
  exact fun hc => (usable_val s conn).mp huse (Or.inl hc)

theorem not_free_of_usable (huse : s.usable conn.val = true) : (s.conns conn).state ≠ .free := by
  intro hfree
  refine (usable_val s conn).mp huse (Or.inr ?_)
  rw [hfree]
  exact nofun

/-- What a call has left in its slot decides what it did to the pool. -/
theorem sized_setConn (hI : ∀ i, SlotSized (s.conns i)) (huse : s.usable conn.val = true)
    (hconns : t.conns = s.conns) (hc : SlotSized c) (hfits : Fits c ↔ HasRoom s conn.val os) :
    (∀ i, SlotSized ((t.setConn conn c).conns i)) ∧
      ((∀ i, Fits ((t.setConn conn c).conns i)) ↔
        (∀ i, Fits (s.conns i)) ∧ HasRoom s conn.val os) := by
  refine ⟨(forall_setConn hconns).mpr ⟨fun i _ => hI i, hc⟩, ?_⟩
  rw [forall_setConn hconns, hfits]
  refine and_congr_left fun _ => ⟨fun h i => ?_, fun h i _ => h i⟩
  by_cases hi : i = conn
  · rw [hi]
    exact fits_of_usable hI huse
  · exact h i hi

/-- **One call.**  The facts about the slots are kept, and the data lies within the buffers
after it if and only if it did before and the call has got the room it needs. -/
theorem receives_sized (hI : ∀ i, SlotSized (s.conns i))
    (h : Receives s conn os before after r s') :
    (∀ i, SlotSized (s'.conns i)) ∧
      ((∀ i, Fits (s'.conns i)) ↔ (∀ i, Fits (s.conns i)) ∧ HasRoom s conn.val os) := by
  have hconns : ∀ n, (s.roomFor (s.conns conn) n os.realloc).2.conns = s.conns := fun n => by
    rw [roomFor_fields]
  cases h with
  | skipped huse =>
      exact ⟨hI, fun hs => ⟨hs, hasRoom_of_not_usable huse⟩, fun hs => hs.1⟩
  | unread huse hlen =>
      have hfits := fits_of_usable hI huse
      exact sized_setConn hI huse rfl ((hI conn).of_error fun _ => nofun)
        (iff_of_true hfits (hasRoom_of_unread hlen))
  | empty huse hlen =>
      obtain ⟨hsized, hfits⟩ := SlotSized.of_empty (c := { s.conns conn with dataLen := 0 })
        (hI conn).size rfl
      refine sized_setConn hI huse rfl hsized ?_
      exact iff_of_true hfits ((hasRoom_iff huse hlen).mpr fun hn => absurd hn (Nat.not_lt_zero _))
  | refused huse hlen hn hno =>
      refine sized_setConn hI huse rfl
        ⟨(hI conn).size, fun hfree => absurd hfree (not_free_of_usable huse), Or.inr nofun⟩ ?_
      refine iff_of_false ((hI conn).not_fits_of_refused hn) ?_
      rw [hasRoom_iff huse hlen, hno]
      exact fun hc => Bool.false_ne_true (hc hn)
  | @failed n huse hlen h0 hroom hr =>
      obtain ⟨hsized, hfits⟩ := SlotSized.of_empty (c := { s.conns conn with
        recvBuffer := (s.roomFor (s.conns conn) n os.realloc).1
        maxPacketSize := sizeFor (s.conns conn) n
        dataLen := 0
        fromAddr := before (s.conns conn).fromAddr
        error := .recvFailed }) (roomFor_size (hI conn) hroom) rfl
      refine sized_setConn hI huse (hconns n) hsized ?_
      exact iff_of_true hfits ((hasRoom_iff huse hlen).mpr hroom)
  | @received n bytes filled huse hlen h0 hroom hr hfill =>
      obtain ⟨hsized, hfits⟩ := SlotSized.of_filled (c := { s.conns conn with
        recvBuffer := filled
        maxPacketSize := sizeFor (s.conns conn) n
        dataLen := bytes.length
        fromAddr := after (before (s.conns conn).fromAddr) }) (not_free_of_usable huse)
        (roomFor_size (hI conn) hroom) hfill rfl
      refine sized_setConn hI huse (hconns n) hsized ?_
      exact iff_of_true hfits ((hasRoom_iff huse hlen).mpr hroom)

theorem receive_sized (hI : ∀ i, SlotSized (s.conns i)) {connId : Nat}
    (h : s.receive connId os before after = .ok (r, s')) :
    (∀ i, SlotSized (s'.conns i)) ∧
      ((∀ i, Fits (s'.conns i)) ↔ (∀ i, Fits (s.conns i)) ∧ HasRoom s connId os) := by
  obtain ⟨conn, rfl, hexit⟩ := receive_receives h
  exact receives_sized hI hexit

theorem recvCall_sized (hI : ∀ i, SlotSized (s.conns i)) {recv : Nat → RecvAnswers}
    {call : Nat × Nat} (h : recvCall recv s call = .ok s') :
    (∀ i, SlotSized (s'.conns i)) ∧
      ((∀ i, Fits (s'.conns i)) ↔
        (∀ i, Fits (s.conns i)) ∧ HasRoom s call.1 (recv call.2)) := by
  obtain ⟨r, hr⟩ := snd_returns.mp h
  exact receive_sized hI hr

end Receive

/-! ### The other operations

They leave the data and the buffer of a connection alone, or begin a new one without data.
-/

/-- The facts about the slots hold after the step; and where the data lay within the buffers
before it, it does so afterwards if and only if there was room. -/
structure SizedStep (s s' : Process) (room : Prop) : Prop where
  sized : ∀ i, SlotSized (s'.conns i)
  fits : (∀ i, Fits (s.conns i)) → ((∀ i, Fits (s'.conns i)) ↔ room)

section Others

variable {s s' : Process}

theorem SizedStep.of_kept (hsized : ∀ i, SlotSized (s'.conns i))
    (hfits : (∀ i, Fits (s.conns i)) → ∀ i, Fits (s'.conns i)) : SizedStep s s' True :=
  ⟨hsized, fun hs => iff_true_intro (hfits hs)⟩

theorem SizedStep.of_receive (hI : ∀ i, SlotSized (s.conns i)) {connId : Nat} {os : RecvAnswers}
    {before after : Address → Address} {r : Bool}
    (h : s.receive connId os before after = .ok (r, s')) :
    SizedStep s s' (HasRoom s connId os) := by
  obtain ⟨hsized, hfits⟩ := receive_sized hI h
  exact ⟨hsized, fun hs => hfits.trans (and_iff_right hs)⟩

theorem onlyErrors_sized (hI : ∀ i, SlotSized (s.conns i)) (h : OnlyErrors s s') :
    SizedStep s s' True := by
  refine SizedStep.of_kept (fun i => ?_) (fun hs i => ?_)
  · obtain ⟨e, he, hkeep⟩ := h.conns i
    rw [he]
    exact (hI i).of_error hkeep
  · obtain ⟨e, he, -⟩ := h.conns i
    rw [he]
    exact hs i

theorem recvFromAll_sized (hI : ∀ i, SlotSized (s.conns i)) {connIds : List Nat}
    {os : PollAnswers} (h : s.recvFromAll connIds os = .ok s') :
    SizedStep s s' (GrantsRoom s (.recvFromAll connIds os)) := by
  obtain ⟨poll, recv⟩ := os
  have hids : ∀ id ∈ connIds, id < maxConnections := by
    obtain ⟨fds, hfds, -⟩ := bind_returns.mp h
    exact lt_of_pollSet connIds fds hfds
  cases poll with
  | none =>
      rcases recvFromAll_cases h with ⟨-, hfailed⟩ | ⟨revents, n, hpoll, -⟩
      · obtain ⟨hsized, hfits⟩ := onlyErrors_sized hI (pollFailed_onlyErrors hfailed)
        exact ⟨hsized, fun hs => (hfits hs).trans (iff_of_true trivial nofun)⟩
      · cases hpoll
  | some revents =>
      rw [recvFromAll_eq hids] at h
      have hadm := Machine.admitted_ofStep (recvCall recv) (s.recvCalls connIds revents) s
      have hkeep : ∀ t call t', (∀ i, SlotSized (t.conns i)) → True →
          recvCall recv t call = .ok t' → ∀ i, SlotSized (t'.conns i) :=
        fun t call t' ht _ hs => (recvCall_sized ht hs).1
      refine ⟨Machine.foldlM_invariant_of_admitted hkeep _ s s' hI hadm h, fun hs => ?_⟩
      rw [Machine.completed_iff_meets (m := Machine.ofStep (recvCall recv)) hkeep
        (fun t call t' ht _ hs => (recvCall_sized ht hs).2) _ s s' hI hadm h, and_iff_right hs]
      constructor
      · intro hmeets _ hpoll
        rw [← Option.some.inj hpoll]
        exact hmeets
      · intro hroom
        exact hroom revents rfl

theorem opened_sized (hI : ∀ i, SlotSized (s.conns i)) {i : Fin maxConnections}
    (hothers : ∀ j, j ≠ i → ∃ e, s'.conns j = { s.conns j with error := e } ∧
      ((s.conns j).error ≠ .none → e ≠ .none))
    (hi : SlotSized (s'.conns i) ∧ Fits (s'.conns i)) : SizedStep s s' True := by
  refine SizedStep.of_kept (fun j => ?_) (fun hs j => ?_)
  · by_cases hj : j = i
    · rw [hj]
      exact hi.1
    · obtain ⟨e, he, hkeep⟩ := hothers j hj
      rw [he]
      exact (hI j).of_error hkeep
  · by_cases hj : j = i
    · rw [hj]
      exact hi.2
    · obtain ⟨e, he, -⟩ := hothers j hj
      rw [he]
      exact hs j

/-- A slot that was taken from the free list has no data yet. -/
theorem launch_sized (hI : ∀ i, SlotSized (s.conns i)) {i : Fin maxConnections} (hi : s.IsFree i)
    {a : Alloc} {fd : Int} {getfl done : Bool} {r : Except Fault (Nat × Process)} {index : Nat}
    (h : Launch s i a fd getfl done r) (hr : r = .ok (index, s')) : SizedStep s s' True := by
  have hsize : ∀ b, (s.malloc defaultPacketSize a).1 = some b →
      b.bytes.length = defaultPacketSize := by
    intro b hb
    unfold malloc at hb
    split at hb
    · cases hb
      simp
    · cases hb
  have hlen : (s.conns i).dataLen = 0 := (hI i).free hi
  cases h with
  | @fail t ht fd' hconn e he =>
      cases hr
      refine opened_sized hI (i := i) (fun j hj => ⟨(s.conns j).error, ?_, id⟩) ?_
      · rw [setError, setConn_of_ne _ _ hj, ht.others j hj]
      · rw [setError, setConn_self, hconn]
        exact SlotSized.of_empty hsize hlen
  | @finish t ht hconn addr =>
      obtain ⟨t', ht', hlast⟩ := bind_returns.mp hr
      cases hlast
      have herr := initSocket_onlyErrors ht'
      refine opened_sized hI (i := i) (fun j hj => ?_) ?_
      · obtain ⟨e, he, hkeep⟩ := herr.conns j
        rw [ht.others j hj] at he hkeep
        exact ⟨e, by rw [setConn_of_ne _ _ hj, he], hkeep⟩
      · obtain ⟨e, he, -⟩ := herr.conns i
        rw [setConn_self, he, hconn]
        exact SlotSized.of_empty hsize hlen

theorem attempt_sized (hI : ∀ i, SlotSized (s.conns i)) {a : Alloc} {fd : Int}
    {getfl done : Bool} {r : Except Fault (Nat × Process)} {index : Nat}
    (h : Attempt s a fd getfl done r) (hr : r = .ok (index, s')) : SizedStep s s' True := by
  cases h with
  | full _ =>
      cases hr
      exact onlyErrors_sized hI (OnlyErrors.refl s)
  | taken hfree _ hl => exact launch_sized hI hfree hl hr

/-- Closing resets some slots and leaves the others alone. -/
theorem closed_sized (hI : ∀ i, SlotSized (s.conns i))
    (h : ∀ i, s'.conns i = {} ∨ s'.conns i = s.conns i) : SizedStep s s' True := by
  refine SizedStep.of_kept (fun i => ?_) (fun hs i => ?_)
  · rcases h i with he | he
    · rw [he]
      exact slotSized_default.1
    · rw [he]
      exact hI i
  · rcases h i with he | he
    · rw [he]
      exact slotSized_default.2
    · rw [he]
      exact hs i

theorem close_conns {id : Nat} (h : s.close id = .ok s') (i : Fin maxConnections) :
    s'.conns i = {} ∨ s'.conns i = s.conns i := by
  obtain ⟨j, l, -, -, rfl⟩ := close_walk h
  rw [releaseAll_conns]
  split
  · exact Or.inl rfl
  · exact Or.inr rfl

theorem sendOneshot_conns {host port : String} {data : List UInt8} {os : OneshotAnswers}
    {e : Error} (h : s.sendOneshot host port data os = .ok (e, s')) (i : Fin maxConnections) :
    s'.conns i = {} ∨ s'.conns i = s.conns i := by
  rcases sendOneshot_exits h with rfl | ⟨sockets, calls, id, -, hclose⟩
  · exact Or.inr rfl
  · exact close_conns hclose i

end Others

/-! ### Whole runs

The condition is asked of every call in the state it is made in, so for `recv_from_all` it is
carried along the calls of `recv_from` that the poll leads to.
-/

/-- The free list and the sizes of the slots are as they should be. -/
structure SizesOK (s : Process) : Prop where
  slots : SlotsOK s
  sized : ∀ i, SlotSized (s.conns i)

namespace SizesOK

variable {s s' : Process}

theorem of_empty : SizesOK Process.empty := ⟨SlotsOK.of_empty, fun _ => slotSized_default.1⟩

/-- **One step.** -/
theorem step (h : SizesOK s) {op : Op} (hs : op.step s = .ok s') :
    SizedStep s s' (GrantsRoom s op) := by
  unfold Op.step at hs
  cases op with
  | create host port connect os =>
      obtain ⟨r, hr⟩ := snd_returns.mp hs
      exact attempt_sized h.sized (h.slots.create_attempt host port connect os) hr
  | serve port os =>
      obtain ⟨r, hr⟩ := snd_returns.mp hs
      exact attempt_sized h.sized (h.slots.serve_attempt port os) hr
  | send connId data os =>
      obtain ⟨r, hr⟩ := snd_returns.mp hs
      exact onlyErrors_sized h.sized (sendVia_onlyErrors hr)
  | sendTo connId addr data os =>
      obtain ⟨r, hr⟩ := snd_returns.mp hs
      exact onlyErrors_sized h.sized (sendVia_onlyErrors hr)
  | sendToAll connIds data os => exact onlyErrors_sized h.sized (sendToAll_onlyErrors hs)
  | recv connId os =>
      obtain ⟨r, hr⟩ := snd_returns.mp hs
      exact SizedStep.of_receive h.sized hr
  | recvFrom connId os =>
      obtain ⟨r, hr⟩ := snd_returns.mp hs
      exact SizedStep.of_receive h.sized hr
  | recvFromAll connIds os => exact recvFromAll_sized h.sized hs
  | update os => exact onlyErrors_sized h.sized (update_onlyErrors hs)
  | close connId => exact closed_sized h.sized (close_conns hs)
  | sendOneshot host port data os =>
      obtain ⟨r, hr⟩ := snd_returns.mp hs
      exact closed_sized h.sized (sendOneshot_conns hr)

theorem of_step (h : SizesOK s) {op : Op} (hs : op.step s = .ok s') : SizesOK s' :=
  ⟨h.slots.of_step hs, (h.step hs).sized⟩

theorem of_reachable {promise : Process → Int → Prop} (h : (pool promise).Reachable s) :
    SizesOK s := by
  refine h.invariant (I := SizesOK) ?_ fun _ _ _ hI _ hs => hI.of_step hs
  rintro s ⟨port, os, -, hs⟩
  rw [construct_eq] at hs
  split at hs
  · exact of_empty.of_step hs
  · cases hs
    exact of_empty

end SizesOK

/--
**When received data lies within its buffer.**  In all states of a run what `get_data` returns
lies within the buffer if and only if every call that needed a larger buffer got it.
-/
theorem data_fits_iff (ops : List Op) (s : Process)
    (hrun : ops.foldlM Op.step Process.empty = .ok s) :
    (Machine.ofStep Op.step).Throughout SpansFit Process.empty ops ↔
      (Machine.ofStep Op.step).Meets GrantsRoom Process.empty ops := by
  have hstart : SpansFit Process.empty := spansFit_iff.mpr fun _ => slotSized_default.2
  rw [Machine.throughout_iff_meets (m := Machine.ofStep Op.step) (I := SizesOK)
    (fun _ _ _ h _ hs => h.of_step hs) ?_ ops Process.empty s SizesOK.of_empty
    (Machine.admitted_ofStep _ ops _) hrun]
  · exact and_iff_right hstart
  · intro t op t' h hfits _ hs
    rw [spansFit_iff] at hfits ⊢
    exact (h.step hs).fits hfits

/-- A datagram that fits into the buffer the slot was opened with. -/
theorem data_fits_small :
    ∃ (ops : List Op) (s : Process), ops.foldlM Op.step Process.empty = .ok s ∧
      s.usable 0 = true ∧ (s.conns 0).dataLen = 3 ∧
      ((Machine.ofStep Op.step).Throughout SpansFit Process.empty ops ↔
        (Machine.ofStep Op.step).Meets GrantsRoom Process.empty ops) := by
  obtain ⟨s, hs, hP⟩ := returns_of_checkResult
    (x := [Op.serve 9000 { socket := 3 },
      .recv 0 { fionread := some 3, received := some [1, 2, 3] }].foldlM Op.step Process.empty)
    (P := fun s => s.usable 0 = true ∧ (s.conns 0).dataLen = 3) (by decide +kernel)
  obtain ⟨huse, hlen⟩ := of_decide_eq_true hP
  exact ⟨_, s, hs, huse, hlen, data_fits_iff _ s hs⟩

/-- A datagram of 2000 bytes for which there is no memory: `get_data` spans 2000 bytes, and the
buffer still has 1024. -/
theorem data_not_fits :
    ∃ s, (pool Fresh).Reachable s ∧
      (∃ b : Block, s.getData 0 = .ok (some b, 2000) ∧ b.bytes.length = 1024) ∧
      ¬ SpansFit s := by
  obtain ⟨s, hs, hP⟩ := Machine.exists_reachable start_empty
    [.serve 9000 { socket := 3 },
      .recv 0 { fionread := some 2000, realloc := { granted := false }, received := none }]
    (fun s => ((s.conns 0).recvBuffer.map fun b => b.bytes.length) = some 1024 ∧
      (s.conns 0).dataLen = 2000) (by decide +kernel)
  obtain ⟨hsize, hlen⟩ := of_decide_eq_true hP
  obtain ⟨b, hb, hbytes⟩ := Option.map_eq_some_iff.mp hsize
  have hget : s.getData 0 = .ok (some b, 2000) := by
    rw [← hb, ← hlen]
    exact getData_val s 0
  refine ⟨s, hs, ⟨b, hget, hbytes⟩, fun hfits => ?_⟩
  have hle := spansFit_iff.mp hfits 0
  rw [Fits, hb, hlen] at hle
  have hle' : 2000 ≤ b.bytes.length := hle
  omega

end Ytl.Udp
