/-
The first 512 requests.

`create`, `start` and `update` never give a slot back: `free_slot` is not called, and the
scan that `alloc_slot` makes when the free list is empty looks for `FREE` requests, which
nothing produces.  So the requests get the slots and the easy handles 0, 1, 2 and so on,
each once, and the 513th `create` finds nothing, however many requests have been
completed by then.

All of this is one invariant, `FirstRound`: after so many requests the free list is what the
constructor made, less that many numbers at its end, and everything else about slots and easy
handles can be told from the count.  Later modules use it wherever no slot is given back.
-/
import Ytl.Base.Machine
import Ytl.Proofs.Https.Requests

namespace Ytl.Https

open Client

namespace Client

variable {s t u : Client}

/-! ### What `start` and `update` keep

Both change requests, but not which slots are used nor which easy handles they have.
-/

/-- The slots and their easy handles are the same, requests become neither `FREE` nor
`PENDING`, and no easy handle is added. -/
structure Progress (s t : Client) : Prop where
  freeIndices : t.freeIndices = s.freeIndices
  next : t.nextCurlHandle = s.nextCurlHandle
  handles : t.curlHandles = s.curlHandles
  curl : ∀ i, (t.requests i).curl = (s.requests i).curl
  free : ∀ i, (t.requests i).state = .free → (s.requests i).state = .free
  pending : ∀ i, (t.requests i).state = .pending → (s.requests i).state = .pending
  added : ∀ h ∈ t.added, h ∈ s.added

theorem Progress.refl (s : Client) : Progress s s :=
  ⟨rfl, rfl, rfl, fun _ => rfl, fun _ h => h, fun _ h => h, fun _ h => h⟩

theorem Progress.trans (h : Progress s t) (h' : Progress t u) : Progress s u :=
  ⟨h'.freeIndices.trans h.freeIndices, h'.next.trans h.next, h'.handles.trans h.handles,
    fun i => (h'.curl i).trans (h.curl i), fun i hi => h.free i (h'.free i hi),
    fun i hi => h.pending i (h'.pending i hi), fun x hx => h.added x (h'.added x hx)⟩

theorem multiRemove_added (s : Client) (curl : Option Nat) :
    ∀ h ∈ (s.multiRemove curl).added, h ∈ s.added := by
  intro h hh
  unfold multiRemove at hh
  split at hh
  · exact hh
  · exact List.mem_of_mem_erase hh

theorem finish_progress (s : Client) (msg : CurlMsg) : Progress s (s.finish msg) := by
  have hf := finish_finished s msg
  rcases finish_cases s msg with ⟨k, hk⟩ | hsame
  · have heq := finish_of_ends hk
    refine ⟨hf.freeIndices, hf.next, by rw [heq], hf.curl, fun i hi => ((hf.free i).mp hi).1,
      fun i hi => ?_, fun h hh => ?_⟩
    · rw [heq] at hi
      by_cases hik : i = k
      · subst hik
        simp [(completed_state (s.requests i) msg.result).2] at hi
      · simpa [hik] using hi
    · rw [heq] at hh
      exact multiRemove_added s _ h hh
  · rw [hsame]
    exact Progress.refl s

theorem finishAll_progress (msgs : List CurlMsg) :
    ∀ s : Client, Progress s (msgs.foldl finish s) := by
  induction msgs with
  | nil =>
      intro s
      exact Progress.refl s
  | cons msg rest ih =>
      intro s
      exact (finish_progress s msg).trans (ih (s.finish msg))

theorem deliver_progress {write : Nat × List UInt8} (h : s.deliver write = .ok t) :
    Progress s t := by
  unfold deliver at h
  split at h
  · rw [← Except.ok.inj h]
    exact Progress.refl s
  · rename_i req _
    have hw := writeCb_written h
    have hsame := hw.sameSlots
    refine ⟨hsame.freeIndices, hsame.next, by rw [hw.rest], hsame.curl, fun i hi => ?_,
      fun i hi => ?_, fun x hx => ?_⟩
    · rw [← hsame.state i]
      exact hi
    · rw [← hsame.state i]
      exact hi
    · rw [hw.rest] at hx
      exact hx

theorem deliverAll_progress {writes : List (Nat × List UInt8)}
    (h : writes.foldlM deliver s = .ok t) : Progress s t :=
  foldlM_rel Progress.refl (fun _ _ _ => Progress.trans) (fun _ _ _ => deliver_progress)
    writes s t h

theorem update_progress {os : PerformAnswers} (h : s.update os = .ok t) : Progress s t := by
  obtain ⟨u, hu, ht⟩ := bind_returns.mp h
  rw [← Except.ok.inj ht]
  exact (deliverAll_progress hu).trans (finishAll_progress os.messages u)

/-- `start` adds the easy handle of a request at most. -/
theorem start_added {handle : RequestHandle} {accepts : Bool}
    (h : s.start handle accepts = .ok t) :
    ∀ x ∈ t.added, x ∈ s.added ∨ ∃ i, (s.requests i).curl = some x := by
  intro x hx
  unfold start at h
  by_cases hvalid : s.validHandle handle = true
  · obtain ⟨i, hi, -, -⟩ := validHandle_eq_true.mp hvalid
    rw [if_pos hvalid, hi] at h
    simp only [ref_val, bind_of_ok, pure_is_ok] at h
    rw [← Except.ok.inj h] at hx
    have hx' : x ∈ (s.multiAdd (s.requests i).curl accepts).added := hx
    cases hcurl : (s.requests i).curl with
    | none =>
        rw [hcurl] at hx'
        exact Or.inl hx'
    | some y =>
        rw [hcurl] at hx'
        unfold multiAdd at hx'
        dsimp only at hx'
        split at hx'
        · exact Or.inl hx'
        · rcases List.mem_append.mp hx' with hold | hnew
          · exact Or.inl hold
          · rw [List.mem_singleton.mp hnew]
            exact Or.inr ⟨i, hcurl⟩
  · rw [if_neg hvalid] at h
    rw [← Except.ok.inj h] at hx
    exact Or.inl hx

end Client

/-! ### Runs of the public operations

A session is the client with the list of requests it has made.  The list is not in the code;
it is what a statement about the request that was given an easy handle has to look at.
-/

/-- The public operations that use slots: none of them gives one back. -/
inductive PublicOp where
  | create (url : List UInt8) (method : HttpsMethod) (spare : List UInt8)
  | start (handle : RequestHandle) (accepts : Bool)
  | update (os : PerformAnswers)

/-- The client, and the slot and the easy handle of every request that was made. -/
structure Session where
  client : Client
  assigned : List (Fin maxConcurrentRequests × Option Nat)

namespace Session

/-- One operation; a request that is made is listed with its slot and its easy handle. -/
def step (s : Session) : PublicOp → Except Fault Session
  | .create url method spare => do
      let (handle, c) ← s.client.create url method spare
      let i ← ref handle.index
      return ⟨c, s.assigned ++ [(i, (c.requests i).curl)]⟩
  | .start handle accepts => (fun c => ⟨c, s.assigned⟩) <$> s.client.start handle accepts
  | .update os => (fun c => ⟨c, s.assigned⟩) <$> s.client.update os

/-- A client that was just constructed, with the easy handles that libcurl gave it. -/
def fresh (easyInit : Fin maxConcurrentRequests → Option Nat) : Session :=
  ⟨construct easyInit, []⟩

/-- What is known as long as no slot has been used twice. -/
structure FirstRound (easyInit : Fin maxConcurrentRequests → Option Nat) (s : Session) :
    Prop where
  count : s.assigned.length ≤ maxConcurrentRequests
  log : ∀ i h, (i, h) ∈ s.assigned ↔ i.val < s.assigned.length ∧ h = easyInit i
  free : s.client.freeIndices = untouched s.assigned.length
  next : s.client.nextCurlHandle = s.assigned.length % maxConcurrentRequests
  handles : s.client.curlHandles = easyInit
  curl : ∀ i, (s.client.requests i).curl =
    if i.val < s.assigned.length then easyInit i else none
  busy : ∀ i, i.val < s.assigned.length → (s.client.requests i).state ≠ .free
  idle : ∀ i, s.assigned.length ≤ i.val → (s.client.requests i).state ≠ .pending
  bounds : s.client.InBounds
  added : ∀ h ∈ s.client.added, ∃ i, i.val < s.assigned.length ∧ easyInit i = some h

namespace FirstRound

variable {easyInit : Fin maxConcurrentRequests → Option Nat} {s t : Session}

theorem of_fresh (easyInit : Fin maxConcurrentRequests → Option Nat) :
    FirstRound easyInit (fresh easyInit) := by
  refine ⟨Nat.zero_le _, fun i h => ?_, rfl, ?_, rfl, fun i => rfl, fun i hi => ?_,
    fun i _ => nofun, fun i => Nat.le_refl _, fun h hh => ?_⟩
  · simp [fresh]
  · exact (Nat.zero_mod _).symm
  · exact absurd hi (Nat.not_lt_zero _)
  · exact absurd hh List.not_mem_nil

/-- A slot on the free list is one that was never used. -/
theorem length_lt_of_free (h : FirstRound easyInit s) (hfree : s.client.freeIndices ≠ []) :
    s.assigned.length < maxConcurrentRequests := by
  by_contra hge
  refine hfree (h.free.trans ?_)
  unfold untouched
  rw [Nat.sub_eq_zero_of_le (Nat.le_of_not_lt hge)]
  rfl

/-- The easy handle whose turn it is has not been added. -/
theorem turn_not_added (h : FirstRound easyInit s) (hinj : Function.Injective easyInit)
    {k : Fin maxConcurrentRequests} (hk : k.val = s.assigned.length) {x : Nat}
    (hx : easyInit k = some x) : x ∉ s.client.added := by
  intro hadded
  obtain ⟨j, hj, hxj⟩ := h.added x hadded
  rw [hinj (hxj.trans hx.symm), hk] at hj
  exact Nat.lt_irrefl _ hj

/-- `create` while there are untouched slots. -/
theorem create_call (h : FirstRound easyInit s)
    (hlt : s.assigned.length < maxConcurrentRequests) (url : List UInt8) (method : HttpsMethod)
    (spare : List UInt8) :
    ∃ c, s.client.create url method spare =
        .ok (⟨s.assigned.length, s.client.generation⟩, c) ∧
      Assigned s.client ⟨s.assigned.length, hlt⟩ ⟨s.assigned.length, hlt⟩ c := by
  have hfree := h.free
  rw [untouched_concat hlt] at hfree
  exact create_assigned (k := ⟨s.assigned.length, hlt⟩) (i := ⟨s.assigned.length, hlt⟩) hfree
    (by rw [h.next, Nat.mod_eq_of_lt hlt]) url method spare

theorem create_step (h : FirstRound easyInit s)
    (hlt : s.assigned.length < maxConcurrentRequests) (url : List UInt8) (method : HttpsMethod)
    (spare : List UInt8) :
    ∃ c, s.step (.create url method spare) =
        .ok ⟨c, s.assigned ++ [(⟨s.assigned.length, hlt⟩, easyInit ⟨s.assigned.length, hlt⟩)]⟩ ∧
      Assigned s.client ⟨s.assigned.length, hlt⟩ ⟨s.assigned.length, hlt⟩ c := by
  obtain ⟨c, hc, hnew⟩ := h.create_call hlt url method spare
  have href : ref s.assigned.length = .ok ⟨s.assigned.length, hlt⟩ := ref_eq_ok.mpr rfl
  have hcurl := hnew.curl
  rw [h.handles] at hcurl
  refine ⟨c, ?_, hnew⟩
  rw [step, hc, bind_of_ok]
  dsimp only
  rw [href, bind_of_ok, hcurl]
  rfl

theorem of_created (h : FirstRound easyInit s) {hlt : s.assigned.length < maxConcurrentRequests}
    {c : Client}
    (hnew : Assigned s.client ⟨s.assigned.length, hlt⟩ ⟨s.assigned.length, hlt⟩ c) :
    FirstRound easyInit
      ⟨c, s.assigned ++ [(⟨s.assigned.length, hlt⟩, easyInit ⟨s.assigned.length, hlt⟩)]⟩ := by
  have hlen : (s.assigned ++ [((⟨s.assigned.length, hlt⟩ : Fin maxConcurrentRequests),
      easyInit ⟨s.assigned.length, hlt⟩)]).length = s.assigned.length + 1 := by simp
  -- a slot is the new one or as it was
  have hold : ∀ i : Fin maxConcurrentRequests, i.val ≠ s.assigned.length →
      c.requests i = s.client.requests i := by
    intro i hi
    exact hnew.others i fun hc => hi (congrArg Fin.val hc)
  have hself : ∀ i : Fin maxConcurrentRequests, i.val = s.assigned.length →
      i = ⟨s.assigned.length, hlt⟩ := fun i hi => Fin.ext hi
  refine ⟨?_, fun i x => ?_, ?_, ?_, hnew.handles.trans h.handles, fun i => ?_, fun i hi => ?_,
    fun i hi => ?_, hnew.toCreated.inBounds h.bounds, fun x hx => ?_⟩
  · rw [hlen]
    exact hlt
  · rw [hlen, List.mem_append, List.mem_singleton, h.log, Prod.mk.injEq]
    constructor
    · rintro (⟨hi, rfl⟩ | ⟨rfl, rfl⟩)
      · exact ⟨by omega, rfl⟩
      · exact ⟨Nat.lt_succ_self _, rfl⟩
    · rintro ⟨hi, rfl⟩
      by_cases hlast : i.val = s.assigned.length
      · rw [hself i hlast]
        exact Or.inr ⟨rfl, rfl⟩
      · exact Or.inl ⟨by omega, rfl⟩
  · have htaken := hnew.taken
    rw [h.free, untouched_concat hlt] at htaken
    rw [hlen]
    exact (List.append_cancel_right htaken).symm
  · rw [hlen]
    exact hnew.turn
  · show (c.requests i).curl = _
    rw [hlen]
    by_cases hi : i.val = s.assigned.length
    · rw [hself i hi, if_pos (Nat.lt_succ_self _), hnew.curl, h.handles]
    · rw [hold i hi, h.curl i]
      by_cases hlow : i.val < s.assigned.length
      · rw [if_pos hlow, if_pos (by omega)]
      · rw [if_neg hlow, if_neg (by omega)]
  · show (c.requests i).state ≠ .free
    rw [hlen] at hi
    by_cases hlast : i.val = s.assigned.length
    · rw [hself i hlast, hnew.request]
      exact nofun
    · rw [hold i hlast]
      exact h.busy i (by omega)
  · show (c.requests i).state ≠ .pending
    rw [hlen] at hi
    rw [hold i (by omega)]
    exact h.idle i (by omega)
  · have hx' : x ∈ s.client.added := by
      rw [← hnew.added]
      exact hx
    obtain ⟨i, hi, heq⟩ := h.added x hx'
    exact ⟨i, by rw [hlen]; omega, heq⟩

/-- `start` and `update` keep what is known. -/
theorem of_same (h : FirstRound easyInit s) {c : Client}
    (hprog : Progress { s.client with added := c.added } c) (hbounds : c.InBounds)
    (hadded : ∀ x ∈ c.added, x ∈ s.client.added ∨ ∃ i, (s.client.requests i).curl = some x) :
    FirstRound easyInit ⟨c, s.assigned⟩ := by
  refine ⟨h.count, h.log, hprog.freeIndices.trans h.free, hprog.next.trans h.next,
    hprog.handles.trans h.handles, fun i => (hprog.curl i).trans (h.curl i),
    fun i hi hfree => h.busy i hi (hprog.free i hfree),
    fun i hi hpend => h.idle i hi (hprog.pending i hpend), hbounds, fun x hx => ?_⟩
  rcases hadded x hx with hold | ⟨i, hi⟩
  · exact h.added x hold
  · rw [h.curl i] at hi
    by_cases hlow : i.val < s.assigned.length
    · rw [if_pos hlow] at hi
      exact ⟨i, hlow, hi⟩
    · rw [if_neg hlow] at hi
      cases hi

theorem of_progress (h : FirstRound easyInit s) {c : Client} (hprog : Progress s.client c)
    (hbounds : c.InBounds) : FirstRound easyInit ⟨c, s.assigned⟩ := by
  refine h.of_same ?_ hbounds fun x hx => Or.inl (hprog.added x hx)
  exact ⟨hprog.freeIndices, hprog.next, hprog.handles, hprog.curl, hprog.free, hprog.pending,
    fun _ hx => hx⟩

theorem start_step (h : FirstRound easyInit s) (handle : RequestHandle) (accepts : Bool) :
    ∃ c, s.step (.start handle accepts) = .ok ⟨c, s.assigned⟩ ∧
      FirstRound easyInit ⟨c, s.assigned⟩ ∧ c.requests = s.client.requests := by
  obtain ⟨c, hc, hrest⟩ := start_spec s.client handle accepts
  have hsame : Progress { s.client with added := c.added } c := by
    refine ⟨by rw [hrest], by rw [hrest], by rw [hrest], fun i => by rw [hrest], fun i hi => ?_,
      fun i hi => ?_, fun _ hx => hx⟩
    · rw [hrest] at hi
      exact hi
    · rw [hrest] at hi
      exact hi
  exact ⟨c, map_returns.mpr ⟨c, hc, rfl⟩,
    h.of_same hsame (start_inBounds h.bounds hc) (start_added hc), by rw [hrest]⟩

theorem update_step (h : FirstRound easyInit s) (os : PerformAnswers) :
    ∃ c, s.client.update os = .ok c ∧ s.step (.update os) = .ok ⟨c, s.assigned⟩ ∧
      FirstRound easyInit ⟨c, s.assigned⟩ := by
  obtain ⟨c, hc, hbounds, -⟩ := update_spec h.bounds os
  exact ⟨c, hc, map_returns.mpr ⟨c, hc, rfl⟩, h.of_progress (update_progress hc) hbounds⟩

/-- **With every slot used there is none to take**: no request is `FREE`. -/
theorem allocSlot_dry (h : FirstRound easyInit s)
    (hfull : s.assigned.length = maxConcurrentRequests) :
    s.client.allocSlot = .error .outOfBounds := by
  have hnil : s.client.freeIndices = [] := by
    rw [h.free, hfull]
    unfold untouched
    rw [Nat.sub_self]
    rfl
  have hnone : s.client.freeSlots = [] := by
    unfold freeSlots
    rw [List.map_eq_nil_iff, List.filter_eq_nil_iff]
    intro i _ hc
    exact h.busy i (by rw [hfull]; exact i.isLt) (of_decide_eq_true hc)
  unfold allocSlot
  rw [if_pos hnil, hnone]
  rfl

/-- The easy handle of a request is found at that request. -/
theorem requestOf_eq (h : FirstRound easyInit s)
    (hinj : ∀ i j, easyInit i = easyInit j → i = j) {i : Fin maxConcurrentRequests}
    (hi : i.val < s.assigned.length) {x : Nat} (hx : easyInit i = some x) :
    s.client.requestOf (some x) = some i := by
  have hcurl : (s.client.requests i).curl = some x := by
    rw [h.curl i, if_pos hi]
    exact hx
  unfold requestOf
  cases hfind : (List.finRange maxConcurrentRequests).find? fun j =>
      decide ((s.client.requests j).curl = some x) with
  | none =>
      have hnone := List.find?_eq_none.mp hfind i (List.mem_finRange i)
      exact absurd (decide_eq_true hcurl) hnone
  | some k =>
      have hk : (s.client.requests k).curl = some x := by simpa using List.find?_some hfind
      rw [h.curl k] at hk
      by_cases hlow : k.val < s.assigned.length
      · rw [if_pos hlow, ← hx] at hk
        rw [hinj k i hk]
      · rw [if_neg hlow] at hk
        cases hk

end FirstRound

/-! ### Slots for new requests

A request that has been completed is not `PENDING`, so one would expect its slot to be used
again.  That it is not shows only when the free list is empty.
-/

/-- The number of requests that are `PENDING`. -/
def pendingCount (c : Client) : Nat :=
  ((List.finRange maxConcurrentRequests).filter fun i => (c.requests i).state = .pending).length

/-- The operation makes a request. -/
def isCreate : PublicOp → Bool
  | .create _ _ _ => true
  | _ => false

/-- A request is only made while fewer than 512 are `PENDING`. -/
def supplyMachine : Machine Session PublicOp Fault where
  start s := ∃ easyInit, s = fresh easyInit
  admits s
    | .create _ _ _ => pendingCount s.client < maxConcurrentRequests
    | _ => True
  step := step

/-- `alloc_slot` has a slot to return, and the request in it is not `PENDING`. -/
def Supplied (s : Session) : PublicOp → Session → Prop
  | .create _ _ _, _ => ∃ (i : Fin maxConcurrentRequests) (c : Client),
      s.client.allocSlot = .ok (i.val, c) ∧ (s.client.requests i).state ≠ .pending
  | _, _ => True

/-- Not every slot has been used. -/
def SlotLeft (s : Session) : PublicOp → Prop
  | .create _ _ _ => s.assigned.length < maxConcurrentRequests
  | _ => True

variable {easyInit : Fin maxConcurrentRequests → Option Nat} {s t : Session}

theorem step_of_slotLeft (h : FirstRound easyInit s) (op : PublicOp) (hleft : SlotLeft s op) :
    ∃ t, s.step op = .ok t ∧ Supplied s op t ∧ FirstRound easyInit t ∧
      t.assigned.length = s.assigned.length + (if isCreate op then 1 else 0) := by
  cases op with
  | create url method spare =>
      obtain ⟨c, hc, hnew⟩ := h.create_step hleft url method spare
      refine ⟨_, hc, ⟨⟨s.assigned.length, hleft⟩, _, allocSlot_concat hnew.taken, ?_⟩,
        h.of_created hnew, by simp [isCreate]⟩
      exact h.idle _ (Nat.le_refl _)
  | start handle accepts =>
      obtain ⟨c, hc, hfirst, -⟩ := h.start_step handle accepts
      exact ⟨_, hc, trivial, hfirst, rfl⟩
  | update os =>
      obtain ⟨c, -, hc, hfirst⟩ := h.update_step os
      exact ⟨_, hc, trivial, hfirst, rfl⟩

theorem slotLeft_of_step (h : FirstRound easyInit s) (op : PublicOp) (hs : s.step op = .ok t) :
    SlotLeft s op := by
  cases op with
  | create url method spare =>
      by_contra hfull
      have hcount := h.count
      have hdry := h.allocSlot_dry (show s.assigned.length = _ from
        Nat.le_antisymm hcount (Nat.le_of_not_lt hfull))
      rw [step, Client.create, hdry] at hs
      cases hs
  | start handle accepts => exact trivial
  | update os => exact trivial

theorem always_iff_slotLeft (h : FirstRound easyInit s) (ops : List PublicOp)
    (hadm : supplyMachine.Admitted s ops) :
    supplyMachine.Always Supplied s ops ↔ supplyMachine.Meets SlotLeft s ops := by
  refine Machine.always_iff_meets (m := supplyMachine) (I := FirstRound easyInit) ?_ ?_ ops s h
    hadm
  · intro s op h _ hleft
    obtain ⟨t, ht, hsupplied, hfirst, -⟩ := step_of_slotLeft h op hleft
    exact ⟨t, ht, hsupplied, hfirst⟩
  · intro s op t h _ hs _
    exact slotLeft_of_step h op hs

/-- There is a slot for every request exactly when there are no more requests than slots. -/
theorem meets_slotLeft_iff :
    ∀ (ops : List PublicOp) (s : Session), FirstRound easyInit s →
      (supplyMachine.Meets SlotLeft s ops ↔
        s.assigned.length + (ops.filter isCreate).length ≤ maxConcurrentRequests) := by
  intro ops
  induction ops with
  | nil =>
      intro s h
      exact ⟨fun _ => h.count, fun _ => trivial⟩
  | cons op rest ih =>
      intro s h
      have hcount : ((op :: rest).filter isCreate).length =
          (if isCreate op then 1 else 0) + (rest.filter isCreate).length := by
        by_cases hop : isCreate op = true
        · simp [hop]
          omega
        · simp [hop]
      rw [hcount]
      constructor
      · rintro ⟨hleft, hrest⟩
        obtain ⟨t, ht, -, hfirst, hlen⟩ := step_of_slotLeft h op hleft
        have hle := (ih t hfirst).mp (hrest t ht)
        omega
      · intro hle
        have hleft : SlotLeft s op := by
          cases op with
          | create url method spare =>
              simp only [isCreate, if_true] at hle
              show s.assigned.length < _
              omega
          | start handle accepts => exact trivial
          | update os => exact trivial
        obtain ⟨t, ht, -, hfirst, hlen⟩ := step_of_slotLeft h op hleft
        refine ⟨hleft, fun u hu => ?_⟩
        rw [Except.ok.inj (hu.symm.trans (show supplyMachine.step s op = _ from ht))]
        exact (ih t hfirst).mpr (by omega)

/--
**`create` has a slot exactly for the first 512 requests.**  In every run of `create`,
`start` and `update`, with any completion messages and with fewer than 512 requests
`PENDING` at each `create`, `alloc_slot` takes a slot that is not `PENDING` from a free
list that is not empty at every `create` if and only if the run makes at most 512
requests.
-/
theorem slots_supplied_iff (easyInit : Fin maxConcurrentRequests → Option Nat)
    (ops : List PublicOp) (hadm : supplyMachine.Admitted (fresh easyInit) ops) :
    supplyMachine.Always Supplied (fresh easyInit) ops ↔
      (ops.filter isCreate).length ≤ maxConcurrentRequests := by
  have hfirst := FirstRound.of_fresh easyInit
  rw [always_iff_slotLeft hfirst ops hadm, meets_slotLeft_iff ops _ hfirst]
  show 0 + _ ≤ _ ↔ _
  rw [Nat.zero_add]

instance (s : Session) (op : PublicOp) : Decidable (supplyMachine.admits s op) :=
  match op with
  | .create _ _ _ => inferInstanceAs (Decidable (pendingCount s.client < maxConcurrentRequests))
  | .start _ _ => inferInstanceAs (Decidable True)
  | .update _ => inferInstanceAs (Decidable True)

/-- Two requests, the first of which is completed in between. -/
theorem slots_supplied_two :
    supplyMachine.Always Supplied (fresh fun i => some i.val)
      [.create [] .get [0], .start ⟨0, 0⟩ true, .update { messages := [{ easyHandle := some 0 }] },
        .create [] .get [0]] := by
  obtain ⟨hadm, -⟩ := Machine.meets_of_check (m := supplyMachine) (C := fun _ _ => True)
    [.create [] .get [0], .start ⟨0, 0⟩ true, .update { messages := [{ easyHandle := some 0 }] },
      .create [] .get [0]] (fresh fun i => some i.val) (by decide +kernel)
  refine (slots_supplied_iff _ _ hadm).mpr ?_
  rw [maxConcurrentRequests_eq]
  decide

theorem pendingCount_lt {c : Client} (i : Fin maxConcurrentRequests)
    (h : (c.requests i).state ≠ .pending) : pendingCount c < maxConcurrentRequests := by
  have hlt : pendingCount c < (List.finRange maxConcurrentRequests).length := by
    refine List.length_filter_lt_length_iff_exists.mpr ⟨i, List.mem_finRange i, ?_⟩
    simpa using h
  rwa [List.length_finRange] at hlt

/-- As long as there are untouched slots, any number of requests may be made. -/
theorem admitted_creates {rest : List PublicOp} :
    ∀ (k : Nat) (s : Session), FirstRound easyInit s →
      s.assigned.length + k ≤ maxConcurrentRequests →
      (∀ t, FirstRound easyInit t → t.assigned.length = s.assigned.length + k →
        supplyMachine.Admitted t rest) →
      supplyMachine.Admitted s (List.replicate k (.create [] .get [0]) ++ rest) := by
  intro k
  induction k with
  | zero =>
      intro s h _ hrest
      exact hrest s h rfl
  | succ k ih =>
      intro s h hk hrest
      have hlt : s.assigned.length < maxConcurrentRequests := by omega
      obtain ⟨t, ht, -, hfirst, hlen⟩ := step_of_slotLeft h (.create [] .get [0]) hlt
      rw [show isCreate (.create [] .get [0]) = true from rfl, if_pos rfl] at hlen
      refine ⟨pendingCount_lt ⟨s.assigned.length, hlt⟩ (h.idle _ (Nat.le_refl _)),
        fun u hu => ?_⟩
      rw [Except.ok.inj (hu.symm.trans (show supplyMachine.step s _ = _ from ht))]
      refine ih t hfirst (by omega) fun v hv hvlen => hrest v hv (by omega)

/-- 512 requests, of which the first is completed, and one more. -/
def oneMore : List PublicOp :=
  List.replicate maxConcurrentRequests (.create [] .get [0]) ++
    [.update { messages := [{ easyHandle := some 0 }] }, .create [] .get [0]]

theorem oneMore_admitted : supplyMachine.Admitted (fresh fun i => some i.val) oneMore := by
  have hinj : ∀ i j : Fin maxConcurrentRequests, some i.val = some j.val → i = j :=
    fun i j hij => Fin.ext (Option.some.inj hij)
  refine admitted_creates maxConcurrentRequests _ (FirstRound.of_fresh fun i => some i.val)
    (Nat.le_of_eq (Nat.zero_add _)) ?_
  intro t ht hlen
  have hzero : (0 : Fin maxConcurrentRequests).val < t.assigned.length := by
    rw [hlen]
    exact Nat.lt_of_lt_of_le (0 : Fin maxConcurrentRequests).isLt (Nat.le_add_left _ _)
  have hends : t.client.Ends { easyHandle := some 0 } 0 :=
    ⟨rfl, ht.requestOf_eq hinj hzero rfl⟩
  refine ⟨trivial, fun u hu => ⟨pendingCount_lt 0 ?_, fun _ _ => trivial⟩⟩
  have hu' : u = ⟨t.client.finish { easyHandle := some 0 }, t.assigned⟩ :=
    (Except.ok.inj hu).symm
  rw [hu', finish_of_ends hends]
  simp [(completed_state (t.client.requests 0) _).2]

/-- The completed request is not `PENDING`, but its slot was not given back either. -/
theorem slots_not_supplied :
    supplyMachine.Admitted (fresh fun i => some i.val) oneMore ∧
      ¬ supplyMachine.Always Supplied (fresh fun i => some i.val) oneMore := by
  have hfirst := FirstRound.of_fresh fun i => some i.val
  refine ⟨oneMore_admitted, fun halways => ?_⟩
  have hle := (meets_slotLeft_iff _ _ hfirst).mp
    ((always_iff_slotLeft hfirst _ oneMore_admitted).mp halways)
  have hcreates : (oneMore.filter isCreate).length = maxConcurrentRequests + 1 := by
    unfold oneMore
    rw [List.filter_append, List.filter_replicate_of_pos rfl, List.length_append,
      List.length_replicate]
    rfl
  rw [hcreates] at hle
  omega

end Session

end Ytl.Https
