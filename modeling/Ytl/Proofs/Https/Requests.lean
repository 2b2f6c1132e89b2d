/-
What each operation of the request pool does.

One description per operation, which later proofs use instead of the code:
`Created` for `create`, and equations for the others.  While no slot has been
given back, the free list is the untouched part of the list the constructor made,
so requests get the slots 0, 1, 2 and so on.

The descriptions are in two forms.  For an operation that may fail, a structure says what is
the case when it has returned; for one that always returns, an equation or an existence
statement says so at the same time.  Apart from this module only a few proofs look at the code
of the pool.
-/
import Ytl.Network.Https

namespace Ytl.Https.Client

variable {s t : Client} {i j : Fin maxConcurrentRequests}

/-! ### Fields

Two requests in different slots do not touch each other, and what is set on an easy handle is
not part of the slots.
-/

theorem ref_eq_ok {index : Nat} : ref index = .ok i ↔ index = i.val := by
  unfold ref
  by_cases h : index < maxConcurrentRequests
  · rw [dif_pos h]
    constructor
    · intro heq
      exact congrArg Fin.val (Except.ok.inj heq)
    · intro heq
      exact congrArg Except.ok (Fin.ext heq)
  · rw [dif_neg h]
    constructor
    · intro heq
      cases heq
    · intro heq
      exact absurd (heq ▸ i.isLt) h

@[simp] theorem ref_val (i : Fin maxConcurrentRequests) : ref i.val = .ok i := ref_eq_ok.mpr rfl

@[simp] theorem setRequest_self (s : Client) (i : Fin maxConcurrentRequests) (r : RequestData) :
    (s.setRequest i r).requests i = r := Function.update_self ..

@[simp] theorem setRequest_of_ne (s : Client) (r : RequestData) (h : j ≠ i) :
    (s.setRequest i r).requests j = s.requests j := Function.update_of_ne h _ _

theorem setopt_pool (s : Client) (curl : Option Nat) (f : Easy → Easy) :
    s.setopt curl f = { s with easy := (s.setopt curl f).easy } := by
  unfold setopt
  split <;> rfl

theorem setopt_easy {curl : Option Nat} {x : Nat} (h : curl = some x) (f : Easy → Easy) :
    (s.setopt curl f).easy x = f (s.easy x) := by
  rw [h]
  exact Function.update_self ..

theorem validHandle_eq_true {handle : RequestHandle} :
    s.validHandle handle = true ↔ ∃ i : Fin maxConcurrentRequests, handle.index = i.val ∧
      handle.generation = s.generation ∧ (s.requests i).state ≠ .free := by
  unfold validHandle
  by_cases h : handle.index < maxConcurrentRequests
  · rw [dif_pos h]
    simp only [Bool.and_eq_true, decide_eq_true_eq, bne_iff_ne]
    constructor
    · rintro ⟨hgen, hstate⟩
      exact ⟨⟨handle.index, h⟩, rfl, hgen, hstate⟩
    · rintro ⟨i, hi, hgen, hstate⟩
      have heq : (⟨handle.index, h⟩ : Fin maxConcurrentRequests) = i := Fin.ext hi
      rw [heq]
      exact ⟨hgen, hstate⟩
  · rw [dif_neg h]
    constructor
    · intro hc
      cases hc
    · rintro ⟨i, hi, -⟩
      exact absurd (hi ▸ i.isLt) h

/-- A handle of a slot is valid when it has the pool's generation and the slot is not
`FREE`. -/
theorem validHandle_val {generation : Nat} :
    s.validHandle ⟨i.val, generation⟩ = true ↔
      generation = s.generation ∧ (s.requests i).state ≠ .free := by
  rw [validHandle_eq_true]
  constructor
  · rintro ⟨j, hj, hrest⟩
    rw [Fin.ext hj]
    exact hrest
  · intro h
    exact ⟨i, rfl, h⟩

/-! ### Creating

`Created` is for the slot alone, `Assigned` adds the easy handle, and `Made` the URL; each is
what some later proof needs and no more.
-/

/-- Slot `i` holds a new request, and all else is as before. -/
structure Created (s : Client) (i : Fin maxConcurrentRequests) (t : Client) : Prop where
  taken : s.freeIndices = t.freeIndices ++ [i.val]
  generation : t.generation = s.generation
  request : t.requests i = { state := .pending, urlOffset := (t.requests i).urlOffset,
                             urlLength := (t.requests i).urlLength,
                             curl := (t.requests i).curl }
  others : ∀ j, j ≠ i → t.requests j = s.requests j
  responses : t.responses = s.responses
  added : t.added = s.added
  next : t.nextCurlHandle < maxConcurrentRequests

theorem allocSlot_concat {rest : List Nat} {index : Nat}
    (h : s.freeIndices = rest ++ [index]) :
    s.allocSlot = .ok (index, { s with freeIndices := rest }) := by
  have hne : s.freeIndices ≠ [] := by
    rw [h]
    simp
  unfold allocSlot
  rw [if_neg hne]
  simp [h]

/-- The new request has the easy handle whose turn it was, which is `k`. -/
structure Assigned (s : Client) (k i : Fin maxConcurrentRequests) (t : Client) : Prop
    extends Created s i t where
  curl : (t.requests i).curl = s.curlHandles k
  handles : t.curlHandles = s.curlHandles
  turn : t.nextCurlHandle = (k.val + 1) % maxConcurrentRequests

theorem create_assigned {k : Fin maxConcurrentRequests} {rest : List Nat}
    (h : s.freeIndices = rest ++ [i.val]) (hnext : s.nextCurlHandle = k.val) (url : List UInt8)
    (method : HttpsMethod) (spare : List UInt8) :
    ∃ t, s.create url method spare = .ok (⟨i.val, s.generation⟩, t) ∧ Assigned s k i t := by
  have hturn : (if k.val + 1 ≥ maxConcurrentRequests then 0 else k.val + 1) =
      (k.val + 1) % maxConcurrentRequests := by
    have hk := k.isLt
    by_cases hlast : k.val + 1 ≥ maxConcurrentRequests
    · rw [if_pos hlast, show k.val + 1 = maxConcurrentRequests by omega, Nat.mod_self]
    · rw [if_neg hlast, Nat.mod_eq_of_lt (by omega)]
  unfold create
  rw [allocSlot_concat h]
  simp only [bind_of_ok, ref_val, hnext, pure_is_ok]
  refine ⟨_, rfl, ?_⟩
  unfold initCurlHandle
  rw [setopt_pool]
  refine ⟨⟨h, rfl, ?_, ?_, rfl, rfl, ?_⟩, ?_, rfl, hturn⟩
  · simp [setRequest]
  · intro j hj
    exact setRequest_of_ne _ _ hj
  · show (if k.val + 1 ≥ maxConcurrentRequests then 0 else k.val + 1) < _
    rw [hturn]
    exact Nat.mod_lt _ (Nat.pos_of_neZero _)
  · simp [setRequest]

theorem create_spec {rest : List Nat} (h : s.freeIndices = rest ++ [i.val])
    (hnext : s.nextCurlHandle < maxConcurrentRequests) (url : List UInt8)
    (method : HttpsMethod) (spare : List UInt8) :
    ∃ t, s.create url method spare = .ok (⟨i.val, s.generation⟩, t) ∧ Created s i t := by
  obtain ⟨t, ht, hnew⟩ :=
    create_assigned (k := ⟨s.nextCurlHandle, hnext⟩) h rfl url method spare
  exact ⟨t, ht, hnew.toCreated⟩

/-- The request in slot `i` is new and has the easy handle number `k`, on which its URL was set as
it lies in the vector. -/
structure Made (s : Client) (url spare : List UInt8) (i k : Fin maxConcurrentRequests)
    (t : Client) : Prop where
  request : t.requests i =
    { state := .pending, urlOffset := s.urls.length % 2 ^ 32, urlLength := url.length % 2 ^ 32,
      curl := s.curlHandles k }
  others : ∀ j, j ≠ i → t.requests j = s.requests j
  urls : t.urls = s.urls ++ url
  easy : ∀ x, (t.requests i).curl = some x →
    (t.easy x).url = cString (t.urls.drop (t.requests i).urlOffset ++ spare)
  handles : t.curlHandles = s.curlHandles
  added : t.added = s.added
  activeCount : t.activeCount = s.activeCount

theorem allocSlot_rest {index : Nat} (h : s.allocSlot = .ok (index, t)) :
    t = { s with generation := t.generation, freeIndices := t.freeIndices } := by
  unfold allocSlot at h
  split at h
  · dsimp only at h
    split at h
    · cases h
    · cases h
      rfl
  · dsimp only at h
    split at h
    · cases h
    · cases h
      rfl

/-- **What `create` has done** if it returns, whatever slot it took. -/
theorem create_made {url spare : List UInt8} {method : HttpsMethod} {handle : RequestHandle}
    (h : s.create url method spare = .ok (handle, t)) :
    ∃ i k, handle.index = i.val ∧ Made s url spare i k t := by
  unfold create at h
  obtain ⟨⟨index, u⟩, hu, h⟩ := bind_returns.mp h
  obtain ⟨i, hi, h⟩ := bind_returns.mp h
  obtain ⟨k, hk, h⟩ := bind_returns.mp h
  have hrest := allocSlot_rest hu
  rw [ref_eq_ok] at hi
  dsimp only at h
  cases h
  refine ⟨i, k, hi, ?_⟩
  unfold initCurlHandle
  rw [setopt_pool]
  refine ⟨?_, fun j hj => ?_, ?_, fun x hx => ?_, ?_, ?_, ?_⟩
  · rw [hrest]
    exact setRequest_self _ i _
  · rw [hrest]
    exact setRequest_of_ne _ _ hj
  · rw [hrest]
    rfl
  · dsimp only at hx ⊢
    rw [setRequest_self] at hx
    rw [setopt_easy hx]
  · rw [hrest]
    rfl
  · rw [hrest]
    rfl
  · rw [hrest]
    rfl

/-- What is left of the free list when `count` requests have been made. -/
def untouched (count : Nat) : List Nat :=
  (List.range (maxConcurrentRequests - count)).map fun i => maxConcurrentRequests - i - 1

/-- The slots are taken in the order of their indices. -/
theorem untouched_concat {count : Nat} (h : count < maxConcurrentRequests) :
    untouched count = untouched (count + 1) ++ [count] := by
  unfold untouched
  have hsplit : maxConcurrentRequests - count = maxConcurrentRequests - (count + 1) + 1 := by omega
  rw [hsplit, List.range_succ, List.map_append]
  congr 1
  rw [List.map_singleton]
  congr 1
  omega

/-! ### Delivering

The bytes of a request are said to begin at its offset and to be as many as it has counted,
wherever they really are.
-/

/-- Where the next bytes of a request go. -/
def writePos (s : Client) (i : Fin maxConcurrentRequests) : Nat :=
  (s.requests i).dataOffset + (s.requests i).dataLength

/-- `chunk` has been inserted at the end of what request `i` has. -/
structure Written (s : Client) (i : Fin maxConcurrentRequests) (chunk : List UInt8)
    (t : Client) : Prop where
  responses : t.responses =
    s.responses.take (s.writePos i) ++ chunk ++ s.responses.drop (s.writePos i)
  request : t.requests i =
    { s.requests i with dataLength := ((s.requests i).dataLength + chunk.length) % 2 ^ 32 }
  others : ∀ j, j ≠ i → t.requests j = s.requests j
  rest : t = { s with requests := t.requests, responses := t.responses }

theorem writeCb_spec (chunk : List UInt8) (h : s.writePos i ≤ s.responses.length) :
    ∃ t, s.writeCb i chunk = .ok t ∧ Written s i chunk t := by
  refine ⟨_, if_pos h, rfl, ?_, ?_, rfl⟩
  · exact setRequest_self _ i _
  · intro j hj
    exact setRequest_of_ne _ _ hj

theorem writeCb_written {chunk : List UInt8} (h : s.writeCb i chunk = .ok t) :
    Written s i chunk t := by
  by_cases hpos : s.writePos i ≤ s.responses.length
  · obtain ⟨v, hv, hw⟩ := writeCb_spec chunk hpos
    rw [Except.ok.inj (h.symm.trans hv)]
    exact hw
  · have herr : s.writeCb i chunk = .error .outOfBounds := if_neg hpos
    rw [herr] at h
    cases h

theorem getResponse_eq {handle : RequestHandle} (hvalid : s.validHandle handle = true)
    (hi : handle.index = i.val)
    (h : s.writePos i ≤ s.responses.length) :
    s.getResponse handle =
      .ok ((s.responses.drop (s.requests i).dataOffset).take (s.requests i).dataLength) := by
  unfold getResponse
  rw [if_pos hvalid, hi]
  unfold writePos at h
  simp only [ref_val, bind_of_ok, if_pos h, pure_is_ok]

/-! ### Operations that leave the slots alone

Starting and delivering change a request, but neither its state nor its handle.
-/

/-- The slots, their easy handles and the generation are the same in both states. -/
structure SameSlots (s t : Client) : Prop where
  freeIndices : t.freeIndices = s.freeIndices
  generation : t.generation = s.generation
  next : t.nextCurlHandle = s.nextCurlHandle
  state : ∀ i, (t.requests i).state = (s.requests i).state
  curl : ∀ i, (t.requests i).curl = (s.requests i).curl

/-- Every request has its bytes inside the vector. -/
def InBounds (s : Client) : Prop := ∀ i, s.writePos i ≤ s.responses.length

theorem InBounds.of_same (hb : InBounds s) (hpos : ∀ i, t.writePos i = s.writePos i)
    (hresponses : t.responses = s.responses) : InBounds t := by
  intro i
  rw [hpos i, hresponses]
  exact hb i

/-- A new request has no bytes yet. -/
theorem Created.inBounds (hb : InBounds s) (h : Created s i t) : InBounds t := by
  intro j
  unfold writePos
  rw [h.responses]
  by_cases hj : j = i
  · subst hj
    rw [h.request]
    exact Nat.zero_le _
  · rw [h.others j hj]
    exact hb j

theorem SameSlots.refl (s : Client) : SameSlots s s := ⟨rfl, rfl, rfl, fun _ => rfl, fun _ => rfl⟩

theorem SameSlots.trans {u : Client} (h : SameSlots s t) (h' : SameSlots t u) : SameSlots s u :=
  ⟨h'.freeIndices.trans h.freeIndices, h'.generation.trans h.generation, h'.next.trans h.next,
    fun i => (h'.state i).trans (h.state i), fun i => (h'.curl i).trans (h.curl i)⟩

theorem start_spec (s : Client) (handle : RequestHandle) (accepts : Bool) :
    ∃ t, s.start handle accepts = .ok t ∧
      t = { s with added := t.added, activeCount := t.activeCount } := by
  unfold start
  by_cases hvalid : s.validHandle handle = true
  · obtain ⟨i, hi, -, -⟩ := validHandle_eq_true.mp hvalid
    rw [if_pos hvalid, hi]
    simp only [ref_val, bind_of_ok, pure_is_ok]
    refine ⟨_, rfl, ?_⟩
    unfold multiAdd
    split
    · rfl
    · split <;> rfl
  · rw [if_neg hvalid]
    exact ⟨s, rfl, rfl⟩

theorem start_inBounds (hb : InBounds s) {handle : RequestHandle} {accepts : Bool}
    (h : s.start handle accepts = .ok t) : InBounds t := by
  obtain ⟨u, hu, hrest⟩ := start_spec s handle accepts
  have htu : t = u := Except.ok.inj (h.symm.trans hu)
  subst htu
  refine hb.of_same (fun i => ?_) ?_
  · rw [hrest]
    rfl
  · rw [hrest]

theorem Written.sameSlots {chunk : List UInt8} (h : Written s i chunk t) : SameSlots s t := by
  have hfield : ∀ j, (t.requests j).state = (s.requests j).state ∧
      (t.requests j).curl = (s.requests j).curl := by
    intro j
    by_cases hj : j = i
    · subst hj
      rw [h.request]
      exact ⟨rfl, rfl⟩
    · rw [h.others j hj]
      exact ⟨rfl, rfl⟩
  refine ⟨?_, ?_, ?_, fun j => (hfield j).1, fun j => (hfield j).2⟩
  · rw [h.rest]
  · rw [h.rest]
  · rw [h.rest]

theorem Written.inBounds {chunk : List UInt8} (hb : InBounds s) (h : Written s i chunk t) :
    InBounds t := by
  have hlen : t.responses.length = s.responses.length + chunk.length := by
    rw [h.responses]
    have := hb i
    simp
    omega
  intro j
  by_cases hj : j = i
  · subst hj
    have hold := hb j
    unfold writePos at hold ⊢
    rw [h.request, hlen]
    have hwrap := Nat.mod_le ((s.requests j).dataLength + chunk.length) (2 ^ 32)
    show (s.requests j).dataOffset + ((s.requests j).dataLength + chunk.length) % 2 ^ 32 ≤ _
    omega
  · have hold := hb j
    unfold writePos at hold ⊢
    rw [h.others j hj, hlen]
    omega

theorem deliver_spec (hb : InBounds s) (write : Nat × List UInt8) :
    ∃ t, s.deliver write = .ok t ∧ SameSlots s t ∧ InBounds t := by
  unfold deliver
  split
  · exact ⟨s, rfl, SameSlots.refl s, hb⟩
  · rename_i req _
    obtain ⟨t, ht, hw⟩ := writeCb_spec write.2 (hb req)
    exact ⟨t, ht, hw.sameSlots, hw.inBounds hb⟩

theorem deliverAll_spec (writes : List (Nat × List UInt8)) :
    ∀ (s : Client), InBounds s →
      ∃ t, writes.foldlM deliver s = .ok t ∧ SameSlots s t ∧ InBounds t := by
  induction writes with
  | nil =>
      intro s hb
      exact ⟨s, rfl, SameSlots.refl s, hb⟩
  | cons write rest ih =>
      intro s hb
      obtain ⟨u, hu, hsame, hbu⟩ := deliver_spec hb write
      obtain ⟨t, ht, hsame', hbt⟩ := ih u hbu
      refine ⟨t, ?_, hsame.trans hsame', hbt⟩
      rw [List.foldlM_cons, hu]
      exact ht

/-! ### Completion messages

A message is about the first request with its easy handle, if there is one.
-/

/-- A message is taken to be about request `i`. -/
def Ends (s : Client) (msg : CurlMsg) (i : Fin maxConcurrentRequests) : Prop :=
  msg.done = true ∧ s.requestOf msg.easyHandle = some i

instance (s : Client) (msg : CurlMsg) (i : Fin maxConcurrentRequests) : Decidable (s.Ends msg i) :=
  inferInstanceAs (Decidable (_ ∧ _))

/-- A message is about a request that has its easy handle. -/
theorem Ends.curl {msg : CurlMsg} (h : s.Ends msg i) : (s.requests i).curl = msg.easyHandle := by
  simpa using List.find?_some h.2

/-- The messages have been dealt with: the requests they are about are not `FREE`, and
nothing else that concerns slots has changed. -/
structure Finished (s : Client) (msgs : List CurlMsg) (t : Client) : Prop where
  freeIndices : t.freeIndices = s.freeIndices
  generation : t.generation = s.generation
  next : t.nextCurlHandle = s.nextCurlHandle
  responses : t.responses = s.responses
  curl : ∀ i, (t.requests i).curl = (s.requests i).curl
  pos : ∀ i, t.writePos i = s.writePos i
  free : ∀ i, (t.requests i).state = .free ↔
    (s.requests i).state = .free ∧ ∀ msg ∈ msgs, ¬ s.Ends msg i

theorem requestOf_congr (h : ∀ i, (t.requests i).curl = (s.requests i).curl)
    (easyHandle : Option Nat) : t.requestOf easyHandle = s.requestOf easyHandle := by
  unfold requestOf
  simp only [h]

/-- A request after the message that its transfer has ended. -/
def completed (r : RequestData) (result : CurlCode) : RequestData :=
  { r with
    state := if result = .ok then .complete else .error
    error := if result = .ok then r.error else curlToError result }

theorem completed_state (r : RequestData) (result : CurlCode) :
    (completed r result).state ≠ .free ∧ (completed r result).state ≠ .pending := by
  unfold completed
  by_cases hok : result = .ok
  · simp [hok]
  · simp [hok]

theorem finish_of_ends {msg : CurlMsg} (h : s.Ends msg i) :
    s.finish msg = { s with
      requests := Function.update s.requests i (completed (s.requests i) msg.result)
      added := (s.multiRemove (s.requests i).curl).added
      activeCount := (s.activeCount + 2 ^ 32 - 1) % 2 ^ 32 } := by
  have hcompleted : completed (s.requests i) msg.result =
      { s.requests i with
        state := if msg.result = .ok then .complete else .error
        error := if (if msg.result = .ok then HttpsState.complete else .error) = .error then
          curlToError msg.result else (s.requests i).error } := by
    unfold completed
    by_cases hok : msg.result = .ok
    · simp [hok]
    · simp [hok]
  unfold finish
  rw [if_pos h.1, h.2, hcompleted]
  dsimp only
  unfold setRequest multiRemove
  split <;> rfl

theorem finish_of_not_ends {msg : CurlMsg} (h : ∀ i, ¬ s.Ends msg i) : s.finish msg = s := by
  unfold finish
  by_cases hdone : msg.done = true
  · rw [if_pos hdone]
    cases hreq : s.requestOf msg.easyHandle with
    | none => rfl
    | some i => exact absurd ⟨hdone, hreq⟩ (h i)
  · rw [if_neg hdone]

/-- A message is about a request, or is passed over. -/
theorem finish_cases (s : Client) (msg : CurlMsg) : (∃ i, s.Ends msg i) ∨ s.finish msg = s := by
  by_cases hany : ∃ i, s.Ends msg i
  · exact Or.inl hany
  · exact Or.inr (finish_of_not_ends fun i hi => hany ⟨i, hi⟩)

/-- A message is about one request at most. -/
theorem Ends.unique {msg : CurlMsg} (h : s.Ends msg i) (h' : s.Ends msg j) : i = j := by
  have heq := h'.2
  rw [h.2] at heq
  exact Option.some.inj heq

theorem finish_finished (s : Client) (msg : CurlMsg) : Finished s [msg] (s.finish msg) := by
  by_cases hany : ∃ i, s.Ends msg i
  · obtain ⟨k, hk⟩ := hany
    rw [finish_of_ends hk]
    refine ⟨rfl, rfl, rfl, rfl, fun i => ?_, fun i => ?_, fun i => ?_⟩
    · by_cases hi : i = k
      · subst hi
        simp [completed]
      · simp [hi]
    · by_cases hi : i = k
      · subst hi
        simp [completed, writePos]
      · simp [hi, writePos]
    · by_cases hi : i = k
      · subst hi
        simp [hk, (completed_state (s.requests i) msg.result).1]
      · have hno : ¬ s.Ends msg i := fun hc => hi (hc.unique hk)
        simp [hi, hno]
  · have hno : ∀ i, ¬ s.Ends msg i := fun i hi => hany ⟨i, hi⟩
    rw [finish_of_not_ends hno]
    refine ⟨rfl, rfl, rfl, rfl, fun _ => rfl, fun _ => rfl, fun i => ?_⟩
    simp [hno i]

theorem Finished.append {u : Client} {msgs msgs' : List CurlMsg} (h : Finished s msgs t)
    (h' : Finished t msgs' u) : Finished s (msgs ++ msgs') u := by
  refine ⟨h'.freeIndices.trans h.freeIndices, h'.generation.trans h.generation,
    h'.next.trans h.next, h'.responses.trans h.responses,
    fun i => (h'.curl i).trans (h.curl i), fun i => (h'.pos i).trans (h.pos i), fun i => ?_⟩
  have hends : ∀ msg, t.Ends msg i ↔ s.Ends msg i := by
    intro msg
    unfold Ends
    rw [requestOf_congr h.curl]
  rw [h'.free i, h.free i, List.forall_mem_append, and_assoc]
  simp only [hends]

theorem finishAll_finished (msgs : List CurlMsg) :
    ∀ (s : Client), Finished s msgs (msgs.foldl finish s) := by
  induction msgs with
  | nil =>
      intro s
      refine ⟨rfl, rfl, rfl, rfl, fun _ => rfl, fun _ => rfl, fun i => ?_⟩
      simp
  | cons msg rest ih =>
      intro s
      exact (finish_finished s msg).append (ih (s.finish msg))

/-- **`update` returns**, and touches slots only by completing requests. -/
theorem update_spec (hb : InBounds s) (os : PerformAnswers) :
    ∃ t, s.update os = .ok t ∧ InBounds t ∧ t.freeIndices = s.freeIndices ∧
      t.generation = s.generation ∧ t.nextCurlHandle = s.nextCurlHandle ∧
      ∀ i, (t.requests i).state = .free ↔
        (s.requests i).state = .free ∧ ∀ msg ∈ os.messages, ¬ s.Ends msg i := by
  obtain ⟨u, hu, hsame, hbu⟩ := deliverAll_spec os.writes s hb
  have hf := finishAll_finished os.messages u
  refine ⟨os.messages.foldl finish u, ?_, ?_, hf.freeIndices.trans hsame.freeIndices,
    hf.generation.trans hsame.generation, hf.next.trans hsame.next, fun i => ?_⟩
  · unfold update
    rw [hu]
    rfl
  · exact hbu.of_same hf.pos hf.responses
  · have hends : ∀ msg, u.Ends msg i ↔ s.Ends msg i := by
      intro msg
      unfold Ends
      rw [requestOf_congr hsame.curl]
    rw [hf.free i, hsame.state i]
    simp only [hends]

/-! ### Giving slots back

`free_slot` sets the state and puts the number on the list.  Everything else the request had
stays, its easy handle too.
-/

/-- Slot `i` is on the free list, and its request `FREE` with all else it had. -/
structure Freed (s : Client) (i : Fin maxConcurrentRequests) (t : Client) : Prop where
  freeIndices : t.freeIndices = s.freeIndices ++ [i.val]
  request : t.requests i = { s.requests i with state := .free }
  others : ∀ j, j ≠ i → t.requests j = s.requests j
  rest : t = { s with requests := t.requests, freeIndices := t.freeIndices }

theorem freeSlot_spec (s : Client) (i : Fin maxConcurrentRequests) :
    ∃ t, s.freeSlot i.val = .ok t ∧ Freed s i t := by
  unfold freeSlot
  simp only [ref_val, bind_of_ok, pure_is_ok]
  refine ⟨_, rfl, rfl, setRequest_self _ i _, fun j hj => setRequest_of_ne _ _ hj, rfl⟩

/-- Only the state of a request changes. -/
theorem Freed.requests_eq (h : Freed s i t) (j : Fin maxConcurrentRequests) :
    t.requests j = { s.requests j with state := (t.requests j).state } := by
  by_cases hj : j = i
  · subst hj
    rw [h.request]
  · rw [h.others j hj]

theorem Freed.inBounds (hb : InBounds s) (h : Freed s i t) : InBounds t := by
  refine hb.of_same (fun j => ?_) ?_
  · unfold writePos
    rw [h.requests_eq j]
  · rw [h.rest]

end Ytl.Https.Client
