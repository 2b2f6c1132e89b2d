/-
How long a handle is good.

A handle is an index and a generation, but the pool has one generation for all
slots and counts it up only when the free list is empty.  The free list is a
stack, so the first request made after a slot was given back gets that slot, with
the same generation: the old handle of the slot becomes valid again.  The other
way to revive a released handle is a completion message, which sets the state of
the first request with that easy handle, whether the slot is in use or not.

Apart from these two, handles are good exactly until their slot is released.

So there are two ways to go wrong, and each is one operation: a `create` when some slot was
given back, and an `update` with a message about a request that was.  That they are the only
ones needs what is known while handles are good, namely that all of them have the same
generation.
-/
import Ytl.Base.Machine
import Ytl.Proofs.Https.Requests

namespace Ytl.Https

open Client

/-! ### The registry

The handles that were returned are listed, each with whether its slot was released since.
-/

/-- The calls that concern handles. -/
inductive HandleOp where
  | create (url : List UInt8) (method : HttpsMethod) (spare : List UInt8)
  | start (handle : RequestHandle) (accepts : Bool)
  | update (os : PerformAnswers)
  | freeSlot (index : Nat)

/-- The client, and the handles `create` returned, each with whether its slot has not
been released since. -/
structure Registry where
  client : Client
  issued : List (RequestHandle × Bool)

namespace Registry

/-- The slot of these handles has been released. -/
def retire (index : Nat) (issued : List (RequestHandle × Bool)) :
    List (RequestHandle × Bool) :=
  issued.map fun p => if p.1.index = index then (p.1, false) else p

/-- One call; a handle that is returned is entered, and one that is given back is marked. -/
def step (s : Registry) : HandleOp → Except Fault Registry
  | .create url method spare =>
      (fun r => ⟨r.2, s.issued ++ [(r.1, true)]⟩) <$> s.client.create url method spare
  | .start handle accepts => (fun c => ⟨c, s.issued⟩) <$> s.client.start handle accepts
  | .update os => (fun c => ⟨c, s.issued⟩) <$> s.client.update os
  | .freeSlot index => (fun c => ⟨c, retire index s.issued⟩) <$> s.client.freeSlot index

/-- No more slots are allocated than there are, and only allocated ones are released. -/
def admits (s : Registry) : HandleOp → Prop
  | .create _ _ _ => (s.issued.filter Prod.snd).length < maxConcurrentRequests
  | .freeSlot index => ∃ p ∈ s.issued, p.2 = true ∧ p.1.index = index
  | _ => True

/-- A client that was just constructed, which has returned no handle. -/
def fresh (easyInit : Fin maxConcurrentRequests → Option Nat) : Registry :=
  ⟨construct easyInit, []⟩

/-- Runs from a new client. -/
def machine : Machine Registry HandleOp Fault where
  start s := ∃ easyInit, s = fresh easyInit
  admits := admits
  step := step

/-- A handle is accepted exactly as long as its slot has not been released. -/
def Faithful (s : Registry) : Prop := ∀ p ∈ s.issued, s.client.validHandle p.1 = p.2

/-- No request is made once a slot has been released, and no completion message is
taken to be about a request that was released. -/
def NoRevival (s : Registry) : HandleOp → Prop
  | .create _ _ _ => ∀ p ∈ s.issued, p.2 = true
  | .update os => ∀ msg ∈ os.messages, ∀ p ∈ s.issued, p.2 = false →
      ∀ i : Fin maxConcurrentRequests, s.client.Ends msg i → p.1.index ≠ i.val
  | _ => True

instance (s : Registry) (op : HandleOp) : Decidable (machine.admits s op) :=
  match op with
  | .create _ _ _ =>
      inferInstanceAs (Decidable ((s.issued.filter Prod.snd).length < maxConcurrentRequests))
  | .freeSlot index =>
      inferInstanceAs (Decidable (∃ p ∈ s.issued, p.2 = true ∧ p.1.index = index))
  | .start _ _ => inferInstanceAs (Decidable True)
  | .update _ => inferInstanceAs (Decidable True)

instance (s : Registry) (op : HandleOp) : Decidable (s.NoRevival op) :=
  match op with
  | .create _ _ _ => inferInstanceAs (Decidable (∀ p ∈ s.issued, p.2 = true))
  | .update os =>
      inferInstanceAs (Decidable (∀ msg ∈ os.messages, ∀ p ∈ s.issued, p.2 = false →
        ∀ i : Fin maxConcurrentRequests, s.client.Ends msg i → p.1.index ≠ i.val))
  | .freeSlot _ => inferInstanceAs (Decidable True)
  | .start _ _ => inferInstanceAs (Decidable True)

/-! ### What is known while handles are faithful

The slots that were never used lie at the front of the free list and those that were released
at its end, and all handles have the generation of the pool.
-/

/-- The handles issued so far are those of the first slots, and the free list has the
untouched slots below the released ones. -/
structure Apart (s : Registry) : Prop where
  count : s.issued.length ≤ maxConcurrentRequests
  next : s.client.nextCurlHandle < maxConcurrentRequests
  bounds : s.client.InBounds
  handles : s.issued.map Prod.fst =
    (List.range s.issued.length).map fun i => ⟨i, s.client.generation⟩
  free : ∃ released, s.client.freeIndices = untouched s.issued.length ++ released ∧
    (∀ index ∈ released, ∃ p ∈ s.issued, p.1.index = index ∧ p.2 = false) ∧
    ((∃ p ∈ s.issued, p.2 = false) → released ≠ [])
  faithful : Faithful s

namespace Apart

variable {s t : Registry}

theorem of_fresh (easyInit : Fin maxConcurrentRequests → Option Nat) :
    Apart (fresh easyInit) := by
  refine ⟨Nat.zero_le _, Nat.pos_of_neZero _, fun _ => Nat.le_refl _, rfl, ⟨[], ?_, ?_, ?_⟩, ?_⟩
  · rw [List.append_nil]
    rfl
  · intro index hindex
    exact absurd hindex (List.not_mem_nil)
  · rintro ⟨p, hp, -⟩
    exact absurd hp (List.not_mem_nil)
  · intro p hp
    exact absurd hp (List.not_mem_nil)

theorem handle_of_mem (h : Apart s) {p : RequestHandle × Bool} (hp : p ∈ s.issued) :
    p.1.index < s.issued.length ∧ p.1.generation = s.client.generation := by
  have hmem : p.1 ∈ s.issued.map Prod.fst := List.mem_map_of_mem hp
  rw [h.handles] at hmem
  obtain ⟨i, hi, heq⟩ := List.mem_map.mp hmem
  rw [← heq]
  exact ⟨List.mem_range.mp hi, rfl⟩

theorem index_lt (h : Apart s) {p : RequestHandle × Bool} (hp : p ∈ s.issued) :
    p.1.index < maxConcurrentRequests :=
  Nat.lt_of_lt_of_le (h.handle_of_mem hp).1 h.count

/-- In a state of the same generation, a handle is good when its slot is in use. -/
theorem valid_iff (h : Apart s) {p : RequestHandle × Bool} (hp : p ∈ s.issued) {c : Client}
    (hgen : c.generation = s.client.generation) :
    c.validHandle p.1 = true ↔ (c.requests ⟨p.1.index, h.index_lt hp⟩).state ≠ .free := by
  have hv : c.validHandle ⟨Fin.val ⟨p.1.index, h.index_lt hp⟩, p.1.generation⟩ = true ↔ _ :=
    validHandle_val
  refine hv.trans ⟨fun hc => hc.2, fun hc => ⟨?_, hc⟩⟩
  rw [hgen]
  exact (h.handle_of_mem hp).2

theorem free_iff (h : Apart s) {p : RequestHandle × Bool} (hp : p ∈ s.issued) :
    (s.client.requests ⟨p.1.index, h.index_lt hp⟩).state = .free ↔ p.2 = false := by
  have hv := h.valid_iff hp (c := s.client) rfl
  rw [h.faithful p hp] at hv
  constructor
  · intro hfree
    exact Bool.eq_false_iff.mpr fun hc => hv.mp hc hfree
  · intro hdead
    by_contra hc
    rw [hv.mpr hc] at hdead
    cases hdead

/-- The part of the invariant that looks at slots only: it carries over to a state with
the same slots in which the handles are still faithful. -/
theorem of_same (h : Apart s) {c : Client} (hfree : c.freeIndices = s.client.freeIndices)
    (hgen : c.generation = s.client.generation)
    (hnext : c.nextCurlHandle = s.client.nextCurlHandle) (hb : c.InBounds)
    (hfaith : Faithful ⟨c, s.issued⟩) : Apart ⟨c, s.issued⟩ := by
  refine ⟨h.count, ?_, hb, ?_, ?_, hfaith⟩
  · show c.nextCurlHandle < _
    rw [hnext]
    exact h.next
  · show s.issued.map Prod.fst = (List.range s.issued.length).map fun i => ⟨i, c.generation⟩
    rw [hgen]
    exact h.handles
  · show ∃ released, c.freeIndices = _ ∧ _
    rw [hfree]
    exact h.free

/-! ### `create`

Before anything is released the next slot was never used.  After that it is one that was, and
the handle that is returned is the one that was returned for it before.
-/

/-- While nothing has been released, the free list has the untouched slots only. -/
theorem freeIndices_of_live (h : Apart s) (hlive : ∀ p ∈ s.issued, p.2 = true) :
    s.client.freeIndices = untouched s.issued.length := by
  obtain ⟨released, hfree, hdead, -⟩ := h.free
  have hnil : released = [] := by
    by_contra hne
    obtain ⟨index, hindex⟩ := List.exists_mem_of_ne_nil released hne
    obtain ⟨p, hp, -, hp'⟩ := hdead index hindex
    rw [hlive p hp] at hp'
    cases hp'
  rw [hfree, hnil, List.append_nil]

/-- A request in a slot no handle was issued for leaves the handles as good as they
were, and its own is good. -/
theorem created_faithful (h : Apart s) {c : Client} {hlt : s.issued.length < maxConcurrentRequests}
    (hnew : Created s.client ⟨s.issued.length, hlt⟩ c) :
    Faithful ⟨c, s.issued ++ [(⟨s.issued.length, s.client.generation⟩, true)]⟩ := by
  intro p hp
  rcases List.mem_append.mp hp with hold | hlast
  · have hne : (⟨p.1.index, h.index_lt hold⟩ : Fin maxConcurrentRequests) ≠
        ⟨s.issued.length, hlt⟩ := by
      intro hc
      exact Nat.ne_of_lt (h.handle_of_mem hold).1 (congrArg Fin.val hc)
    rw [← h.faithful p hold, Bool.eq_iff_iff, h.valid_iff hold (c := c) hnew.generation,
      h.valid_iff hold rfl, hnew.others _ hne]
  · rw [List.mem_singleton.mp hlast]
    have hstate : (c.requests ⟨s.issued.length, hlt⟩).state ≠ .free := by
      rw [hnew.request]
      simp
    exact validHandle_val (i := ⟨s.issued.length, hlt⟩).mpr ⟨hnew.generation.symm, hstate⟩

/-- While nothing has been released, a request gets a slot that was never used. -/
theorem create_fresh (h : Apart s) {url spare : List UInt8} {method : HttpsMethod}
    (ha : s.admits (.create url method spare)) (hlive : ∀ p ∈ s.issued, p.2 = true) :
    ∃ t, s.step (.create url method spare) = .ok t ∧ Apart t := by
  have hlt : s.issued.length < maxConcurrentRequests := by
    have hcount : (s.issued.filter Prod.snd).length < maxConcurrentRequests := ha
    rw [List.filter_eq_self.mpr hlive] at hcount
    exact hcount
  have hfree := h.freeIndices_of_live hlive
  rw [untouched_concat hlt] at hfree
  obtain ⟨c, hc, hnew⟩ := create_spec (i := ⟨s.issued.length, hlt⟩) hfree h.next url method spare
  refine ⟨⟨c, s.issued ++ [(⟨s.issued.length, s.client.generation⟩, true)]⟩, ?_, ?_⟩
  · exact map_returns.mpr ⟨_, hc, rfl⟩
  · refine ⟨?_, hnew.next, hnew.inBounds h.bounds, ?_, ⟨[], ?_, ?_, ?_⟩,
      h.created_faithful hnew⟩
    · simp
      omega
    · show (s.issued ++ [_]).map Prod.fst =
        (List.range (s.issued ++ [_]).length).map fun i => ⟨i, c.generation⟩
      rw [hnew.generation, List.map_append, h.handles, List.length_append, List.length_singleton,
        List.range_succ, List.map_append]
      rfl
    · have htaken := hnew.taken
      rw [hfree] at htaken
      rw [List.append_nil, List.length_append]
      exact (List.append_cancel_right htaken).symm
    · intro index hindex
      exact absurd hindex (List.not_mem_nil)
    · rintro ⟨p, hp, hp'⟩
      rcases List.mem_append.mp hp with hold | hlast
      · rw [hlive p hold] at hp'
        cases hp'
      · rw [List.mem_singleton.mp hlast] at hp'
        cases hp'

/-- Once a slot has been released, the next request gets a released slot, and the old
handle of that slot is accepted again. -/
theorem create_revives (h : Apart s) {url spare : List UInt8} {method : HttpsMethod}
    (hdead : ∃ p ∈ s.issued, p.2 = false) (hs : s.step (.create url method spare) = .ok t) :
    ¬ Faithful t := by
  obtain ⟨released, hfree, hrel, hne⟩ := h.free
  obtain ⟨rest, index, hsplit⟩ := (List.eq_nil_or_concat' released).resolve_left (hne hdead)
  obtain ⟨p, hp, hidx, hpdead⟩ := hrel index (by rw [hsplit]; simp)
  have hfree' : s.client.freeIndices =
      (untouched s.issued.length ++ rest) ++ [Fin.val ⟨p.1.index, h.index_lt hp⟩] := by
    rw [hfree, hsplit, ← List.append_assoc, ← hidx]
  obtain ⟨c, hc, hnew⟩ := create_spec hfree' h.next url method spare
  have ht : t = ⟨c, s.issued ++ [(⟨p.1.index, s.client.generation⟩, true)]⟩ := by
    have hstep : s.step (.create url method spare) =
        .ok ⟨c, s.issued ++ [(⟨p.1.index, s.client.generation⟩, true)]⟩ :=
      map_returns.mpr ⟨_, hc, rfl⟩
    exact Except.ok.inj (hs.symm.trans hstep)
  intro hfaith
  rw [ht] at hfaith
  have hold := hfaith p (List.mem_append_left _ hp)
  have hvalid : c.validHandle p.1 = true := by
    refine (h.valid_iff hp hnew.generation).mpr ?_
    rw [hnew.request]
    simp
  rw [show (⟨c, _⟩ : Registry).client = c from rfl, hvalid, hpdead] at hold
  cases hold

/-! ### The other operations

A start changes no slot.  A message changes the state of one request, and brings back a
request that was released.
-/

theorem start_step (h : Apart s) (handle : RequestHandle) (accepts : Bool) :
    ∃ t, s.step (.start handle accepts) = .ok t ∧ Apart t := by
  obtain ⟨c, hc, hrest⟩ := start_spec s.client handle accepts
  refine ⟨⟨c, s.issued⟩, ?_, ?_⟩
  · exact map_returns.mpr ⟨_, hc, rfl⟩
  · have hreq : c.requests = s.client.requests := by rw [hrest]
    refine h.of_same (by rw [hrest]) (by rw [hrest]) (by rw [hrest])
      (start_inBounds h.bounds hc) ?_
    intro p hp
    have hp' : p ∈ s.issued := hp
    rw [← h.faithful p hp', Bool.eq_iff_iff, h.valid_iff hp' (c := c) (by rw [hrest]),
      h.valid_iff hp' rfl, hreq]

/-- The handles are faithful after `update` exactly when no message was about a request
that had been released. -/
theorem update_step (h : Apart s) (os : PerformAnswers) :
    ∃ t, s.step (.update os) = .ok t ∧ (Faithful t ↔ s.NoRevival (.update os)) ∧
      (Faithful t → Apart t) := by
  obtain ⟨c, hc, hb, hfree, hgen, hnext, hstate⟩ := update_spec h.bounds os
  refine ⟨⟨c, s.issued⟩, ?_, ?_, fun hf => h.of_same hfree hgen hnext hb hf⟩
  · exact map_returns.mpr ⟨_, hc, rfl⟩
  · constructor
    · intro hfaith msg hmsg p hp hdead i hends hidx
      have hi : (⟨p.1.index, h.index_lt hp⟩ : Fin maxConcurrentRequests) = i := Fin.ext hidx
      have hvalid : c.validHandle p.1 = false := by
        rw [← hdead]
        exact hfaith p hp
      have hbusy : (c.requests ⟨p.1.index, h.index_lt hp⟩).state ≠ .free := by
        rw [Ne, hstate, hi]
        intro hfree
        exact hfree.2 msg hmsg hends
      rw [(h.valid_iff hp hgen).mpr hbusy] at hvalid
      cases hvalid
    · intro hno p hp
      have hp' : p ∈ s.issued := hp
      show c.validHandle p.1 = p.2
      rw [Bool.eq_iff_iff, h.valid_iff hp' hgen, Ne, hstate, h.free_iff hp']
      constructor
      · intro hc
        by_contra hdead
        rw [Bool.not_eq_true] at hdead
        exact hc ⟨hdead, fun msg hmsg hends => hno msg hmsg p hp' hdead _ hends rfl⟩
      · rintro hlive ⟨hdead, -⟩
        rw [hlive] at hdead
        cases hdead

/-! ### `free_slot`

The handle that is given back is not accepted any more, and the others are as good as they
were.
-/

theorem retire_length (index : Nat) (issued : List (RequestHandle × Bool)) :
    (retire index issued).length = issued.length := by
  simp [retire]

theorem retire_fst (index : Nat) (issued : List (RequestHandle × Bool)) :
    (retire index issued).map Prod.fst = issued.map Prod.fst := by
  unfold retire
  rw [List.map_map]
  refine List.map_congr_left fun p _ => ?_
  show (if p.1.index = index then (p.1, false) else p).1 = p.1
  split <;> rfl

theorem mem_retire {index : Nat} {issued : List (RequestHandle × Bool)}
    {q : RequestHandle × Bool} : q ∈ retire index issued ↔
      ∃ p ∈ issued, q.1 = p.1 ∧
        (p.1.index = index ∧ q.2 = false ∨ p.1.index ≠ index ∧ q.2 = p.2) := by
  unfold retire
  rw [List.mem_map]
  refine exists_congr fun p => and_congr_right fun _ => ?_
  by_cases hidx : p.1.index = index
  · rw [if_pos hidx, Prod.ext_iff, eq_comm, @eq_comm _ false]
    simp [hidx]
  · rw [if_neg hidx, Prod.ext_iff, eq_comm, @eq_comm _ p.2]
    simp [hidx]

/-- A slot whose handle is not good any more keeps one that is not. -/
theorem dead_of_retire {index j : Nat} {issued : List (RequestHandle × Bool)}
    (h : ∃ p ∈ issued, p.1.index = j ∧ p.2 = false) :
    ∃ p ∈ retire index issued, p.1.index = j ∧ p.2 = false := by
  obtain ⟨p, hp, hidx, hdead⟩ := h
  refine ⟨p, mem_retire.mpr ⟨p, hp, rfl, ?_⟩, hidx, hdead⟩
  by_cases hc : p.1.index = index
  · exact Or.inl ⟨hc, hdead⟩
  · exact Or.inr ⟨hc, rfl⟩

/-- Releasing a slot ends its handles and no others. -/
theorem released_faithful (h : Apart s) {c : Client} {i : Fin maxConcurrentRequests}
    (hgen : c.generation = s.client.generation) (hself : (c.requests i).state = .free)
    (hothers : ∀ j, j ≠ i → c.requests j = s.client.requests j) :
    Faithful ⟨c, retire i.val s.issued⟩ := by
  intro q hq
  obtain ⟨p, hp, hfst, hor⟩ := mem_retire.mp hq
  show c.validHandle q.1 = q.2
  rw [hfst]
  rcases hor with ⟨hidx, hdead⟩ | ⟨hidx, hsame⟩
  · rw [hdead]
    refine Bool.eq_false_iff.mpr fun hvalid => (h.valid_iff hp hgen).mp hvalid ?_
    rw [show (⟨p.1.index, h.index_lt hp⟩ : Fin maxConcurrentRequests) = i from Fin.ext hidx]
    exact hself
  · have hne : (⟨p.1.index, h.index_lt hp⟩ : Fin maxConcurrentRequests) ≠ i :=
      fun hc => hidx (congrArg Fin.val hc)
    rw [hsame, ← h.faithful p hp, Bool.eq_iff_iff, h.valid_iff hp (c := c) hgen,
      h.valid_iff hp rfl, hothers _ hne]

theorem freeSlot_step (h : Apart s) {index : Nat} (ha : s.admits (.freeSlot index)) :
    ∃ t, s.step (.freeSlot index) = .ok t ∧ Apart t := by
  obtain ⟨p, hp, -, rfl⟩ := ha
  obtain ⟨c, hc, hfreed⟩ := freeSlot_spec s.client ⟨p.1.index, h.index_lt hp⟩
  have hgen : c.generation = s.client.generation := by rw [hfreed.rest]
  refine ⟨⟨c, retire p.1.index s.issued⟩, map_returns.mpr ⟨_, hc, rfl⟩, ?_⟩
  refine ⟨?_, ?_, hfreed.inBounds h.bounds, ?_, ?_,
    h.released_faithful hgen (by rw [hfreed.request]) hfreed.others⟩
  · rw [retire_length]
    exact h.count
  · show c.nextCurlHandle < _
    rw [hfreed.rest]
    exact h.next
  · show (retire p.1.index s.issued).map Prod.fst = _
    rw [retire_fst, retire_length, h.handles]
    show _ = (List.range s.issued.length).map fun i => (⟨i, c.generation⟩ : RequestHandle)
    rw [hgen]
  · obtain ⟨released, hold, hdead, -⟩ := h.free
    refine ⟨released ++ [p.1.index], ?_, ?_, fun _ => by simp⟩
    · show c.freeIndices = _
      rw [hfreed.freeIndices, hold, retire_length, List.append_assoc]
    · intro index hindex
      rcases List.mem_append.mp hindex with hin | hlast
      · exact dead_of_retire (hdead index hin)
      · rw [List.mem_singleton.mp hlast]
        exact ⟨(p.1, false), mem_retire.mpr ⟨p, hp, rfl, Or.inl ⟨rfl, rfl⟩⟩, rfl, rfl⟩

/-! ### One step

Both directions, for each operation.
-/

theorem step_of_noRevival (h : Apart s) (op : HandleOp) (ha : s.admits op)
    (hno : s.NoRevival op) : ∃ t, s.step op = .ok t ∧ Apart t := by
  cases op with
  | create url method spare => exact h.create_fresh ha hno
  | start handle accepts => exact h.start_step handle accepts
  | update os =>
      obtain ⟨t, ht, hiff, h'⟩ := h.update_step os
      exact ⟨t, ht, h' (hiff.mpr hno)⟩
  | freeSlot index => exact h.freeSlot_step ha

theorem noRevival_of_faithful (h : Apart s) (op : HandleOp) (hs : s.step op = .ok t)
    (hfaith : Faithful t) : s.NoRevival op := by
  cases op with
  | create url method spare =>
      intro p hp
      by_contra hdead
      rw [Bool.not_eq_true] at hdead
      exact h.create_revives ⟨p, hp, hdead⟩ hs hfaith
  | start handle accepts => exact trivial
  | update os =>
      obtain ⟨u, hu, hiff, -⟩ := h.update_step os
      rw [Except.ok.inj (hs.symm.trans hu)] at hfaith
      exact hiff.mp hfaith
  | freeSlot index => exact trivial

end Apart

/--
**A handle is good until its slot is released, exactly when nothing revives it.**
Along a run in which no request is made once a slot has been released, and no
completion message is about a released request, every handle is accepted exactly as
long as its slot has not been released; and a run in which handles are faithful after
every step has met the condition at every step.
-/
theorem handles_faithful_iff (easyInit : Fin maxConcurrentRequests → Option Nat)
    (ops : List HandleOp) (hadm : machine.Admitted (fresh easyInit) ops) :
    machine.Always (fun _ _ s => Faithful s) (fresh easyInit) ops ↔
      machine.Meets NoRevival (fresh easyInit) ops := by
  refine Machine.always_iff_meets (m := machine) (I := Apart) ?_ ?_ ops _
    (Apart.of_fresh easyInit) hadm
  · intro s op h ha hno
    obtain ⟨t, ht, h'⟩ := h.step_of_noRevival op ha hno
    exact ⟨t, ht, h'.faithful, h'⟩
  · intro s op t h _ hs hfaith
    exact h.noRevival_of_faithful op hs hfaith

/-- Two requests, one of which is completed and then released. -/
theorem handles_faithful_released :
    machine.Admitted (fresh fun i => some i.val)
        [.create [] .get [0], .create [] .get [0], .start ⟨0, 0⟩ true,
          .update { messages := [{ easyHandle := some 0 }] }, .freeSlot 0] ∧
      machine.Always (fun _ _ s => Faithful s) (fresh fun i => some i.val)
        [.create [] .get [0], .create [] .get [0], .start ⟨0, 0⟩ true,
          .update { messages := [{ easyHandle := some 0 }] }, .freeSlot 0] := by
  obtain ⟨hadm, hmeets⟩ := Machine.meets_of_check (m := machine) (C := NoRevival)
    [.create [] .get [0], .create [] .get [0], .start ⟨0, 0⟩ true,
      .update { messages := [{ easyHandle := some 0 }] }, .freeSlot 0]
    (fresh fun i => some i.val) (by decide +kernel)
  exact ⟨hadm, (handles_faithful_iff _ _ hadm).mpr hmeets⟩

/-- A request is made, released, and another one made: it gets the same slot and the
same handle, so the first handle is accepted although its slot was released. -/
theorem handles_not_faithful :
    machine.Admitted (fresh fun i => some i.val)
        [.create [] .get [0], .freeSlot 0, .create [] .get [0]] ∧
      ¬ machine.Always (fun _ _ s => Faithful s) (fresh fun i => some i.val)
        [.create [] .get [0], .freeSlot 0, .create [] .get [0]] := by
  refine ⟨(Machine.meets_of_check (m := machine) (C := fun _ _ => True) _ _
    (by decide +kernel)).1, ?_⟩
  intro halways
  obtain ⟨s, hs, -, hfaith⟩ := Machine.Always.last (m := machine)
    [.create [] .get [0], .freeSlot 0] halways
  have hstale := of_checkResult (P := fun s : Registry =>
    decide (((⟨0, 0⟩ : RequestHandle), false) ∈ s.issued) && s.client.validHandle ⟨0, 0⟩)
    (by decide +kernel) hs
  obtain ⟨hmem, hvalid⟩ := Bool.and_eq_true_iff.mp hstale
  have hno := hfaith _ (of_decide_eq_true hmem)
  rw [hvalid] at hno
  cases hno

end Registry

end Ytl.Https
