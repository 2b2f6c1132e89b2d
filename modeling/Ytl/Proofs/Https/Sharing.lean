/-
Two requests with one easy handle.

Easy handles are given out in turn: the request made as number `n` gets the handle
`n % 512`, whatever has become of the request that had it before.  Slots are given out
from a stack, so a few of them may be used over and over while the turn goes round, and
a request that lives through 512 others finds its handle reset and given to another.

Besides that, a completion message that finds a released request brings it back with
the handle it had, which by then may be another's.

What is compared is the number of a request modulo 512.  That is the turn in which it was
made, and two requests have the same easy handle if and only if they were made in the same
turn: nothing else ever changes the handle of a request.
-/
import Ytl.Proofs.Https.FirstRound
import Ytl.Proofs.Https.Handles

namespace Ytl.Https

open Client

namespace Client

variable {c : Client}

/-! ### The slot that is taken

The free list is filled up from the requests that are `FREE` when it is empty.  To take a slot
is then to take the last number of the list as it is after that.
-/

/-- The free list, filled up if it is empty. -/
def refilled (c : Client) : Client :=
  if c.freeIndices = [] then
    { c with generation := (c.generation + 1) % 2 ^ 32, freeIndices := c.freeSlots }
  else c

/-- The slot the next request gets. -/
def slotToTake (c : Client) : Option Nat := c.refilled.freeIndices.getLast?

theorem refilled_requests (c : Client) : c.refilled.requests = c.requests := by
  unfold refilled
  split <;> rfl

theorem refilled_rest (c : Client) : c.refilled.nextCurlHandle = c.nextCurlHandle ∧
    c.refilled.curlHandles = c.curlHandles ∧ c.refilled.responses = c.responses := by
  unfold refilled
  split <;> exact ⟨rfl, rfl, rfl⟩

theorem refilled_inBounds (hb : c.InBounds) : c.refilled.InBounds := by
  refine hb.of_same (fun i => ?_) (refilled_rest c).2.2
  unfold writePos
  rw [refilled_requests]

theorem allocSlot_refilled (c : Client) : c.refilled.allocSlot = c.allocSlot := by
  unfold refilled
  by_cases hnil : c.freeIndices = []
  · rw [if_pos hnil]
    unfold allocSlot
    rw [if_pos hnil]
    by_cases hslots : c.freeSlots = []
    · dsimp only
      rw [if_pos hslots]
      simp [freeSlots] at hslots
      simp [freeSlots, hslots]
    · dsimp only
      rw [if_neg hslots]
  · rw [if_neg hnil]

theorem create_refilled (c : Client) (url : List UInt8) (method : HttpsMethod)
    (spare : List UInt8) : c.refilled.create url method spare = c.create url method spare := by
  unfold create
  rw [allocSlot_refilled]

/-- There is one if any request is `FREE`. -/
theorem slotToTake_of_free (hfree : ∃ i, (c.requests i).state = .free) :
    c.slotToTake ≠ none := by
  have hne : c.refilled.freeIndices ≠ [] := by
    unfold refilled
    by_cases hnil : c.freeIndices = []
    · rw [if_pos hnil]
      obtain ⟨i, hi⟩ := hfree
      refine List.ne_nil_of_mem (a := i.val) (List.mem_map.mpr ⟨i, ?_, rfl⟩)
      simp [hi]
    · rw [if_neg hnil]
      exact hnil
  unfold slotToTake
  rwa [Ne, List.getLast?_eq_none_iff]

/-- It is among those on the list. -/
theorem slotToTake_spec (hlist : ∀ index ∈ c.freeIndices, index < maxConcurrentRequests)
    (htake : c.slotToTake ≠ none) :
    ∃ (i : Fin maxConcurrentRequests) (rest : List Nat), c.refilled.freeIndices = rest ++ [i.val] ∧
      c.slotToTake = some i.val ∧ ∀ index ∈ rest, index < maxConcurrentRequests := by
  have hne : c.refilled.freeIndices ≠ [] := by
    intro hnil
    apply htake
    unfold slotToTake
    rw [hnil]
    rfl
  have hmem : ∀ index ∈ c.refilled.freeIndices, index < maxConcurrentRequests := by
    unfold refilled
    by_cases hnil : c.freeIndices = []
    · rw [if_pos hnil]
      intro index hindex
      obtain ⟨i, -, rfl⟩ := List.mem_map.mp hindex
      exact i.isLt
    · rw [if_neg hnil]
      exact hlist
  obtain ⟨rest, index, hsplit⟩ := (List.eq_nil_or_concat' c.refilled.freeIndices).resolve_left hne
  have hlt : index < maxConcurrentRequests := hmem index (by rw [hsplit]; simp)
  refine ⟨⟨index, hlt⟩, rest, hsplit, ?_, fun k hk => ?_⟩
  · unfold slotToTake
    rw [hsplit]
    simp
  · exact hmem k (by rw [hsplit]; exact List.mem_append_left _ hk)

end Client

/-! ### Runs

The number of each request is kept beside the client.
-/

/-- The client, the number of requests made so far, and the number of the request in
each slot. -/
structure Rotation where
  client : Client
  made : Nat
  born : Fin maxConcurrentRequests → Option Nat

namespace Rotation

/-- One call, with the number of the request that it makes. -/
def step (s : Rotation) : HandleOp → Except Fault Rotation
  | .create url method spare => do
      let (handle, c) ← s.client.create url method spare
      let i ← ref handle.index
      return ⟨c, s.made + 1, Function.update s.born i (some s.made)⟩
  | .start handle accepts => (fun c => ⟨c, s.made, s.born⟩) <$> s.client.start handle accepts
  | .update os => (fun c => ⟨c, s.made, s.born⟩) <$> s.client.update os
  | .freeSlot index => (fun c => ⟨c, s.made, s.born⟩) <$> s.client.freeSlot index

/-- A client that was just constructed. -/
def fresh (easyInit : Fin maxConcurrentRequests → Option Nat) : Rotation :=
  ⟨construct easyInit, 0, fun _ => none⟩

/-- A request is only made while there is a slot for it. -/
def machine : Machine Rotation HandleOp Fault where
  start s := ∃ easyInit, s = fresh easyInit
  admits s
    | .create _ _ _ => s.client.slotToTake ≠ none
    | .freeSlot index => index < maxConcurrentRequests
    | _ => True
  step := step

/-- The request is in use. -/
def Live (c : Client) (i : Fin maxConcurrentRequests) : Prop := (c.requests i).state ≠ .free

/-- Different requests that are in use have different easy handles. -/
def Unshared (c : Client) : Prop :=
  ∀ i j, i ≠ j → Live c i → Live c j → (c.requests i).curl ≠ (c.requests j).curl

/-- Whose turn it was when the request in the slot was made. -/
def turn (s : Rotation) (i : Fin maxConcurrentRequests) : Option Nat :=
  (s.born i).map (· % maxConcurrentRequests)

/-- At a `create`, no request in use outside the slot that is taken was made a multiple
of 512 requests before; at an `update`, no message is about a released request that was
made in the same turn as one in use. -/
def InTurn (s : Rotation) : HandleOp → Prop
  | .create _ _ _ => ∀ j, Live s.client j → s.client.slotToTake ≠ some j.val →
      s.turn j ≠ some (s.made % maxConcurrentRequests)
  | .update os => ∀ msg ∈ os.messages, ∀ i, s.client.Ends msg i → ¬ Live s.client i →
      ∀ j, Live s.client j → s.turn j ≠ s.turn i
  | _ => True

/-! ### What is known in every state

This holds of every run, shared handles or not.
-/

/-- A request has the easy handle whose turn it was. -/
structure Kept (easyInit : Fin maxConcurrentRequests → Option Nat) (s : Rotation) : Prop where
  next : s.client.nextCurlHandle = s.made % maxConcurrentRequests
  handles : s.client.curlHandles = easyInit
  curl : ∀ i, (s.client.requests i).curl = (s.born i).bind fun b => easyInit (Fin.ofNat _ b)
  bounds : s.client.InBounds
  list : ∀ index ∈ s.client.freeIndices, index < maxConcurrentRequests

variable {easyInit : Fin maxConcurrentRequests → Option Nat} {s t : Rotation}

theorem Kept.of_fresh (easyInit : Fin maxConcurrentRequests → Option Nat) :
    Kept easyInit (fresh easyInit) := by
  refine ⟨(Nat.zero_mod _).symm, rfl, fun i => rfl, fun i => Nat.le_refl _, ?_⟩
  intro index hindex
  obtain ⟨k, -, rfl⟩ := List.mem_map.mp hindex
  have hpos : 0 < maxConcurrentRequests := Nat.pos_of_neZero _
  omega

/-- Requests have the same easy handle exactly when they were made in the same turn. -/
theorem Kept.curl_eq_iff (h : Kept easyInit s) (hinj : Function.Injective easyInit)
    (hnull : ∀ k, easyInit k ≠ none) (i j : Fin maxConcurrentRequests) :
    (s.client.requests i).curl = (s.client.requests j).curl ↔ s.turn i = s.turn j := by
  rw [h.curl i, h.curl j]
  unfold turn
  cases s.born i with
  | none =>
      cases s.born j with
      | none => simp
      | some b => simpa using fun hc => hnull _ hc.symm
  | some a =>
      cases s.born j with
      | none => simpa using hnull _
      | some b =>
          simp only [Option.bind_some, Option.map_some, Option.some.injEq]
          constructor
          · intro heq
            exact congrArg Fin.val (hinj heq)
          · intro heq
            have hfin : Fin.ofNat maxConcurrentRequests a = Fin.ofNat _ b := Fin.ext heq
            rw [hfin]

/-! ### The operations

Only `create` gives out a handle; the others change states and lists.
-/

/-- The state after request number `made` was put into slot `i`. -/
def bear (s : Rotation) (i : Fin maxConcurrentRequests) (c : Client) : Rotation :=
  ⟨c, s.made + 1, Function.update s.born i (some s.made)⟩

theorem create_step (h : Kept easyInit s) (hslot : s.client.slotToTake ≠ none)
    (url : List UInt8) (method : HttpsMethod) (spare : List UInt8) :
    ∃ i c, s.client.slotToTake = some i.val ∧
      s.step (.create url method spare) = .ok (s.bear i c) ∧
      s.client.refilled.freeIndices = c.freeIndices ++ [i.val] ∧ Live c i ∧
      (∀ j, j ≠ i → c.requests j = s.client.requests j) ∧ Kept easyInit (s.bear i c) := by
  obtain ⟨i, rest, hlist, htake, hrest⟩ := slotToTake_spec h.list hslot
  obtain ⟨hnext, hhandles, -⟩ := refilled_rest s.client
  obtain ⟨c, hc, hnew⟩ := create_assigned (k := Fin.ofNat _ s.made) hlist (hnext.trans h.next)
    url method spare
  have hothers : ∀ j, j ≠ i → c.requests j = s.client.requests j := by
    intro j hj
    rw [hnew.others j hj, refilled_requests]
  have hself := hnew.request
  refine ⟨i, c, htake, ?_, hnew.taken, ?_, hothers, ?_, ?_, fun j => ?_,
    hnew.toCreated.inBounds (refilled_inBounds h.bounds), ?_⟩
  · rw [step, ← create_refilled, hc, bind_of_ok]
    simp only [ref_val, bind_of_ok]
    rfl
  · unfold Live
    rw [hself]
    exact nofun
  · show c.nextCurlHandle = (s.made + 1) % maxConcurrentRequests
    rw [hnew.turn]
    show (s.made % maxConcurrentRequests + 1) % maxConcurrentRequests = _
    rw [Nat.mod_add_mod]
  · exact hnew.handles.trans (hhandles.trans h.handles)
  · show (c.requests j).curl = (Function.update s.born i (some s.made) j).bind _
    by_cases hj : j = i
    · subst hj
      rw [Function.update_self, hnew.curl, hhandles, h.handles]
      rfl
    · rw [Function.update_of_ne hj, hothers j hj]
      exact h.curl j
  · have htaken := hnew.taken
    rw [hlist] at htaken
    show ∀ index ∈ c.freeIndices, _
    rw [← List.append_cancel_right htaken]
    exact hrest

/-- The other operations leave the turns alone. -/
theorem Kept.of_same (h : Kept easyInit s) {c : Client}
    (hnext : c.nextCurlHandle = s.client.nextCurlHandle)
    (hhandles : c.curlHandles = s.client.curlHandles)
    (hcurl : ∀ i, (c.requests i).curl = (s.client.requests i).curl) (hbounds : c.InBounds)
    (hlist : ∀ index ∈ c.freeIndices, index < maxConcurrentRequests) :
    Kept easyInit ⟨c, s.made, s.born⟩ :=
  ⟨hnext.trans h.next, hhandles.trans h.handles, fun i => (hcurl i).trans (h.curl i), hbounds,
    hlist⟩

theorem start_step (h : Kept easyInit s) (handle : RequestHandle) (accepts : Bool) :
    ∃ c, s.step (.start handle accepts) = .ok ⟨c, s.made, s.born⟩ ∧
      c.requests = s.client.requests ∧ Kept easyInit ⟨c, s.made, s.born⟩ := by
  obtain ⟨c, hc, hrest⟩ := start_spec s.client handle accepts
  refine ⟨c, map_returns.mpr ⟨c, hc, rfl⟩, by rw [hrest], h.of_same (by rw [hrest])
    (by rw [hrest]) (fun i => by rw [hrest]) (start_inBounds h.bounds hc) ?_⟩
  rw [hrest]
  exact h.list

theorem update_step (h : Kept easyInit s) (os : PerformAnswers) :
    ∃ c, s.step (.update os) = .ok ⟨c, s.made, s.born⟩ ∧
      (∀ i, (c.requests i).curl = (s.client.requests i).curl) ∧
      (∀ i, Live c i ↔ Live s.client i ∨ ∃ msg ∈ os.messages, s.client.Ends msg i) ∧
      Kept easyInit ⟨c, s.made, s.born⟩ := by
  obtain ⟨c, hc, hbounds, hlist, -, hnext, hfree⟩ := update_spec h.bounds os
  have hprog := update_progress hc
  refine ⟨c, map_returns.mpr ⟨c, hc, rfl⟩, hprog.curl, fun i => ?_,
    h.of_same hnext hprog.handles hprog.curl hbounds (by rw [hlist]; exact h.list)⟩
  unfold Live
  rw [Ne, hfree i]
  constructor
  · intro hc
    by_contra hno
    rw [not_or, not_not] at hno
    exact hc ⟨hno.1, fun msg hmsg hends => hno.2 ⟨msg, hmsg, hends⟩⟩
  · rintro (hlive | ⟨msg, hmsg, hends⟩) ⟨hdead, hnone⟩
    · exact hlive hdead
    · exact hnone msg hmsg hends

theorem freeSlot_step (h : Kept easyInit s) {index : Nat} (hlt : index < maxConcurrentRequests) :
    ∃ c, s.step (.freeSlot index) = .ok ⟨c, s.made, s.born⟩ ∧
      c.freeIndices = s.client.freeIndices ++ [index] ∧
      (∀ i, (c.requests i).curl = (s.client.requests i).curl) ∧
      (∀ i, Live c i ↔ Live s.client i ∧ i.val ≠ index) ∧
      Kept easyInit ⟨c, s.made, s.born⟩ := by
  obtain ⟨c, hc, hfreed⟩ := freeSlot_spec s.client ⟨index, hlt⟩
  have hcurl : ∀ i, (c.requests i).curl = (s.client.requests i).curl := by
    intro i
    rw [hfreed.requests_eq i]
  refine ⟨c, map_returns.mpr ⟨c, hc, rfl⟩, hfreed.freeIndices, hcurl, fun i => ?_,
    h.of_same (by rw [hfreed.rest]) (by rw [hfreed.rest]) hcurl (hfreed.inBounds h.bounds) ?_⟩
  · unfold Live
    by_cases hi : i = ⟨index, hlt⟩
    · subst hi
      rw [hfreed.request]
      simp
    · rw [hfreed.others i hi]
      have hne : i.val ≠ index := fun hc => hi (Fin.ext hc)
      simp [hne]
  · intro k hk
    rw [hfreed.freeIndices] at hk
    rcases List.mem_append.mp hk with hold | hnew
    · exact h.list k hold
    · rw [List.mem_singleton.mp hnew]
      exact hlt

/-! ### One step

A `create` takes the handle whose turn it is, so the request in use that had it before is the
one made 512 requests earlier, or a multiple of that.
-/

section OneStep

variable (hinj : Function.Injective easyInit) (hnull : ∀ k, easyInit k ≠ none)

include hinj hnull

/-- The handle that is given out is in use exactly when its turn has come round. -/
theorem unshared_create (hun : Unshared s.client) {url spare : List UInt8}
    {method : HttpsMethod} {i : Fin maxConcurrentRequests} {c : Client}
    (htake : s.client.slotToTake = some i.val) (hlive : Live c i)
    (hothers : ∀ j, j ≠ i → c.requests j = s.client.requests j)
    (hkept : Kept easyInit (s.bear i c)) :
    Unshared c ↔ s.InTurn (.create url method spare) := by
  have hself : (s.bear i c).turn i = some (s.made % maxConcurrentRequests) := by
    simp [turn, bear]
  have hother : ∀ j, j ≠ i → (s.bear i c).turn j = s.turn j := by
    intro j hj
    simp [turn, bear, hj]
  have hlive_iff : ∀ j, j ≠ i → (Live c j ↔ Live s.client j) := by
    intro j hj
    unfold Live
    rw [hothers j hj]
  -- the new request against another one
  have hnew : ∀ j, j ≠ i → ((c.requests i).curl = (c.requests j).curl ↔
      s.turn j = some (s.made % maxConcurrentRequests)) := by
    intro j hj
    rw [show (c.requests i).curl = (c.requests j).curl ↔ _ from hkept.curl_eq_iff hinj hnull i j,
      hself, hother j hj, eq_comm]
  constructor
  · intro hun' j hj htake' hturn
    have hji : j ≠ i := by
      rintro rfl
      exact htake' htake
    exact hun' i j hji.symm hlive ((hlive_iff j hji).mpr hj) ((hnew j hji).mpr hturn)
  · intro hin
    have hnot : ∀ j, j ≠ i → Live c j → (c.requests i).curl ≠ (c.requests j).curl := by
      intro j hj hlj heq
      refine hin j ((hlive_iff j hj).mp hlj) ?_ ((hnew j hj).mp heq)
      rw [htake]
      exact fun hc => hj (Fin.ext (Option.some.inj hc)).symm
    intro a b hab ha hb
    by_cases hai : a = i
    · subst hai
      exact hnot b hab.symm hb
    · by_cases hbi : b = i
      · subst hbi
        exact fun hc => hnot a hai ha hc.symm
      · rw [hothers a hai, hothers b hbi]
        exact hun a b hab ((hlive_iff a hai).mp ha) ((hlive_iff b hbi).mp hb)

/-- A request comes back with a handle that is in use exactly when one in use was made
in the same turn. -/
theorem unshared_update (h : Kept easyInit s) (hun : Unshared s.client) {os : PerformAnswers}
    {c : Client} (hcurl : ∀ i, (c.requests i).curl = (s.client.requests i).curl)
    (hlive : ∀ i, Live c i ↔ Live s.client i ∨ ∃ msg ∈ os.messages, s.client.Ends msg i) :
    Unshared c ↔ s.InTurn (.update os) := by
  constructor
  · intro hun' msg hmsg i hends hdead j hj hturn
    have hji : j ≠ i := by
      rintro rfl
      exact hdead hj
    refine hun' j i hji ((hlive j).mpr (Or.inl hj)) ((hlive i).mpr (Or.inr ⟨msg, hmsg, hends⟩)) ?_
    rw [hcurl, hcurl]
    exact (h.curl_eq_iff hinj hnull j i).mpr hturn
  · intro hin
    have hold : ∀ a b, Live s.client a → ¬ Live s.client b →
        (∃ msg ∈ os.messages, s.client.Ends msg b) →
        (s.client.requests a).curl ≠ (s.client.requests b).curl := by
      rintro a b ha hdead ⟨msg, hmsg, hends⟩ heq
      exact hin msg hmsg b hends hdead a ha ((h.curl_eq_iff hinj hnull a b).mp heq)
    intro a b hab ha hb
    rw [hcurl, hcurl]
    by_cases hla : Live s.client a
    · by_cases hlb : Live s.client b
      · exact hun a b hab hla hlb
      · exact hold a b hla hlb (((hlive b).mp hb).resolve_left hlb)
    · have hea := ((hlive a).mp ha).resolve_left hla
      by_cases hlb : Live s.client b
      · exact fun hc => hold b a hlb hla hea hc.symm
      · -- two released requests: a message finds the first one with its handle
        obtain ⟨msg, -, hends⟩ := hea
        obtain ⟨msg', -, hends'⟩ := ((hlive b).mp hb).resolve_left hlb
        intro heq
        apply hab
        have hsame : msg.easyHandle = msg'.easyHandle := by
          rw [← hends.curl, ← hends'.curl, heq]
        have hfind := hends.2
        rw [hsame, hends'.2] at hfind
        exact (Option.some.inj hfind).symm

theorem step_of_inTurn (h : Kept easyInit s) (hun : Unshared s.client) (op : HandleOp)
    (ha : machine.admits s op) :
    ∃ t, s.step op = .ok t ∧ Kept easyInit t ∧ (Unshared t.client ↔ s.InTurn op) := by
  cases op with
  | create url method spare =>
      obtain ⟨i, c, htake, hc, -, hlive, hothers, hkept⟩ := create_step h ha url method spare
      exact ⟨_, hc, hkept, unshared_create hinj hnull hun htake hlive hothers hkept⟩
  | start handle accepts =>
      obtain ⟨c, hc, hreq, hkept⟩ := start_step h handle accepts
      refine ⟨_, hc, hkept, fun _ => trivial, fun _ => ?_⟩
      show Unshared c
      unfold Unshared Live
      rw [hreq]
      exact hun
  | update os =>
      obtain ⟨c, hc, hcurl, hlive, hkept⟩ := update_step h os
      exact ⟨_, hc, hkept, unshared_update hinj hnull h hun hcurl hlive⟩
  | freeSlot index =>
      obtain ⟨c, hc, -, hcurl, hlive, hkept⟩ := freeSlot_step h ha
      refine ⟨_, hc, hkept, fun _ => trivial, fun _ a b hab hla hlb => ?_⟩
      show (c.requests a).curl ≠ (c.requests b).curl
      rw [hcurl, hcurl]
      exact hun a b hab ((hlive a).mp hla).1 ((hlive b).mp hlb).1

end OneStep

/--
**Easy handles are not shared exactly as long as every request leaves in time.**  With
512 different easy handles and a slot for every request that is made, different requests
in use have different easy handles after every step of a run if and only if at every
`create` no request in use, apart from one in the slot that is taken, was made a
multiple of 512 requests before, and no completion message brings back a released
request that was made in the same turn as one in use.
-/
theorem handles_unshared_iff (easyInit : Fin maxConcurrentRequests → Option Nat)
    (hinj : Function.Injective easyInit) (hnull : ∀ k, easyInit k ≠ none) (ops : List HandleOp)
    (hadm : machine.Admitted (fresh easyInit) ops) :
    machine.Always (fun _ _ t => Unshared t.client) (fresh easyInit) ops ↔
      machine.Meets InTurn (fresh easyInit) ops := by
  refine Machine.always_iff_meets (m := machine)
    (I := fun s => Kept easyInit s ∧ Unshared s.client) ?_ ?_ ops _
    ⟨Kept.of_fresh easyInit, fun i j _ hi => absurd rfl hi⟩ hadm
  · rintro s op ⟨h, hun⟩ ha hin
    obtain ⟨t, ht, hkept, hiff⟩ := step_of_inTurn hinj hnull h hun op ha
    exact ⟨t, ht, hiff.mpr hin, hkept, hiff.mpr hin⟩
  · rintro s op t ⟨h, hun⟩ ha hs hun'
    obtain ⟨u, hu, -, hiff⟩ := step_of_inTurn hinj hnull h hun op ha
    rw [Except.ok.inj ((show s.step op = .ok t from hs).symm.trans hu)] at hun'
    exact hiff.mp hun'

instance (c : Client) (i : Fin maxConcurrentRequests) : Decidable (Live c i) :=
  inferInstanceAs (Decidable (¬ _ = _))

instance (s : Rotation) (op : HandleOp) : Decidable (machine.admits s op) :=
  match op with
  | .create _ _ _ => inferInstanceAs (Decidable (s.client.slotToTake ≠ none))
  | .freeSlot index => inferInstanceAs (Decidable (index < maxConcurrentRequests))
  | .start _ _ => inferInstanceAs (Decidable True)
  | .update _ => inferInstanceAs (Decidable True)

instance (s : Rotation) (op : HandleOp) : Decidable (s.InTurn op) :=
  match op with
  | .create _ _ _ =>
      inferInstanceAs (Decidable (∀ j, Live s.client j → s.client.slotToTake ≠ some j.val →
        s.turn j ≠ some (s.made % maxConcurrentRequests)))
  | .update os =>
      inferInstanceAs (Decidable (∀ msg ∈ os.messages, ∀ i, s.client.Ends msg i →
        ¬ Live s.client i → ∀ j, Live s.client j → s.turn j ≠ s.turn i))
  | .freeSlot _ => inferInstanceAs (Decidable True)
  | .start _ _ => inferInstanceAs (Decidable True)

theorem some_val_injective :
    Function.Injective fun i : Fin maxConcurrentRequests => some i.val :=
  fun _ _ hij => Fin.ext (Option.some.inj hij)

/-- Two requests, one of which is completed and released before a third is made. -/
theorem handles_unshared_three :
    machine.Always (fun _ _ t => Unshared t.client) (fresh fun i => some i.val)
      [.create [] .get [0], .create [] .get [0], .start ⟨0, 0⟩ true,
        .update { messages := [{ easyHandle := some 0 }] }, .freeSlot 0,
        .create [] .get [0]] := by
  obtain ⟨hadm, hmeets⟩ := Machine.meets_of_check (m := machine) (C := InTurn)
    [.create [] .get [0], .create [] .get [0], .start ⟨0, 0⟩ true,
      .update { messages := [{ easyHandle := some 0 }] }, .freeSlot 0, .create [] .get [0]]
    (fresh fun i => some i.val) (by decide +kernel)
  exact (handles_unshared_iff _ some_val_injective (fun _ => nofun) _ hadm).mpr hmeets

/-! ### A request that outlives 511 others

The run is long and regular, so it is not carried out: each round makes a request in slot 1
and releases it, and by induction any number of rounds leave slot 0 alone.
-/

/-- The slot next to the first one. -/
def slotOne : Fin maxConcurrentRequests := ⟨1, by rw [maxConcurrentRequests_eq]; decide⟩

theorem zero_ne_slotOne : (0 : Fin maxConcurrentRequests) ≠ slotOne :=
  fun hc => Nat.zero_ne_one (congrArg Fin.val hc)

/-- The next request gets the last slot of a list that is not empty. -/
theorem create_concat (h : Kept easyInit s) {i : Fin maxConcurrentRequests} {rest : List Nat}
    (hlist : s.client.freeIndices = rest ++ [i.val]) :
    ∃ c, s.step (.create [] .get [0]) = .ok (s.bear i c) ∧ c.freeIndices = rest ∧ Live c i ∧
      (∀ j, j ≠ i → c.requests j = s.client.requests j) ∧ Kept easyInit (s.bear i c) := by
  have hsame : s.client.refilled = s.client := by
    unfold refilled
    rw [if_neg]
    rw [hlist]
    simp
  have hnext : s.client.slotToTake = some i.val := by
    unfold slotToTake
    rw [hsame, hlist, List.getLast?_concat]
  have hslot : s.client.slotToTake ≠ none := by
    rw [hnext]
    exact Option.some_ne_none _
  obtain ⟨k, c, htake, hc, htaken, hlive, hothers, hkept⟩ := create_step h hslot [] .get [0]
  have hk : k = i := Fin.ext (Option.some.inj (htake.symm.trans hnext))
  subst hk
  rw [hsame, hlist] at htaken
  exact ⟨c, hc, (List.append_cancel_right htaken).symm, hlive, hothers, hkept⟩

/-- Request number 0 is in slot 0, and every other slot is free. -/
structure Alone (s : Rotation) : Prop where
  kept : Kept (fun i => some i.val) s
  live : Live s.client 0
  first : s.born 0 = some 0
  list : s.client.freeIndices = untouched 2 ++ [slotOne.val]
  free : (s.client.requests slotOne).state = .free

/-- A request is made and released again. -/
def round : List HandleOp := [.create [] .get [0], .freeSlot slotOne.val]

theorem Alone.round_step (h : Alone s) :
    machine.Admitted s round ∧
      ∃ t, round.foldlM machine.step s = .ok t ∧ Alone t ∧ t.made = s.made + 1 := by
  obtain ⟨c, hc, hrest, -, hothers, hkept⟩ := create_concat h.kept h.list
  obtain ⟨c', hc', hlist, -, hlive, hkept'⟩ := freeSlot_step hkept slotOne.isLt
  refine ⟨⟨slotToTake_of_free ⟨slotOne, h.free⟩, fun t ht => ⟨slotOne.isLt, fun _ _ => trivial⟩⟩,
    ⟨c', s.made + 1, (s.bear slotOne c).born⟩, ?_, ?_, rfl⟩
  · have hfirst : machine.step s (.create [] .get [0]) = .ok (s.bear slotOne c) := hc
    have hsecond : machine.step (s.bear slotOne c) (.freeSlot slotOne.val) = .ok _ := hc'
    unfold round
    rw [List.foldlM_cons, hfirst, bind_of_ok, List.foldlM_cons, hsecond]
    rfl
  · refine ⟨hkept', (hlive 0).mpr ⟨?_, fun hc => zero_ne_slotOne (Fin.ext hc)⟩, ?_, ?_, ?_⟩
    · show Live c 0
      unfold Live
      rw [hothers 0 zero_ne_slotOne]
      exact h.live
    · show Function.update s.born slotOne (some s.made) 0 = some 0
      rw [Function.update_of_ne zero_ne_slotOne]
      exact h.first
    · show c'.freeIndices = _
      rw [hlist]
      show c.freeIndices ++ _ = _
      rw [hrest]
    · by_contra hc
      exact ((hlive slotOne).mp hc).2 rfl

/-- So many requests one after the other. -/
def rounds (n : Nat) : List HandleOp := (List.replicate n round).flatten

theorem Alone.rounds_step :
    ∀ (n : Nat) (s : Rotation), Alone s → machine.Admitted s (rounds n) ∧
      ∃ t, (rounds n).foldlM machine.step s = .ok t ∧ Alone t ∧ t.made = s.made + n := by
  intro n
  induction n with
  | zero =>
      intro s h
      exact ⟨trivial, s, rfl, h, rfl⟩
  | succ n ih =>
      intro s h
      obtain ⟨hadm, u, hu, halone, hmade⟩ := h.round_step
      obtain ⟨hadm', t, ht, halone', hmade'⟩ := ih u halone
      have hsplit : rounds (n + 1) = round ++ rounds n := by
        unfold rounds
        rw [List.replicate_succ, List.flatten_cons]
      rw [hsplit]
      refine ⟨hadm.append round fun v hv => ?_, t, ?_, halone', by omega⟩
      · rw [Except.ok.inj (hv.symm.trans hu)]
        exact hadm'
      · rw [List.foldlM_append, hu]
        exact ht

theorem fresh_step : ∃ t, machine.step (fresh fun i => some i.val) (.create [] .get [0]) = .ok t ∧
    Alone t ∧ t.made = 1 := by
  have hone : 1 < maxConcurrentRequests := slotOne.isLt
  obtain ⟨c, hc, hrest, hlive, hothers, hkept⟩ := create_concat
    (Kept.of_fresh fun i => some i.val) (i := 0) (untouched_concat (Nat.pos_of_neZero _))
  refine ⟨_, hc, ⟨hkept, hlive, ?_, ?_, ?_⟩, rfl⟩
  · show Function.update (fun _ => none) (0 : Fin maxConcurrentRequests) (some 0) 0 = some 0
    rw [Function.update_self]
  · show c.freeIndices = _
    rw [hrest, untouched_concat hone]
    rfl
  · show (c.requests slotOne).state = .free
    rw [hothers slotOne zero_ne_slotOne.symm]
    rfl

/-- A request that stays while 511 others come and go, and one more. -/
def outlived : List HandleOp :=
  ([.create [] .get [0]] ++ rounds (maxConcurrentRequests - 1)) ++ [.create [] .get [0]]

theorem outlived_run : ∃ t, machine.Admitted (fresh fun i => some i.val)
      ([.create [] .get [0]] ++ rounds (maxConcurrentRequests - 1)) ∧
    ([HandleOp.create [] .get [0]] ++ rounds (maxConcurrentRequests - 1)).foldlM machine.step
      (fresh fun i => some i.val) = .ok t ∧ Alone t ∧ t.made = maxConcurrentRequests := by
  obtain ⟨s, hs, halone, hmade⟩ := fresh_step
  obtain ⟨hadm, t, ht, halone', hmade'⟩ :=
    Alone.rounds_step (maxConcurrentRequests - 1) s halone
  have hpos : 0 < maxConcurrentRequests := Nat.pos_of_neZero _
  refine ⟨t, Machine.Admitted.append _ ⟨slotToTake_of_free ⟨0, rfl⟩, fun _ _ => trivial⟩
    fun u hu => ?_, ?_, halone', by omega⟩
  · rw [List.foldlM_cons, hs] at hu
    rw [← Except.ok.inj hu]
    exact hadm
  · rw [List.foldlM_append, List.foldlM_cons, hs]
    exact ht

/-- The last request gets the easy handle of the first one. -/
theorem handles_shared :
    machine.Admitted (fresh fun i => some i.val) outlived ∧
      ¬ machine.Always (fun _ _ t => Unshared t.client) (fresh fun i => some i.val) outlived := by
  obtain ⟨t, hadm, ht, halone, hmade⟩ := outlived_run
  refine ⟨hadm.append _ fun u hu => ⟨?_, fun _ _ => trivial⟩, fun halways => ?_⟩
  · rw [Except.ok.inj (hu.symm.trans ht)]
    exact slotToTake_of_free ⟨slotOne, halone.free⟩
  · obtain ⟨u, hu, v, hv, hun, -⟩ := Machine.Always.append _ halways
    have hut : u = t := Except.ok.inj (hu.symm.trans ht)
    subst hut
    obtain ⟨c, hc, -, hlive, hothers, hkept⟩ := create_concat halone.kept halone.list
    have hvc : v = u.bear slotOne c := Except.ok.inj (hv.symm.trans hc)
    subst hvc
    refine hun 0 slotOne zero_ne_slotOne ?_ hlive ?_
    · show Live c 0
      unfold Live
      rw [hothers 0 zero_ne_slotOne]
      exact halone.live
    · rw [hkept.curl_eq_iff some_val_injective (fun _ => nofun)]
      simp [turn, bear, zero_ne_slotOne, halone.first, hmade]

end Rotation

end Ytl.Https
