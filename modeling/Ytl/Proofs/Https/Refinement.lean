/-
The request pool as a table of requests.

For as many requests as there are slots, the pool does what the table does: each operation
changes in the pool what it changes in the table, and what the getters say of a handle is what
its row says.  Only the bytes that came in are not kept apart.  The vector that all requests
share has each of them once, in some order, and a response is read off its front, with the
right length.

The table is the abstract side: a list of rows, one for each request, with what a caller gets
to see of it.  It has no slots, no free list, no generation, no offsets and no shared vector.
The relation says that row `k` is in slot `k`, and what of the row the slot and libcurl hold.

Everything that happens to one transfer changes one row, and what that asks of the relation is
proved once, in `change`; the operations are instances of it.
-/
import Mathlib.Data.List.Perm.Basic
import Ytl.Base.Simulation
import Ytl.Network.RequestTable
import Ytl.Proofs.Https.Batches
import Ytl.Proofs.Https.Completion

namespace Ytl.Https

open Client

/-! ### Runs of the pool -/

namespace Client

/-- One of the public operations. -/
def apiStep (s : Client) : ApiOp → Except Fault Client
  | .create url method spare => Prod.snd <$> s.create url method spare
  | .setHeaders handle headers => s.setHeaders handle headers
  | .setPostData handle data => s.setPostData handle data
  | .start handle accepts => s.start handle accepts
  | .startBatch handles => s.startBatch handles
  | .update os => s.update os
  | .updateBatch handles os => s.updateBatch os handles

/-- Once the bytes have come in, libcurl reports the end of transfers that are added. -/
def ReportsAfter (s : Client) (os : PerformAnswers) : Prop :=
  ∀ c, os.writes.foldlM deliver s = .ok c → Session.Reports c os.messages

/-- No more requests are made than there are slots, and libcurl keeps its promise. -/
def apiMachine : Machine Client ApiOp Fault where
  start s := ∃ easyInit, s = construct easyInit
  admits s
    | .create _ _ _ => s.freeIndices ≠ []
    | .update os | .updateBatch _ os => s.ReportsAfter os
    | .setHeaders _ _ | .setPostData _ _ | .start _ _ | .startBatch _ => True
  step := apiStep

end Client

/-! ### The relation

A row is compared with the slot, with the options that were set on the easy handle, and with
whether the handle is added.  What is said about the pool as a whole is that there are as many
requests as rows, and that the bytes of all rows together are those of the vector.
-/

/-- What libcurl is told of the request in slot `i`. -/
def Request.settings (r : Request) (i : Fin maxConcurrentRequests) (url : List UInt8) : Easy where
  url := url
  writeData := some i
  timeoutMs := requestTimeoutMs
  followLocation := true
  headers := r.headers
  postFields := r.postFields

/-- Slot `i` holds what the row says. -/
structure Row (i : Fin maxConcurrentRequests) (c : Client) (r : Request) : Prop where
  request : c.requests i =
    { state := r.state, error := r.error, urlOffset := (c.requests i).urlOffset,
      urlLength := (c.requests i).urlLength, dataLength := r.received.length % 2 ^ 32,
      curl := some r.key }
  easy : c.easy r.key = r.settings i (c.easy r.key).url
  running : r.key ∈ c.added ↔ r.running = true

/-- Row `k` of the table is in slot `k`, with the easy handle number `k`. -/
structure Represents (easy : Fin maxConcurrentRequests → Nat) (c : Client) (t : RequestTable) :
    Prop where
  first : ∃ assigned, assigned.length = t.length ∧
    Session.FirstRound (fun i => some (easy i)) ⟨c, assigned⟩
  generation : c.generation = 0
  nodup : c.added.Nodup
  idle : ∀ i : Fin maxConcurrentRequests, t.length ≤ i.val → (c.requests i).state = .free
  key : ∀ (i : Fin maxConcurrentRequests) (r : Request), t[i.val]? = some r → r.key = easy i
  row : ∀ (i : Fin maxConcurrentRequests) (r : Request), t[i.val]? = some r → Row i c r
  /-- No byte is lost and none is there twice. -/
  bytes : c.responses.Perm (t.map Request.received).flatten
  /-- A handle that no request has been given delivers nothing. -/
  silent : ∀ x, (∀ r ∈ t, r.key ≠ x) → (c.easy x).writeData = none

/-- Only what concerns the transfer `key` has changed. -/
structure Keeps (key : Nat) (c c' : Client) : Prop where
  requests : ∀ i, (c.requests i).curl ≠ some key → c'.requests i = c.requests i
  easy : ∀ x, x ≠ key → c'.easy x = c.easy x
  added : ∀ x, x ≠ key → (x ∈ c'.added ↔ x ∈ c.added)
  nodup : c.added.Nodup → c'.added.Nodup
  generation : c'.generation = c.generation

variable {easy : Fin maxConcurrentRequests → Nat} {c c' : Client} {t : RequestTable}
  {i : Fin maxConcurrentRequests} {r : Request} {key : Nat}

theorem Row.of_keeps (h : Row i c r) (hkeeps : Keeps key c c') (hkey : r.key ≠ key) :
    Row i c' r := by
  have hrequest : c'.requests i = c.requests i := by
    refine hkeeps.requests i fun hcurl => hkey ?_
    rw [h.request] at hcurl
    exact Option.some.inj hcurl
  have heasy : c'.easy r.key = c.easy r.key := hkeeps.easy r.key hkey
  refine ⟨?_, ?_, ?_⟩
  · rw [hrequest]
    exact h.request
  · rw [heasy]
    exact h.easy
  · rw [hkeeps.added r.key hkey]
    exact h.running

/-! ### Tables

A row is found by its handle or by the name of its transfer, and both are places in the list.
-/

namespace RequestTable

theorem find_eq_some {handle : RequestHandle} :
    t.find handle = some r ↔ handle.generation = 0 ∧ t[handle.index]? = some r := by
  unfold find
  by_cases hgen : handle.generation = 0
  · simp [hgen]
  · simp [hgen]

@[simp] theorem length_change (t : RequestTable) (key : Nat) (f : Request → Request) :
    (t.change key f).length = t.length := by
  simp [change]

theorem getElem?_change {k : Nat} {f : Request → Request} (h : (t.change key f)[k]? = some r) :
    ∃ r', t[k]? = some r' ∧ r = if r'.key = key then f r' else r' := by
  unfold change at h
  rw [List.getElem?_map] at h
  obtain ⟨r', hr', rfl⟩ := Option.map_eq_some_iff.mp h
  exact ⟨r', hr', rfl⟩

theorem received_change (t : RequestTable) (key : Nat) {f : Request → Request}
    (h : ∀ r, (f r).received = r.received) :
    (t.change key f).map Request.received = t.map Request.received := by
  unfold change
  rw [List.map_map]
  refine List.map_congr_left fun r _ => ?_
  show (if r.key = key then f r else r).received = r.received
  split
  · exact h r
  · rfl

/-- Where one row only has the name, that row is replaced. -/
theorem change_eq_set {k : Nat} (hr : t[k]? = some r)
    (honly : ∀ j r', t[j]? = some r' → r'.key = r.key → j = k) (f : Request → Request) :
    t.change r.key f = t.set k (f r) := by
  refine List.ext_getElem? fun j => ?_
  unfold change
  rw [List.getElem?_map]
  by_cases hjk : j = k
  · subst hjk
    rw [List.getElem?_set_self (List.getElem?_eq_some_iff.mp hr).1, hr, Option.map_some,
      if_pos rfl]
  · rw [List.getElem?_set_ne (Ne.symm hjk)]
    cases hj : t[j]? with
    | none => rfl
    | some r' => rw [Option.map_some, if_neg fun hkey => hjk (honly j r' hj hkey)]

/-- A chunk for one row is there once more in all. -/
theorem received_set {k : Nat} (hr : t[k]? = some r) (chunk : List UInt8) :
    ((t.set k (r.receive chunk)).map Request.received).flatten.Perm
      (chunk ++ (t.map Request.received).flatten) := by
  obtain ⟨hlt, rfl⟩ := List.getElem?_eq_some_iff.mp hr
  have hset := ((List.set_perm_cons_eraseIdx hlt (t[k].receive chunk)).map
    Request.received).flatten
  have hold := ((List.getElem_cons_eraseIdx_perm hlt).map Request.received).flatten
  rw [List.map_cons, List.flatten_cons] at hset hold
  have hswap : (t[k].received ++ chunk).Perm (chunk ++ t[k].received) := List.perm_append_comm
  refine hset.trans ?_
  refine (hswap.append_right _).trans ?_
  rw [List.append_assoc]
  exact hold.append_left chunk

/-- A name that no row has. -/
theorem change_of_absent {f : Request → Request} (h : ∀ r ∈ t, r.key ≠ key) :
    t.change key f = t := by
  unfold change
  rw [List.map_congr_left fun r hr => if_neg (h r hr), List.map_id']

theorem changeAt_of_find {handle : RequestHandle} (h : t.find handle = some r)
    (f : Request → Request) : t.changeAt handle f = t.change r.key f := by
  unfold changeAt
  rw [h]

theorem changeAt_of_none {handle : RequestHandle} (h : t.find handle = none)
    (f : Request → Request) : t.changeAt handle f = t := by
  unfold changeAt
  rw [h]

end RequestTable

/-! ### What the relation says

The getters check the handle and read the slot.  In the table the same handle finds a row or
none.
-/

namespace Represents

open RequestTable

theorem of_construct (easy : Fin maxConcurrentRequests → Nat) :
    Represents easy (construct fun i => some (easy i)) [] := by
  refine ⟨⟨[], rfl, Session.FirstRound.of_fresh _⟩, rfl, List.nodup_nil, fun _ _ => rfl, ?_, ?_,
    .nil, fun _ _ => rfl⟩
  · intro i r hr
    cases hr
  · intro i r hr
    cases hr

theorem length_le (h : Represents easy c t) : t.length ≤ maxConcurrentRequests := by
  obtain ⟨assigned, hlen, hfirst⟩ := h.first
  have hcount : assigned.length ≤ maxConcurrentRequests := hfirst.count
  omega

/-- A row has a slot. -/
theorem slot_of_getElem? (h : Represents easy c t) {k : Nat} (hr : t[k]? = some r) :
    ∃ i : Fin maxConcurrentRequests, i.val = k := by
  have hlt : k < t.length := (List.getElem?_eq_some_iff.mp hr).1
  exact ⟨⟨k, Nat.lt_of_lt_of_le hlt h.length_le⟩, rfl⟩

theorem slot_of_mem (h : Represents easy c t) (hr : r ∈ t) :
    ∃ i : Fin maxConcurrentRequests, t[i.val]? = some r := by
  obtain ⟨k, hk⟩ := List.getElem?_of_mem hr
  obtain ⟨i, rfl⟩ := h.slot_of_getElem? hk
  exact ⟨i, hk⟩

/-- Two rows of one name are one. -/
theorem unique (h : Represents easy c t) (hinj : Function.Injective easy)
    {j : Fin maxConcurrentRequests} {r' : Request} (hr : t[i.val]? = some r)
    (hr' : t[j.val]? = some r') (hkey : r'.key = r.key) : i = j ∧ r = r' := by
  rw [h.key i r hr, h.key j r' hr'] at hkey
  obtain rfl := hinj hkey
  exact ⟨rfl, Option.some.inj (hr.symm.trans hr')⟩

/-- A handle with a row is valid. -/
theorem valid_of_find (h : Represents easy c t) {handle : RequestHandle}
    (hfind : t.find handle = some r) :
    ∃ i : Fin maxConcurrentRequests, handle.index = i.val ∧ t[i.val]? = some r ∧
      c.validHandle handle = true := by
  obtain ⟨hgen, hr⟩ := find_eq_some.mp hfind
  have hlt : handle.index < t.length := (List.getElem?_eq_some_iff.mp hr).1
  obtain ⟨assigned, hlen, hfirst⟩ := h.first
  have hi : handle.index < maxConcurrentRequests := Nat.lt_of_lt_of_le hlt h.length_le
  have hbusy := hfirst.busy ⟨handle.index, hi⟩ (by rw [hlen]; exact hlt)
  refine ⟨⟨handle.index, hi⟩, rfl, hr, ?_⟩
  exact validHandle_eq_true.mpr
    ⟨⟨handle.index, hi⟩, rfl, hgen.trans h.generation.symm, hbusy⟩

theorem invalid_of_find (h : Represents easy c t) {handle : RequestHandle}
    (hfind : t.find handle = none) : c.validHandle handle = false := by
  by_contra hvalid
  rw [Bool.not_eq_false, validHandle_eq_true] at hvalid
  obtain ⟨i, hi, hgen, hbusy⟩ := hvalid
  have hlt : handle.index < t.length := by
    by_contra hge
    exact hbusy (h.idle i (by omega))
  have hsome : t.find handle = some t[handle.index] :=
    find_eq_some.mpr ⟨hgen.trans h.generation, List.getElem?_eq_getElem hlt⟩
  rw [hfind] at hsome
  cases hsome

/-- The getters read the row. -/
theorem lookup_eq {α : Type} (h : Represents easy c t) (handle : RequestHandle)
    (field : RequestData → α) (invalid : α) (read : Request → α)
    (hread : ∀ i r, Row i c r → field (c.requests i) = read r) :
    c.lookup handle field invalid = .ok ((t.find handle).elim invalid read) := by
  unfold Client.lookup
  cases hfind : t.find handle with
  | none =>
      rw [if_neg (by rw [h.invalid_of_find hfind]; exact Bool.false_ne_true)]
      rfl
  | some r =>
      obtain ⟨i, hi, hr, hvalid⟩ := h.valid_of_find hfind
      rw [if_pos hvalid, hi, ref_val, bind_of_ok, hread i r (h.row i r hr)]
      rfl

/-! ### One transfer

The name of a transfer is the name of its easy handle, and different rows have different ones.
-/

/-- **A change of one transfer is a change of its row.** -/
theorem change (h : Represents easy c t) {f : Request → Request}
    (hmem : ∃ r ∈ t, r.key = key) (hkeeps : Keeps key c c')
    (hfirst : ∀ assigned, Session.FirstRound (fun i => some (easy i)) ⟨c, assigned⟩ →
      Session.FirstRound (fun i => some (easy i)) ⟨c', assigned⟩)
    (hf : ∀ r, (f r).key = r.key)
    (hbytes : c'.responses.Perm ((t.change key f).map Request.received).flatten)
    (hrow : ∀ i r, t[i.val]? = some r → r.key = key → Row i c r → Row i c' (f r)) :
    Represents easy c' (t.change key f) := by
  obtain ⟨assigned, hlen, hround⟩ := h.first
  refine ⟨⟨assigned, by simpa using hlen, hfirst assigned hround⟩, ?_, hkeeps.nodup h.nodup, ?_,
    ?_, ?_, hbytes, ?_⟩
  · rw [hkeeps.generation]
    exact h.generation
  · intro i hi
    rw [length_change] at hi
    have hcurl : (c.requests i).curl = none := by
      rw [hround.curl i, if_neg (by rw [hlen]; omega)]
    rw [hkeeps.requests i (by rw [hcurl]; exact nofun)]
    exact h.idle i hi
  · intro i r hr
    obtain ⟨r', hr', rfl⟩ := getElem?_change hr
    rw [← h.key i r' hr']
    split
    · exact hf r'
    · rfl
  · intro i r hr
    obtain ⟨r', hr', rfl⟩ := getElem?_change hr
    split
    · rename_i hkey
      exact hrow i r' hr' hkey (h.row i r' hr')
    · rename_i hkey
      exact (h.row i r' hr').of_keeps hkeeps hkey
  · intro x hx
    have hkeys : ∀ r ∈ t, r.key ≠ x := by
      intro r hr hrx
      refine hx (if r.key = key then f r else r) (List.mem_map_of_mem hr) ?_
      split
      · rw [hf r]
        exact hrx
      · exact hrx
    have hne : x ≠ key := by
      obtain ⟨r, hr, hrkey⟩ := hmem
      exact fun hxk => hkeys r hr (hrkey.trans hxk.symm)
    rw [hkeeps.easy x hne]
    exact h.silent x hkeys

/-! ### The operations

For each of them it is said which fields of the row change, and the rest is `change`.
-/

/-- Setting an option on the easy handle of a row. -/
theorem setopt (h : Represents easy c t) (hinj : Function.Injective easy)
    (hr : t[i.val]? = some r) {f : Easy → Easy} {g : Request → Request}
    (hkey : ∀ r, (g r).key = r.key)
    (hsame : ∀ r, (g r).state = r.state ∧ (g r).error = r.error ∧
      (g r).received = r.received ∧ (g r).running = r.running)
    (hset : ∀ url, f (r.settings i url) = (g r).settings i url) :
    Represents easy (c.setopt (c.requests i).curl f) (t.change r.key g) := by
  have hrow := h.row i r hr
  have hcurl : (c.requests i).curl = some r.key := by rw [hrow.request]
  have hsetopt : c.setopt (c.requests i).curl f =
      { c with easy := Function.update c.easy r.key (f (c.easy r.key)) } := by
    rw [hcurl]
    rfl
  rw [hsetopt]
  have hbytes := h.bytes
  rw [← received_change t r.key fun r => (hsame r).2.2.1] at hbytes
  refine h.change ⟨r, List.mem_of_getElem? hr, rfl⟩ ?_ ?_ hkey hbytes ?_
  · exact ⟨fun _ _ => rfl, fun x hx => Function.update_of_ne hx _ _, fun _ _ => Iff.rfl,
      fun h => h, rfl⟩
  · intro assigned hround
    refine hround.of_progress ?_ hround.bounds
    exact ⟨rfl, rfl, rfl, fun _ => rfl, fun _ h => h, fun _ h => h, fun _ h => h⟩
  · intro j r' hr' hrkey _
    obtain ⟨rfl, rfl⟩ := h.unique hinj hr hr' hrkey
    obtain ⟨hstate, herror, hreceived, hrunning⟩ := hsame r
    refine ⟨?_, ?_, ?_⟩
    · rw [hstate, herror, hreceived, hkey]
      exact hrow.request
    · rw [hkey]
      have heasy : Function.update c.easy r.key (f (c.easy r.key)) r.key =
          (g r).settings i (c.easy r.key).url := by
        rw [Function.update_self, hrow.easy, hset]
        rfl
      show Function.update c.easy r.key (f (c.easy r.key)) r.key =
        (g r).settings i (Function.update c.easy r.key (f (c.easy r.key)) r.key).url
      rw [heasy]
      rfl
    · rw [hkey, hrunning]
      exact hrow.running

/-- An option on the easy handle behind any handle. -/
theorem setOption (h : Represents easy c t) (hinj : Function.Injective easy)
    (handle : RequestHandle) {f : Easy → Easy} {g : Request → Request}
    (hkey : ∀ r, (g r).key = r.key)
    (hsame : ∀ r, (g r).state = r.state ∧ (g r).error = r.error ∧
      (g r).received = r.received ∧ (g r).running = r.running)
    (hset : ∀ r i url, f (r.settings i url) = (g r).settings i url) :
    ∃ c', c.setOption handle f = .ok c' ∧ Represents easy c' (t.changeAt handle g) := by
  unfold Client.setOption
  cases hfind : t.find handle with
  | none =>
      rw [if_neg (by rw [h.invalid_of_find hfind]; exact Bool.false_ne_true),
        changeAt_of_none hfind]
      exact ⟨c, rfl, h⟩
  | some r =>
      obtain ⟨i, hi, hr, hvalid⟩ := h.valid_of_find hfind
      rw [if_pos hvalid, hi, ref_val, changeAt_of_find hfind]
      exact ⟨_, rfl, h.setopt hinj hr hkey hsame (hset r i)⟩

theorem setHeaders (h : Represents easy c t) (hinj : Function.Injective easy)
    (handle : RequestHandle) (headers : List String) :
    ∃ c', c.setHeaders handle headers = .ok c' ∧
      Represents easy c' (t.changeAt handle fun r => { r with headers := headers }) :=
  h.setOption hinj handle (fun _ => rfl) (fun _ => ⟨rfl, rfl, rfl, rfl⟩) fun _ _ _ => rfl

theorem setPostData (h : Represents easy c t) (hinj : Function.Injective easy)
    (handle : RequestHandle) (data : List UInt8) :
    ∃ c', c.setPostData handle data = .ok c' ∧
      Represents easy c' (t.changeAt handle fun r => { r with postFields := some data }) :=
  h.setOption hinj handle (fun _ => rfl) (fun _ => ⟨rfl, rfl, rfl, rfl⟩) fun _ _ _ => rfl

/-- What is added once the handle of a row was handed to libcurl. -/
theorem start_added (h : Represents easy c t) {handle : RequestHandle}
    (hfind : t.find handle = some r) {accepts : Bool}
    (hc' : c.start handle accepts = .ok c') :
    c'.added = addEasy c.added (some r.key, accepts) := by
  obtain ⟨i, hi, hr, hvalid⟩ := h.valid_of_find hfind
  have hcurl : (c.requests i).curl = some r.key := by rw [(h.row i r hr).request]
  unfold Client.start at hc'
  rw [if_pos hvalid, hi, ref_val, bind_of_ok, hcurl] at hc'
  have hadded : c'.added = (c.multiAdd (some r.key) accepts).added := by
    rw [← Except.ok.inj hc']
  rw [hadded, multiAdd_eq]

theorem start (h : Represents easy c t) (hinj : Function.Injective easy)
    (handle : RequestHandle) (accepts : Bool) :
    ∃ c', c.start handle accepts = .ok c' ∧ Represents easy c' (t.start handle accepts) := by
  unfold RequestTable.start
  cases hfind : t.find handle with
  | none =>
      unfold Client.start
      rw [if_neg (by rw [h.invalid_of_find hfind]; exact Bool.false_ne_true),
        changeAt_of_none hfind]
      exact ⟨c, rfl, h⟩
  | some r =>
      obtain ⟨i, -, hr, -⟩ := h.valid_of_find hfind
      have hrow := h.row i r hr
      obtain ⟨c', hc', hrest⟩ := start_spec c handle accepts
      have hadded := h.start_added hfind hc'
      have hmem : ∀ x, x ∈ c'.added ↔ x ∈ c.added ∨ x = r.key ∧ accepts = true := by
        intro x
        rw [hadded, mem_addEasy, Prod.mk.injEq, Option.some.injEq, eq_comm (a := true)]
      refine ⟨c', hc', ?_⟩
      rw [changeAt_of_find hfind]
      have hbytes := h.bytes
      rw [← received_change t r.key (f := fun r => { r with running := r.running || accepts })
          fun _ => rfl,
        show c.responses = c'.responses by rw [hrest]] at hbytes
      refine h.change ⟨r, List.mem_of_getElem? hr, rfl⟩ ?_ ?_ (fun _ => rfl) hbytes ?_
      · refine ⟨fun j _ => by rw [hrest], fun x _ => by rw [hrest], fun x hx => ?_, fun hn => ?_,
          by rw [hrest]⟩
        · rw [hmem x]
          exact or_iff_left fun hc => hx hc.1
        · rw [hadded]
          exact nodup_addEasy hn (some r.key, accepts)
      · intro assigned hround
        obtain ⟨u, hu, hfirst, -⟩ := hround.start_step handle accepts
        obtain ⟨v, hv, heq⟩ := map_returns.mp hu
        have hvc : v = c' := Except.ok.inj (hv.symm.trans hc')
        have hvu : v = u := congrArg Session.client heq
        rw [← hvc, hvu]
        exact hfirst
      · intro j r' hr' hrkey _
        obtain ⟨rfl, rfl⟩ := h.unique hinj hr hr' hrkey
        refine ⟨?_, ?_, ?_⟩
        · rw [hrest]
          exact hrow.request
        · rw [hrest]
          exact hrow.easy
        · rw [hmem, Bool.or_eq_true, ← hrow.running]
          simp

theorem deliver (h : Represents easy c t) (hinj : Function.Injective easy)
    (write : Nat × List UInt8) :
    ∃ c', c.deliver write = .ok c' ∧ Represents easy c' (t.deliver write) := by
  unfold Client.deliver RequestTable.deliver
  by_cases hmem : ∃ r ∈ t, r.key = write.1
  · obtain ⟨r, hr, hkey⟩ := hmem
    obtain ⟨i, hi⟩ := h.slot_of_mem hr
    have hrow := h.row i r hi
    have hdata : (c.easy write.1).writeData = some i := by
      rw [← hkey, hrow.easy]
      rfl
    obtain ⟨assigned, hlen, hround⟩ := h.first
    have hpos : c.writePos i ≤ c.responses.length := hround.bounds i
    obtain ⟨c', hc', hwritten⟩ := writeCb_spec write.2 hpos
    have hdeliver : c.deliver write = .ok c' := by
      unfold Client.deliver
      rw [hdata]
      exact hc'
    have hbytes : c'.responses.Perm
        ((t.change write.1 fun r => r.receive write.2).map Request.received).flatten := by
      have honly : ∀ j r', t[j]? = some r' → r'.key = r.key → j = i.val := by
        intro j r' hj hkey'
        obtain ⟨j', rfl⟩ := h.slot_of_getElem? hj
        exact (congrArg Fin.val (h.unique hinj hi hj hkey').1).symm
      rw [← hkey, change_eq_set hi honly, hwritten.responses]
      refine List.Perm.trans ?_ (received_set hi write.2).symm
      refine List.Perm.trans ?_ (h.bytes.append_left write.2)
      rw [List.append_assoc]
      refine (List.perm_append_comm_assoc _ _ _).trans ?_
      rw [List.take_append_drop]
    rw [hdata]
    refine ⟨c', hc', h.change ⟨r, hr, hkey⟩ ?_ ?_ (fun _ => rfl) hbytes ?_⟩
    · refine ⟨fun j hj => hwritten.others j fun hji => hj ?_, fun x _ => by rw [hwritten.rest],
        fun x _ => by rw [hwritten.rest], fun hn => by rw [hwritten.rest]; exact hn,
        by rw [hwritten.rest]⟩
      rw [hji, hrow.request, ← hkey]
    · intro assigned hround
      exact hround.of_progress (deliver_progress hdeliver) (hwritten.inBounds hround.bounds)
    · intro j r' hr' hrkey _
      obtain ⟨rfl, rfl⟩ := h.unique hinj hi hr' (hrkey.trans hkey.symm)
      refine ⟨?_, ?_, ?_⟩
      · rw [hwritten.request, hrow.request]
        simp [Request.receive, Nat.add_mod]
      · rw [hwritten.rest]
        exact hrow.easy
      · rw [hwritten.rest]
        exact hrow.running
  · have habsent : ∀ r ∈ t, r.key ≠ write.1 := fun r hr hkey => hmem ⟨r, hr, hkey⟩
    rw [h.silent write.1 habsent, change_of_absent habsent]
    exact ⟨c, rfl, h⟩

/-- A transfer that is added has ended. -/
theorem finish_added (h : Represents easy c t) (hinj : Function.Injective easy) {msg : CurlMsg}
    (hdone : msg.done = true) {x : Nat} (hx : x ∈ c.added) (heasy : msg.easyHandle = some x) :
    Represents easy (c.finish msg) (t.finish msg) := by
  obtain ⟨assigned, hlen, hround⟩ := h.first
  obtain ⟨i, hi, hxi⟩ := hround.added x hx
  have hlt : i.val < t.length := by
    rw [← hlen]
    exact hi
  have hr : t[i.val]? = some t[i.val] := List.getElem?_eq_getElem hlt
  have hkey : t[i.val].key = x := (h.key i _ hr).trans (Option.some.inj hxi)
  have hrow := h.row i _ hr
  have hends : c.Ends msg i := by
    refine ⟨hdone, ?_⟩
    rw [heasy]
    exact hround.requestOf_eq (fun _ _ hij => hinj (Option.some.inj hij)) hi hxi
  have hcurl : (c.requests i).curl = some x := hends.curl.trans heasy
  have hfinish := finish_of_ends hends
  rw [hcurl] at hfinish
  have htable : t.finish msg = t.change x fun r => r.finish msg.result := by
    unfold RequestTable.finish
    rw [hdone, heasy]
  rw [htable]
  have hbytes := h.bytes
  rw [← received_change t x (f := fun r => r.finish msg.result) fun _ => rfl,
    show c.responses = (c.finish msg).responses by rw [hfinish]] at hbytes
  refine h.change ⟨_, List.getElem_mem hlt, hkey⟩ ?_ ?_ (fun _ => rfl) hbytes ?_
  · rw [hfinish]
    refine ⟨fun j hj => Function.update_of_ne (fun hji => hj ?_) _ _, fun _ _ => rfl,
      fun y hy => List.mem_erase_of_ne hy, fun hn => hn.erase x, rfl⟩
    rw [hji]
    exact hcurl
  · intro assigned hround
    have hf := finish_finished c msg
    exact hround.of_progress (finish_progress c msg) (hround.bounds.of_same hf.pos hf.responses)
  · intro j r' hr' hrkey _
    obtain ⟨rfl, rfl⟩ := h.unique hinj hr hr' (hrkey.trans hkey.symm)
    rw [hfinish]
    refine ⟨?_, ?_, ?_⟩
    · dsimp only
      rw [Function.update_self, hrow.request]
      simp [completed, Request.finish]
    · exact hrow.easy
    · show t[i.val].key ∈ c.added.erase x ↔ false = true
      rw [hkey]
      exact iff_of_false (List.Nodup.not_mem_erase h.nodup) Bool.false_ne_true

/-- A message about a transfer that is added; any other kind of message is skipped. -/
theorem finish (h : Represents easy c t) (hinj : Function.Injective easy) {msg : CurlMsg}
    (hmsg : msg.done = true → ∃ x ∈ c.added, msg.easyHandle = some x) :
    Represents easy (c.finish msg) (t.finish msg) := by
  cases hdone : msg.done with
  | false =>
      have hsame : c.finish msg = c := by
        unfold Client.finish
        rw [hdone]
        rfl
      have htable : t.finish msg = t := by
        unfold RequestTable.finish
        rw [hdone]
      rw [hsame, htable]
      exact h
  | true =>
      obtain ⟨x, hx, heasy⟩ := hmsg hdone
      exact h.finish_added hinj hdone hx heasy

theorem finishAll (hinj : Function.Injective easy) :
    ∀ (msgs : List CurlMsg) (c : Client) (t : RequestTable), Represents easy c t →
      Session.Reports c msgs →
      Represents easy (msgs.foldl Client.finish c) (msgs.foldl RequestTable.finish t) := by
  intro msgs
  induction msgs with
  | nil =>
      intro c t h _
      exact h
  | cons msg rest ih =>
      intro c t h hreports
      exact ih _ _ (h.finish hinj hreports.1) hreports.2

theorem update (h : Represents easy c t) (hinj : Function.Injective easy) {os : PerformAnswers}
    (hreports : c.ReportsAfter os) :
    ∃ c', c.update os = .ok c' ∧ Represents easy c' (t.update os) := by
  obtain ⟨u, hu, hrep⟩ :=
    Machine.simulates_foldlM (fun s t a (hR : Represents easy s t) => hR.deliver hinj a)
      os.writes c t h
  refine ⟨os.messages.foldl Client.finish u, ?_, finishAll hinj os.messages u _ hrep
    (hreports u hu)⟩
  unfold Client.update
  rw [hu]
  rfl

theorem getState_eq (h : Represents easy c t) (handle : RequestHandle) :
    c.getState handle = .ok ((t.find handle).elim .error Request.state) :=
  h.lookup_eq handle _ _ _ fun i r hrow => by rw [hrow.request]

theorem updateBatch (h : Represents easy c t) (hinj : Function.Injective easy)
    {os : PerformAnswers} (hreports : c.ReportsAfter os) :
    ∀ handles : List RequestHandle, ∃ c', c.updateBatch os handles = .ok c' ∧
      Represents easy c' (if handles.any t.isPending then t.update os else t) := by
  intro handles
  induction handles with
  | nil => exact ⟨c, rfl, h⟩
  | cons handle rest ih =>
      have hpending : (t.find handle).elim HttpsState.error Request.state = .pending ↔
          t.isPending handle = true := by
        unfold isPending
        cases t.find handle with
        | none => simp
        | some r => simp
      rw [Client.updateBatch, h.getState_eq handle, bind_of_ok, List.any_cons]
      by_cases hp : t.isPending handle = true
      · rw [if_pos (hpending.mpr hp), if_pos (by rw [hp]; rfl)]
        exact h.update hinj hreports
      · have hfalse : t.isPending handle = false := Bool.not_eq_true _ ▸ hp
        rw [if_neg (fun hc => hp (hpending.mp hc)), hfalse, Bool.false_or]
        exact ih

end Represents

/-! ### New requests

The next request gets the next slot, and all of its row is new.
-/

/-- The name of the transfer that row `k` gets. -/
def easyOf (easy : Fin maxConcurrentRequests → Nat) (k : Nat) : Nat :=
  if h : k < maxConcurrentRequests then easy ⟨k, h⟩ else 0

/-- What `create` tells libcurl of its request, and that it tells nothing of any other. -/
theorem create_settings {url spare : List UInt8} {method : HttpsMethod} {handle : RequestHandle}
    (h : c.create url method spare = .ok (handle, c')) (hi : handle.index = i.val)
    (hkey : (c'.requests i).curl = some key) :
    c'.easy key = Request.settings { key := key } i (c'.easy key).url ∧
      ∀ x, x ≠ key → c'.easy x = c.easy x := by
  unfold Client.create at h
  obtain ⟨⟨index, u⟩, hu, h⟩ := bind_returns.mp h
  obtain ⟨j, hj, h⟩ := bind_returns.mp h
  obtain ⟨k, hk, h⟩ := bind_returns.mp h
  have hrest := allocSlot_rest hu
  rw [ref_eq_ok] at hj
  dsimp only at h hj
  cases h
  obtain rfl : j = i := Fin.ext (hj.symm.trans hi)
  unfold initCurlHandle at hkey ⊢
  rw [setopt_pool] at hkey
  dsimp only at hkey
  rw [setRequest_self] at hkey
  dsimp only at hkey
  rw [hkey]
  refine ⟨?_, fun x hx => ?_⟩
  · rw [setopt_easy rfl]
    rfl
  · show Function.update u.easy key _ x = c.easy x
    rw [Function.update_of_ne hx, hrest]

/-- A row is an old one, or the new one. -/
theorem RequestTable.getElem?_create {j : Nat} (h : (t.create key)[j]? = some r) :
    t[j]? = some r ∧ j ≠ t.length ∨ j = t.length ∧ r = { key := key } := by
  unfold RequestTable.create at h
  rcases Nat.lt_trichotomy j t.length with hj | rfl | hj
  · rw [List.getElem?_append_left hj] at h
    exact Or.inl ⟨h, Nat.ne_of_lt hj⟩
  · rw [List.getElem?_concat_length] at h
    exact Or.inr ⟨rfl, (Option.some.inj h).symm⟩
  · rw [List.getElem?_eq_none (by simp; omega)] at h
    cases h

theorem easyOf_val (easy : Fin maxConcurrentRequests → Nat) (k : Fin maxConcurrentRequests) :
    easyOf easy k.val = easy k := by
  unfold easyOf
  rw [dif_pos k.isLt]

/-- A row whose transfer is not the new one is as before. -/
theorem Row.of_created {k : Fin maxConcurrentRequests} (h : Row i c r) (hnew : Created c k c')
    (hi : i ≠ k) (heasy : c'.easy r.key = c.easy r.key) : Row i c' r := by
  refine ⟨?_, ?_, ?_⟩
  · rw [hnew.others i hi]
    exact h.request
  · rw [heasy]
    exact h.easy
  · rw [hnew.added]
    exact h.running

/-- The new row is in the new slot. -/
theorem Row.new (hnew : Created c i c') (hcurl : (c'.requests i).curl = some key)
    (heasy : c'.easy key = Request.settings { key := key } i (c'.easy key).url)
    (hadded : key ∉ c.added) : Row i c' { key := key } := by
  refine ⟨?_, heasy, ?_⟩
  · rw [hnew.request, hcurl]
    rfl
  · rw [hnew.added]
    exact iff_of_false hadded Bool.false_ne_true

namespace Represents

/-- The next request gets the next slot, and an easy handle that is not added. -/
theorem create_call (h : Represents easy c t) (hinj : Function.Injective easy)
    (hfree : c.freeIndices ≠ []) (url : List UInt8) (method : HttpsMethod) (spare : List UInt8) :
    ∃ (k : Fin maxConcurrentRequests) (c' : Client), k.val = t.length ∧
      c.create url method spare = .ok (⟨t.length, 0⟩, c') ∧ Created c k c' ∧
      (c'.requests k).curl = some (easy k) ∧ easy k ∉ c.added ∧
      ∃ assigned, assigned.length = t.length + 1 ∧
        Session.FirstRound (fun i => some (easy i)) ⟨c', assigned⟩ := by
  obtain ⟨assigned, hlen, hround⟩ := h.first
  have hlt : assigned.length < maxConcurrentRequests := hround.length_lt_of_free hfree
  obtain ⟨c', hc', hnew⟩ := hround.create_call hlt url method spare
  rw [h.generation, hlen] at hc'
  refine ⟨⟨assigned.length, hlt⟩, c', hlen, hc', hnew.toCreated, ?_, ?_, _, ?_,
    hround.of_created hnew⟩
  · rw [hnew.curl, hround.handles]
  · exact hround.turn_not_added (fun _ _ hij => hinj (Option.some.inj hij)) rfl rfl
  · rw [List.length_append, List.length_singleton, hlen]

/-- **A new request is a new row.**  Its handle is the place of the row. -/
theorem create (h : Represents easy c t) (hinj : Function.Injective easy)
    (hfree : c.freeIndices ≠ []) (url : List UInt8) (method : HttpsMethod) (spare : List UInt8) :
    ∃ c', c.create url method spare = .ok (⟨t.length, 0⟩, c') ∧
      Represents easy c' (t.create (easyOf easy t.length)) := by
  obtain ⟨k, c', hk, hc', hnew, hcurl, hadded, assigned, hlen, hround⟩ :=
    h.create_call hinj hfree url method spare
  obtain ⟨hsettings, hothers⟩ := create_settings hc' hk.symm hcurl
  have hlength : (t.create (easy k)).length = t.length + 1 := by
    simp [RequestTable.create]
  rw [← hk, easyOf_val, hk]
  refine ⟨c', hc', ⟨assigned, hlen.trans hlength.symm, hround⟩, ?_, ?_, ?_, ?_, ?_, ?_, ?_⟩
  · rw [hnew.generation]
    exact h.generation
  · rw [hnew.added]
    exact h.nodup
  · intro j hj
    rw [hlength] at hj
    rw [hnew.others j fun hc => by rw [hc, hk] at hj; omega]
    exact h.idle j (by omega)
  · intro j r hr
    rcases RequestTable.getElem?_create hr with ⟨hr, -⟩ | ⟨hj, rfl⟩
    · exact h.key j r hr
    · rw [Fin.ext (hj.trans hk.symm)]
  · intro j r hr
    rcases RequestTable.getElem?_create hr with ⟨hr, hj⟩ | ⟨hj, rfl⟩
    · have hne : j ≠ k := fun hc => hj ((congrArg Fin.val hc).trans hk)
      refine (h.row j r hr).of_created hnew hne (hothers r.key fun hc => hne ?_)
      exact hinj ((h.key j r hr).symm.trans hc)
    · rw [Fin.ext (hj.trans hk.symm)]
      exact .new hnew hcurl hsettings hadded
  · rw [hnew.responses]
    simpa [RequestTable.create] using h.bytes
  · intro x hx
    have hne : x ≠ easy k :=
      (hx { key := easy k } (List.mem_append_right _ (List.mem_singleton.mpr rfl))).symm
    rw [hothers x hne]
    exact h.silent x fun r hr => hx r (List.mem_append_left _ hr)

/-- The bytes of a response are the first ones of the vector, as many as have come in. -/
theorem getResponse_eq (h : Represents easy c t) (handle : RequestHandle) :
    c.getResponse handle =
      .ok (c.responses.take ((t.find handle).elim 0 fun r => r.received.length % 2 ^ 32)) ∧
      (t.find handle).elim 0 (fun r => r.received.length % 2 ^ 32) ≤ c.responses.length := by
  cases hfind : t.find handle with
  | none =>
      refine ⟨?_, Nat.zero_le _⟩
      unfold Client.getResponse
      rw [if_neg (by rw [h.invalid_of_find hfind]; exact Bool.false_ne_true)]
      simp
  | some r =>
      obtain ⟨i, hi, hr, hvalid⟩ := h.valid_of_find hfind
      have hrow := h.row i r hr
      obtain ⟨assigned, hlen, hround⟩ := h.first
      have hpos : c.writePos i ≤ c.responses.length := hround.bounds i
      have hbytes := Client.getResponse_eq hvalid hi hpos
      unfold writePos at hpos
      rw [hrow.request] at hbytes hpos
      exact ⟨by simpa using hbytes, by simpa using hpos⟩

end Represents

/-! ### Runs

By induction on the run, every operation returns and the relation holds at the end.
-/

namespace Client

/-- What the table says is what the pool says, and what libcurl knows. -/
structure Shows (c : Client) (t : RequestTable) : Prop where
  state : ∀ handle, c.getState handle = .ok ((t.find handle).elim .error Request.state)
  error : ∀ handle, c.getError handle = .ok ((t.find handle).elim .internalError Request.error)
  statusCode : ∀ handle, c.getStatusCode handle = .ok 0
  response : ∀ handle, ∃ bytes, c.getResponse handle = .ok bytes ∧
    bytes.length = (t.find handle).elim 0 fun r => r.received.length % 2 ^ 32
  bytes : c.responses.Perm (t.map Request.received).flatten
  settings : ∀ k r, t[k]? = some r → ∃ i : Fin maxConcurrentRequests, i.val = k ∧
    c.easy r.key = r.settings i (c.easy r.key).url
  running : ∀ r ∈ t, r.key ∈ c.added ↔ r.running = true

end Client

instance instDecidableReportsAfter (s : Client) (os : PerformAnswers) :
    Decidable (s.ReportsAfter os) :=
  match hw : os.writes.foldlM deliver s with
  | .error _ => isTrue fun c hc => by rw [hw] at hc; cases hc
  | .ok c => decidable_of_iff (Session.Reports c os.messages)
      ⟨fun h c' hc' => Except.ok.inj (hw.symm.trans hc') ▸ h, fun h => h c hw⟩

instance instDecidableApiAdmits (s : Client) (op : ApiOp) : Decidable (apiMachine.admits s op) :=
  match op with
  | .create _ _ _ => inferInstanceAs (Decidable (s.freeIndices ≠ []))
  | .update os | .updateBatch _ os => instDecidableReportsAfter s os
  | .setHeaders _ _ | .setPostData _ _ | .start _ _ | .startBatch _ => isTrue trivial

end Ytl.Https
