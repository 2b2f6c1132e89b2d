/-
The URL that libcurl is given.

The URLs lie in one vector, one right behind the other, and `CURLOPT_URL` is given a
pointer to the first byte of the last one.  It reads a C string, but nothing ends the URL
there: what is read goes on into whatever memory lies behind the last byte of the vector,
which is its spare capacity, up to the first 0.

The memory behind the vector is not part of the state, and nothing in the code writes it.  So
what lies there comes with each call, and the statement is about all contents it may have.

The pointer was good when it was given to libcurl.  That libcurl copies the string at once is
its documented behaviour, so what becomes of the vector later does not matter.
-/
import Ytl.Proofs.Https.FirstRound

namespace Ytl.Https

open Client

namespace Session

/-- A call of `create`, with what then lies in memory behind the last byte of `urls`. -/
structure CreateCall where
  url : List UInt8
  method : HttpsMethod := .get
  spare : List UInt8

/-- A request is made, and listed with its slot and its easy handle. -/
def create (s : Session) (call : CreateCall) : Except Fault Session :=
  s.step (.create call.url call.method call.spare)

/-- The C string at the start of `bytes` is `str`, and it ends. -/
def ReadsAs (bytes str : List UInt8) : Prop := cString bytes = str ∧ 0 ∈ bytes

/-- What lies at the URL of the new request reads as the URL that was given, and that is what is
set on its easy handle. -/
def UrlRequested (s : Session) (call : CreateCall) (t : Session) : Prop :=
  ∃ i curl, t.assigned = s.assigned ++ [(i, curl)] ∧
    ReadsAs (t.client.urls.drop (t.client.requests i).urlOffset ++ call.spare) call.url ∧
    ∀ x, curl = some x → (t.client.easy x).url = call.url

/-! ### C strings

The string at an address goes up to the first 0, and it is the URL itself only if the URL has
no 0 and one follows.
-/

/-- A string without a 0 reads as itself exactly if a 0 follows. -/
theorem readsAs_append_iff {url : List UInt8} (hurl : 0 ∉ url) (spare : List UInt8) :
    ReadsAs (url ++ spare) url ↔ spare.head? = some 0 := by
  have hread : cString (url ++ spare) = url ++ cString spare := by
    unfold cString
    refine List.takeWhile_append_of_pos fun b hb => ?_
    rw [bne_iff_ne]
    rintro rfl
    exact hurl hb
  unfold ReadsAs
  rw [hread, List.append_right_eq_self, List.mem_append, or_iff_right hurl]
  cases spare with
  | nil => simp
  | cons b rest =>
      rw [cString, List.takeWhile_cons]
      by_cases hb : b = 0
      · simp [hb]
      · simp [hb]

/-! ### Creating requests

The URL is put at the end of the vector, so what follows it is what lies behind the vector.
-/

variable {easyInit : Fin maxConcurrentRequests → Option Nat} {s t : Session} {call : CreateCall}

/-- The request that was made, as the log has it. -/
theorem create_logged (h : s.create call = .ok t) :
    ∃ i k, Made s.client call.url call.spare i k t.client ∧
      t.assigned = s.assigned ++ [(i, (t.client.requests i).curl)] := by
  obtain ⟨⟨handle, c⟩, hc, h⟩ := bind_returns.mp h
  obtain ⟨i, hi, h⟩ := bind_returns.mp h
  obtain ⟨j, k, hj, hmade⟩ := create_made hc
  have hij : i = j := Fin.ext ((ref_eq_ok.mp hi).symm.trans hj)
  rw [← Except.ok.inj h]
  subst hij
  exact ⟨i, k, hmade, rfl⟩

/-- **One call**: the new URL is the last one of the vector. -/
theorem urlRequested_iff (h : s.create call = .ok t) (hurl : 0 ∉ call.url)
    (hsize : s.client.urls.length < 2 ^ 32) :
    UrlRequested s call t ↔ call.spare.head? = some 0 := by
  obtain ⟨i, k, hmade, hlog⟩ := create_logged h
  have hbytes : t.client.urls.drop (t.client.requests i).urlOffset = call.url := by
    rw [hmade.request, hmade.urls]
    show List.drop (s.client.urls.length % 2 ^ 32) _ = _
    rw [Nat.mod_eq_of_lt hsize, List.drop_left]
  rw [← readsAs_append_iff hurl call.spare]
  constructor
  · rintro ⟨j, curl, hlog', hreads, -⟩
    rw [hlog] at hlog'
    obtain ⟨rfl, -⟩ := Prod.mk.inj (List.singleton_inj.mp (List.append_cancel_left hlog'))
    rwa [hbytes] at hreads
  · intro hreads
    refine ⟨i, _, hlog, ?_, fun x hx => ?_⟩
    · rwa [hbytes]
    · rw [hmade.easy x hx, hbytes]
      exact hreads.1

/-- There is a slot for another request exactly while there are fewer than 512. -/
theorem FirstRound.create_iff (h : FirstRound easyInit s) (call : CreateCall) :
    (∃ t, s.create call = .ok t) ↔ s.assigned.length < maxConcurrentRequests := by
  constructor
  · rintro ⟨t, ht⟩
    refine Nat.lt_of_le_of_ne h.count fun hfull => ?_
    rw [create, step, Client.create, h.allocSlot_dry hfull] at ht
    cases ht
  · intro hlt
    obtain ⟨c, hc, -⟩ := h.create_step hlt call.url call.method call.spare
    exact ⟨_, hc⟩

theorem FirstRound.of_create (h : FirstRound easyInit s) (hcreate : s.create call = .ok t) :
    FirstRound easyInit t ∧ t.assigned.length = s.assigned.length + 1 := by
  have hlt := (h.create_iff call).mp ⟨t, hcreate⟩
  obtain ⟨c, hc, hnew⟩ := h.create_step hlt call.url call.method call.spare
  rw [Except.ok.inj (hcreate.symm.trans hc)]
  exact ⟨h.of_created hnew, by simp⟩

/-- The number of bytes of all the URLs. -/
def urlBytes (calls : List CreateCall) : Nat := (calls.map fun call => call.url.length).sum

theorem always_urlRequested_iff :
    ∀ (calls : List CreateCall) (s : Session), FirstRound easyInit s →
      (∀ call ∈ calls, 0 ∉ call.url) → s.client.urls.length + urlBytes calls < 2 ^ 32 →
      ((Machine.ofStep create).Always UrlRequested s calls ↔
        s.assigned.length + calls.length ≤ maxConcurrentRequests ∧
          ∀ call ∈ calls, call.spare.head? = some 0) := by
  intro calls
  induction calls with
  | nil =>
      intro s h _ _
      exact ⟨fun _ => ⟨h.count, nofun⟩, fun _ => trivial⟩
  | cons call rest ih =>
      intro s h hurls hsize
      rw [List.forall_mem_cons] at hurls
      have hsum : urlBytes (call :: rest) = call.url.length + urlBytes rest := List.sum_cons
      rw [hsum] at hsize
      rw [List.forall_mem_cons, List.length_cons]
      -- what is known of the run after the first call
      have hlater : ∀ t, s.create call = .ok t →
          ((Machine.ofStep create).Always UrlRequested t rest ↔
            s.assigned.length + 1 + rest.length ≤ maxConcurrentRequests ∧
              ∀ call ∈ rest, call.spare.head? = some 0) := by
        intro t ht
        obtain ⟨hfirst, hlen⟩ := h.of_create ht
        obtain ⟨i, k, hmade, -⟩ := create_logged ht
        rw [← hlen]
        refine ih t hfirst hurls.2 ?_
        rw [hmade.urls, List.length_append]
        omega
      constructor
      · rintro ⟨t, ht, hreq, hrest⟩
        obtain ⟨hcount, hends⟩ := (hlater t ht).mp hrest
        exact ⟨by omega, (urlRequested_iff ht hurls.1 (by omega)).mp hreq, hends⟩
      · rintro ⟨hcount, hend, hends⟩
        obtain ⟨t, ht⟩ := (h.create_iff call).mpr (by omega)
        exact ⟨t, ht, (urlRequested_iff ht hurls.1 (by omega)).mpr hend,
          (hlater t ht).mpr ⟨by omega, hends⟩⟩

/--
**The URL requested is the URL given if a 0 happens to follow it.**  For every sequence of calls
of `create` with URLs without a 0 and of less than 2^32 bytes together, and whatever lies behind
the vector: every call returns and the C string at the URL of its request, which is set on its
easy handle, is the URL it was given; if and only if there are no more than 512 calls and in
every one the first byte behind the vector is 0.
-/
theorem url_requested_iff (easyInit : Fin maxConcurrentRequests → Option Nat)
    (calls : List CreateCall) (hurls : ∀ call ∈ calls, 0 ∉ call.url)
    (hsize : urlBytes calls < 2 ^ 32) :
    (Machine.ofStep create).Always UrlRequested (fresh easyInit) calls ↔
      calls.length ≤ maxConcurrentRequests ∧ ∀ call ∈ calls, call.spare.head? = some 0 := by
  rw [always_urlRequested_iff calls _ (FirstRound.of_fresh easyInit) hurls
    (by rwa [show (fresh easyInit).client.urls.length = 0 from rfl, Nat.zero_add])]
  show 0 + _ ≤ _ ∧ _ ↔ _
  rw [Nat.zero_add]

/-- Two URLs, the second of them empty, with zeros behind them. -/
theorem url_requested_two :
    (Machine.ofStep create).Always UrlRequested (fresh fun i => some i.val)
      [{ url := [104, 105], spare := [0, 9] }, { url := [], spare := [0] }] := by
  refine (url_requested_iff _ _ (by decide) (by decide)).mpr ⟨?_, by decide⟩
  rw [maxConcurrentRequests_eq]
  decide

/-- One URL, with the rest of another behind it. -/
theorem url_not_requested :
    ¬ ∀ (easyInit : Fin maxConcurrentRequests → Option Nat) (calls : List CreateCall),
      calls.length ≤ maxConcurrentRequests → (∀ call ∈ calls, 0 ∉ call.url) →
      urlBytes calls < 2 ^ 32 →
      (Machine.ofStep create).Always UrlRequested (fresh easyInit) calls := by
  intro hall
  have hlen : [({ url := [104, 105], spare := [47, 0] } : CreateCall)].length ≤
      maxConcurrentRequests := by
    rw [maxConcurrentRequests_eq]
    decide
  obtain ⟨t, ht, hreq, -⟩ := hall (fun i => some i.val)
    [{ url := [104, 105], spare := [47, 0] }] hlen (by decide) (by decide)
  have hend := (urlRequested_iff ht (by decide) (by decide)).mp hreq
  cases hend

end Session

end Ytl.Https
