/-
What `create` and `serve` do.

Both take a slot off the free list, give it a receive buffer, and then work
through calls that may fail.  Every failure exit records an error on the slot and
returns its index, but leaves `state` alone; only the last line makes the slot
`ACTIVE`.  `Opened` is all that the proofs about slots and buffers need to know of
either function, and the flag in it is whether the call got to that last line.

The one write outside the slot is the failure branch of `init_socket`, which
indexes `conns_` by the descriptor: it can set the `error` of another slot.
-/
import Ytl.Proofs.Udp.Close

namespace Ytl.Udp.Process

/-! ### Taking a slot

`alloc_slot` takes the last number of the free list as it is.  That it is the number of a slot
is an invariant of the list, and proved with the list; what is said here is for any state.
-/

theorem allocSlot_nil {s : Process} (h : s.freeIndices = []) :
    s.allocSlot = (maxConnections, s) := by
  unfold allocSlot
  rw [h]
  rfl

/-- The number at the back of the free list, if there is one, is that of a slot or none. -/
theorem freeIndices_cases (s : Process) :
    s.freeIndices = [] ∨
      (∃ (rest : List Nat) (i : Fin maxConnections), s.freeIndices = rest ++ [i.val]) ∨
      ∃ rest index, s.freeIndices = rest ++ [index] ∧ ¬ index < maxConnections := by
  rcases List.eq_nil_or_concat' s.freeIndices with hnil | ⟨rest, index, hfree⟩
  · exact Or.inl hnil
  · by_cases hlt : index < maxConnections
    · exact Or.inr (Or.inl ⟨rest, ⟨index, hlt⟩, hfree⟩)
    · exact Or.inr (Or.inr ⟨rest, index, hfree, hlt⟩)

theorem allocSlot_concat {s : Process} {rest : List Nat} {index : Nat}
    (h : s.freeIndices = rest ++ [index]) :
    s.allocSlot = (index, { s with freeIndices := rest }) := by
  unfold allocSlot
  rw [h]
  simp

/-! ### What has changed when a slot has been opened

Two states matter.  `Opening` is the one before the first call that can fail: the slot is off
the free list and has its buffer.  `Opened` is the end of the call, successful or not; between
the two only the slot itself is written, and perhaps an error in another one.
-/

/-- The slot `i` was taken, got a buffer, and was made `ACTIVE` if `done`. -/
structure Opened (s : Process) (i : Fin maxConnections) (a : Alloc) (fd : Int) (done : Bool)
    (s' : Process) : Prop where
  taken : s.freeIndices = s'.freeIndices ++ [i.val]
  others : ∀ j, j ≠ i → ∃ e, s'.conns j = { s.conns j with error := e }
  buffer : (s'.conns i).recvBuffer = (s.malloc defaultPacketSize a).1
  blocks : s'.blocks = (s.malloc defaultPacketSize a).2.blocks
  freed : s'.freed = s.freed
  state : (s'.conns i).state = if done then .active else (s.conns i).state
  socket : done = true → (s'.conns i).socket = fd
  queue : s'.packetQueue = s.packetQueue

namespace Opened

variable {s s' : Process} {i j : Fin maxConnections} {a : Alloc} {fd : Int} {done : Bool}

theorem isFree_iff (h : Opened s i a fd done s') (hj : j ≠ i) : s'.IsFree j ↔ s.IsFree j := by
  obtain ⟨e, he⟩ := h.others j hj
  rw [IsFree, IsFree, he]

theorem next_eq (h : Opened s i a fd done s') (hj : j ≠ i) : s'.next j = s.next j := by
  obtain ⟨e, he⟩ := h.others j hj
  rw [next, next, he]

end Opened

/-- The state between taking the slot and the first call that may fail. -/
structure Opening (s : Process) (i : Fin maxConnections) (a : Alloc) (t : Process) : Prop where
  taken : s.freeIndices = t.freeIndices ++ [i.val]
  others : ∀ j, j ≠ i → t.conns j = s.conns j
  buffer : (t.conns i).recvBuffer = (s.malloc defaultPacketSize a).1
  blocks : t.blocks = (s.malloc defaultPacketSize a).2.blocks
  state : (t.conns i).state = (s.conns i).state
  rest : t = { s with freeIndices := t.freeIndices, conns := t.conns, blocks := t.blocks,
                      sockets := t.sockets }

section Opening

variable {s t t' : Process} {i : Fin maxConnections} {a : Alloc}

theorem Opening.freed (h : Opening s i a t) : t.freed = s.freed := by rw [h.rest]

theorem Opening.queue (h : Opening s i a t) : t.packetQueue = s.packetQueue := by rw [h.rest]

theorem opening_allocBuffer {rest : List Nat} (h : s.freeIndices = rest ++ [i.val]) :
    Opening s i a ({ s with freeIndices := rest }.allocBuffer i a) := by
  have hm : ∀ size, { s with freeIndices := rest }.malloc size a =
      ((s.malloc size a).1, { (s.malloc size a).2 with freeIndices := rest }) := by
    intro size
    unfold malloc
    split <;> rfl
  unfold allocBuffer
  rw [hm]
  have hconns : (s.malloc defaultPacketSize a).2.conns = s.conns := by
    rw [malloc_fields]
  refine ⟨h, ?_, ?_, rfl, ?_, ?_⟩
  · intro j hj
    show Function.update _ i _ j = _
    rw [Function.update_of_ne hj, hconns]
  · simp
  · simp [hconns]
  · dsimp only [setConn]
    rw [malloc_fields]

theorem openSocket_conns (t : Process) (i : Fin maxConnections) (fd : Int) :
    (t.openSocket i fd).conns = Function.update t.conns i { t.conns i with socket := fd } := by
  unfold openSocket
  split <;> rfl

theorem openSocket_conn (t : Process) (i : Fin maxConnections) (fd : Int) :
    (t.openSocket i fd).conns i = { t.conns i with socket := fd } := by
  rw [openSocket_conns, Function.update_self]

theorem Opening.openSocket (h : Opening s i a t) (fd : Int) :
    Opening s i a (t.openSocket i fd) := by
  have hconns := openSocket_conns t i fd
  have hself := openSocket_conn t i fd
  have hrest : t.openSocket i fd =
      { t with conns := (t.openSocket i fd).conns, sockets := (t.openSocket i fd).sockets } := by
    unfold Process.openSocket
    split <;> rfl
  refine ⟨?_, ?_, ?_, ?_, ?_, ?_⟩
  · rw [hrest]
    exact h.taken
  · intro j hj
    rw [hconns, Function.update_of_ne hj]
    exact h.others j hj
  · rw [hself]
    exact h.buffer
  · rw [hrest]
    exact h.blocks
  · rw [hself]
    exact h.state
  · rw [hrest, h.rest]

/-- Every failure exit: an error is recorded and nothing else. -/
theorem Opening.fail (h : Opening s i a t) (fd : Int) (e : Error) :
    Opened s i a fd false (t.setError i e) := by
  refine ⟨h.taken, ?_, ?_, h.blocks, h.freed, ?_, nofun, h.queue⟩
  · intro j hj
    refine ⟨(s.conns j).error, ?_⟩
    show Function.update _ i _ j = _
    rw [Function.update_of_ne hj]
    exact h.others j hj
  · simpa [setError] using h.buffer
  · simpa [setError] using h.state

theorem initSocket_conns {sock : Int} {getfl : Bool} (h : t.initSocket sock getfl = .ok t') :
    (∀ j, ∃ e, t'.conns j = { t.conns j with error := e }) ∧
      t' = { t with conns := t'.conns } := by
  unfold initSocket at h
  split at h
  · rw [← Except.ok.inj h]
    exact ⟨fun j => ⟨(t.conns j).error, rfl⟩, rfl⟩
  · obtain ⟨k, -, hk⟩ := bind_returns.mp h
    rw [← Except.ok.inj hk]
    refine ⟨fun j => ?_, rfl⟩
    by_cases hj : j = k
    · subst hj
      exact ⟨.asyncifyFailed, by simp [setError]⟩
    · exact ⟨(t.conns j).error, setConn_of_ne _ _ hj⟩

/-- The success exit, after `init_socket` has written an error somewhere or nowhere. -/
theorem Opening.succeed {fd : Int} {getfl : Bool} (h : Opening s i a t)
    (hfd : (t.conns i).socket = fd) (hinit : t.initSocket fd getfl = .ok t')
    {c : ConnectionData} (hbuf : c.recvBuffer = (t'.conns i).recvBuffer)
    (hsock : c.socket = (t'.conns i).socket) (hstate : c.state = .active) :
    Opened s i a fd true (t'.setConn i c) := by
  obtain ⟨herr, hrest⟩ := initSocket_conns hinit
  obtain ⟨e, he⟩ := herr i
  have hsame : t'.freeIndices = t.freeIndices ∧ t'.blocks = t.blocks ∧ t'.freed = t.freed ∧
      t'.packetQueue = t.packetQueue := by
    rw [hrest]
    exact ⟨rfl, rfl, rfl, rfl⟩
  refine ⟨?_, ?_, ?_, ?_, ?_, ?_, ?_, ?_⟩
  · show s.freeIndices = t'.freeIndices ++ [i.val]
    rw [hsame.1]
    exact h.taken
  · intro j hj
    obtain ⟨e, he⟩ := herr j
    refine ⟨e, ?_⟩
    rw [setConn_of_ne _ _ hj, he, h.others j hj]
  · rw [setConn_self, hbuf, he]
    exact h.buffer
  · exact hsame.2.1.trans h.blocks
  · exact hsame.2.2.1.trans h.freed
  · rw [setConn_self, hstate]
    rfl
  · intro _
    rw [setConn_self, hsock, he]
    exact hfd
  · exact hsame.2.2.2.trans h.queue

end Opening

/-! ### The two functions

Both functions go through the same few calls and differ in which ones.  `Launch` has a
constructor for the failure exits and one for the success, with the state each exit is taken
in, and both functions are shown to be a `Launch` once; nothing after that looks at their
bodies.
-/

/-- The calls of `create` all succeed. -/
def createSucceeds (host port : String) (connect : Bool) (os : OpenAnswers) : Bool :=
  (resolveHost os.getaddrinfo host port true).valid && os.socket != -1 &&
    (if connect then os.connect else os.bind)

/-- The calls of `serve` all succeed. -/
def serveSucceeds (os : OpenAnswers) : Bool := os.socket != -1 && os.bind

theorem create_nil {s : Process} (h : s.freeIndices = []) (host port : String) (connect : Bool)
    (os : OpenAnswers) : s.create host port connect os = .ok (maxConnections, s) := by
  unfold create
  rw [allocSlot_nil h]
  exact if_pos rfl

theorem serve_nil {s : Process} (h : s.freeIndices = []) (port : Nat) (os : OpenAnswers) :
    s.serve port os = .ok (maxConnections, s) := by
  unfold serve
  rw [allocSlot_nil h]
  exact if_pos rfl

/-- What a slot is like that has got its buffer and a descriptor. -/
def opening (s : Process) (i : Fin maxConnections) (a : Alloc) (fd : Int) : ConnectionData :=
  { s.conns i with
    recvBuffer := (s.malloc defaultPacketSize a).1
    maxPacketSize := defaultPacketSize
    socket := fd }

/-- The two ways a call ends that has taken slot `i`: with an error in its own slot, or with
the connection made after `init_socket`.  What `socket` has returned is open then. -/
inductive Launch (s : Process) (i : Fin maxConnections) (a : Alloc) (fd : Int) (getfl : Bool) :
    Bool → Except Fault (Nat × Process) → Prop
  | fail {t : Process} (h : Opening s i a t) {fd' : Int} (hconn : t.conns i = s.opening i a fd')
      (hsockets : t.sockets = s.sockets ∨ fd ≠ -1 ∧ t.sockets = s.sockets ++ [fd])
      (e : Error) (he : e ≠ .none) : Launch s i a fd getfl false (.ok (i.val, t.setError i e))
  | finish {t : Process} (h : Opening s i a t) (hconn : t.conns i = s.opening i a fd)
      (hsockets : fd ≠ -1 ∧ t.sockets = s.sockets ++ [fd]) (addr : Process → Address) :
      Launch s i a fd getfl true (t.initSocket fd getfl >>= fun t' => .ok (i.val,
        t'.setConn i { t'.conns i with fromAddr := addr t', state := .active }))

theorem Launch.opened {s s' : Process} {i : Fin maxConnections} {a : Alloc} {fd : Int}
    {getfl done : Bool} {r : Except Fault (Nat × Process)} {index : Nat}
    (h : Launch s i a fd getfl done r) (hr : r = .ok (index, s')) :
    index = i.val ∧ Opened s i a fd done s' := by
  cases h with
  | fail ht _ _ e _ =>
      cases hr
      exact ⟨rfl, ht.fail fd e⟩
  | finish ht hconn _ addr =>
      obtain ⟨t', ht', hlast⟩ := bind_returns.mp hr
      cases hlast
      exact ⟨rfl, ht.succeed (by rw [hconn]; rfl) ht' rfl rfl rfl⟩

theorem allocBuffer_conn (s : Process) (rest : List Nat) (i : Fin maxConnections) (a : Alloc) :
    ({ s with freeIndices := rest }.allocBuffer i a).conns i =
      s.opening i a (s.conns i).socket := by
  unfold allocBuffer opening malloc
  cases a.granted <;> simp

theorem allocBuffer_sockets (s : Process) (rest : List Nat) (i : Fin maxConnections) (a : Alloc) :
    ({ s with freeIndices := rest }.allocBuffer i a).sockets = s.sockets := by
  show ({ s with freeIndices := rest }.malloc defaultPacketSize a).2.sockets = s.sockets
  rw [malloc_fields]

theorem openSocket_sockets (t : Process) (i : Fin maxConnections) {fd : Int} (hfd : fd ≠ -1) :
    (t.openSocket i fd).sockets = t.sockets ++ [fd] := by
  unfold openSocket
  rw [if_neg hfd]
  rfl

theorem openSocket_sockets_none (t : Process) (i : Fin maxConnections) :
    (t.openSocket i (-1)).sockets = t.sockets := by
  unfold openSocket
  rw [if_pos rfl]
  rfl

section Exits

variable {s : Process} {i : Fin maxConnections} {rest : List Nat}

/-- There is no descriptor. -/
theorem Launch.noSocket (hfree : s.freeIndices = rest ++ [i.val]) (a : Alloc) (getfl : Bool) :
    Launch s i a (-1) getfl false (.ok (i.val,
      (({ s with freeIndices := rest }.allocBuffer i a).openSocket i (-1)).setError i
        .socketCreationFailed)) := by
  have hconn := openSocket_conn ({ s with freeIndices := rest }.allocBuffer i a) i (-1)
  rw [allocBuffer_conn] at hconn
  refine .fail ((opening_allocBuffer hfree).openSocket (-1)) hconn (Or.inl ?_) _ nofun
  rw [openSocket_sockets_none, allocBuffer_sockets]

variable {fd : Int}

/-- There is one, and what is to be done with it fails. -/
theorem Launch.unused (hfree : s.freeIndices = rest ++ [i.val]) (hfd : fd ≠ -1) (a : Alloc)
    (getfl : Bool) {e : Error} (he : e ≠ .none) :
    Launch s i a fd getfl false (.ok (i.val,
      (({ s with freeIndices := rest }.allocBuffer i a).openSocket i fd).setError i e)) := by
  have hconn := openSocket_conn ({ s with freeIndices := rest }.allocBuffer i a) i fd
  rw [allocBuffer_conn] at hconn
  refine .fail ((opening_allocBuffer hfree).openSocket fd) hconn (Or.inr ⟨hfd, ?_⟩) e he
  rw [openSocket_sockets _ _ hfd, allocBuffer_sockets]

/-- All goes well up to `init_socket`. -/
theorem Launch.connected (hfree : s.freeIndices = rest ++ [i.val]) (hfd : fd ≠ -1) (a : Alloc)
    (getfl : Bool) (addr : Process → Address) :
    Launch s i a fd getfl true
      ((({ s with freeIndices := rest }.allocBuffer i a).openSocket i fd).initSocket fd getfl >>=
        fun t' => .ok (i.val,
          t'.setConn i { t'.conns i with fromAddr := addr t', state := .active })) := by
  have hconn := openSocket_conn ({ s with freeIndices := rest }.allocBuffer i a) i fd
  rw [allocBuffer_conn] at hconn
  refine .finish ((opening_allocBuffer hfree).openSocket fd) hconn ⟨hfd, ?_⟩ addr
  rw [openSocket_sockets _ _ hfd, allocBuffer_sockets]

/-- **`create` takes the slot at the back of the free list.** -/
theorem create_launch (hfree : s.freeIndices = rest ++ [i.val]) (host port : String)
    (connect : Bool) (os : OpenAnswers) :
    Launch s i os.malloc os.socket os.getfl (createSucceeds host port connect os)
      (s.create host port connect os) := by
  unfold create createSucceeds
  rw [allocSlot_concat hfree]
  simp only [Nat.ne_of_lt i.isLt, if_false, ref_val, bind_of_ok, pure_is_ok]
  by_cases haddr : (resolveHost os.getaddrinfo host port true).valid = true
  case neg =>
    -- the address is looked up before the socket is made
    simp only [haddr, Bool.not_false, if_true, Bool.false_and]
    exact .fail (opening_allocBuffer hfree) (allocBuffer_conn s rest i os.malloc)
      (Or.inl (allocBuffer_sockets s rest i os.malloc)) .invalidAddr nofun
  by_cases hsock : os.socket = -1
  case pos =>
    simp only [haddr, hsock, Bool.not_true, Bool.false_eq_true, if_false, if_true,
      bne_self_eq_false, Bool.and_false, Bool.false_and]
    exact .noSocket hfree os.malloc os.getfl
  simp only [haddr, hsock, Bool.not_true, Bool.false_eq_true, if_false, bne_iff_ne.mpr hsock,
    Bool.true_and]
  cases connect with
  | true =>
      cases hconnect : os.connect with
      | false => exact .unused hfree hsock os.malloc os.getfl nofun
      | true =>
          exact .connected hfree hsock os.malloc os.getfl fun _ =>
            resolveHost os.getaddrinfo host port true
  | false =>
      cases hbind : os.bind with
      | false => exact .unused hfree hsock os.malloc os.getfl nofun
      | true =>
          exact .connected hfree hsock os.malloc os.getfl fun _ =>
            resolveHost os.getaddrinfo host port true

/-- **`serve` takes the slot at the back of the free list.** -/
theorem serve_launch (hfree : s.freeIndices = rest ++ [i.val]) (port : Nat) (os : OpenAnswers) :
    Launch s i os.malloc os.socket os.getfl (serveSucceeds os) (s.serve port os) := by
  unfold serve serveSucceeds
  rw [allocSlot_concat hfree]
  simp only [Nat.ne_of_lt i.isLt, if_false, ref_val, bind_of_ok, pure_is_ok]
  by_cases hsock : os.socket = -1
  case pos =>
    simp only [hsock, if_true, bne_self_eq_false, Bool.false_and]
    exact .noSocket hfree os.malloc os.getfl
  simp only [hsock, if_false, bne_iff_ne.mpr hsock, Bool.true_and]
  cases hbind : os.bind with
  | false => exact .unused hfree hsock os.malloc os.getfl nofun
  | true => exact .connected hfree hsock os.malloc os.getfl fun t' => (t'.conns i).fromAddr

end Exits

/-! ### In any state

A call that returns has found no slot that it can use, or it has taken one.
-/

theorem create_outside {s s' : Process} {rest : List Nat} {number index : Nat}
    (hfree : s.freeIndices = rest ++ [number]) (hge : ¬ number < maxConnections)
    {host port : String} {connect : Bool} {os : OpenAnswers}
    (h : s.create host port connect os = .ok (index, s')) :
    s' = { s with freeIndices := rest } := by
  unfold create at h
  rw [allocSlot_concat hfree] at h
  dsimp only at h
  split at h
  · cases h
    rfl
  · obtain ⟨conn, hconn, -⟩ := bind_returns.mp h
    exact absurd (ref_eq_ok.mp hconn ▸ conn.isLt) hge

theorem serve_outside {s s' : Process} {rest : List Nat} {number index : Nat}
    (hfree : s.freeIndices = rest ++ [number]) (hge : ¬ number < maxConnections) {port : Nat}
    {os : OpenAnswers} (h : s.serve port os = .ok (index, s')) :
    s' = { s with freeIndices := rest } := by
  unfold serve at h
  rw [allocSlot_concat hfree] at h
  dsimp only at h
  split at h
  · cases h
    rfl
  · obtain ⟨conn, hconn, -⟩ := bind_returns.mp h
    exact absurd (ref_eq_ok.mp hconn ▸ conn.isLt) hge

theorem create_cases {s s' : Process} {host port : String} {connect : Bool} {os : OpenAnswers}
    {index : Nat} (h : s.create host port connect os = .ok (index, s')) :
    (∃ l, s' = { s with freeIndices := l }) ∨
      ∃ i, Launch s i os.malloc os.socket os.getfl (createSucceeds host port connect os)
        (.ok (index, s')) := by
  rcases freeIndices_cases s with hnil | ⟨rest, i, hfree⟩ | ⟨rest, number, hfree, hge⟩
  · rw [create_nil hnil] at h
    cases h
    exact Or.inl ⟨_, rfl⟩
  · exact Or.inr ⟨i, h ▸ create_launch hfree host port connect os⟩
  · exact Or.inl ⟨rest, create_outside hfree hge h⟩

theorem serve_cases {s s' : Process} {port : Nat} {os : OpenAnswers} {index : Nat}
    (h : s.serve port os = .ok (index, s')) :
    (∃ l, s' = { s with freeIndices := l }) ∨
      ∃ i, Launch s i os.malloc os.socket os.getfl (serveSucceeds os) (.ok (index, s')) := by
  rcases freeIndices_cases s with hnil | ⟨rest, i, hfree⟩ | ⟨rest, number, hfree, hge⟩
  · rw [serve_nil hnil] at h
    cases h
    exact Or.inl ⟨_, rfl⟩
  · exact Or.inr ⟨i, h ▸ serve_launch hfree port os⟩
  · exact Or.inl ⟨rest, serve_outside hfree hge h⟩

/-! ### Both functions return

Only `init_socket` can go wrong, by indexing `conns_` with a descriptor that is
no slot index.
-/

/-- `init_socket` stays inside `conns_`. -/
def InitInBounds (os : OpenAnswers) : Prop :=
  os.getfl = true ∨ os.socket < maxConnections

theorem toUnsigned_of_bounds {bits : Nat} {x : Int} (h0 : 0 ≤ x) (hlt : x < 2 ^ bits) :
    toUnsigned bits x = x.toNat := by
  unfold toUnsigned
  rw [Int.emod_eq_of_lt h0 hlt]

theorem initSocket_returns (t : Process) {fd : Int} {getfl : Bool} (hfd : -1 ≤ fd)
    (hne : fd ≠ -1) (h : getfl = true ∨ fd < maxConnections) :
    ∃ t', t.initSocket fd getfl = .ok t' := by
  unfold initSocket
  cases getfl with
  | true => exact ⟨t, rfl⟩
  | false =>
      have hlt : fd < maxConnections := h.resolve_left Bool.false_ne_true
      have h1024 : (maxConnections : Int) = 1024 := by rw [maxConnections_eq]; rfl
      have hidx : toUnsigned 64 fd = fd.toNat :=
        toUnsigned_of_bounds (by omega) (by rw [h1024] at hlt; omega)
      have hslot : toUnsigned 64 fd < maxConnections := by rw [hidx]; omega
      refine ⟨t.setError ⟨toUnsigned 64 fd, hslot⟩ .asyncifyFailed, ?_⟩
      show (ref (toUnsigned 64 fd) >>= fun conn => _) = _
      rw [show ref (toUnsigned 64 fd) = .ok ⟨toUnsigned 64 fd, hslot⟩ from ref_eq_ok.mpr rfl]
      rfl

theorem Launch.returns {s : Process} {i : Fin maxConnections} {a : Alloc} {fd : Int}
    {getfl done : Bool} {r : Except Fault (Nat × Process)} (h : Launch s i a fd getfl done r)
    (hfd : -1 ≤ fd) (hne : done = true → fd ≠ -1) (hb : getfl = true ∨ fd < maxConnections) :
    ∃ p, r = .ok p := by
  cases h with
  | fail _ _ _ _ _ => exact ⟨_, rfl⟩
  | finish ht _ _ addr =>
      obtain ⟨t', ht'⟩ := initSocket_returns _ hfd (hne rfl) hb
      rw [ht']
      exact ⟨_, rfl⟩

theorem ne_of_createSucceeds {host port : String} {connect : Bool} {os : OpenAnswers}
    (h : createSucceeds host port connect os = true) : os.socket ≠ -1 := by
  rw [createSucceeds, Bool.and_eq_true, Bool.and_eq_true] at h
  exact bne_iff_ne.mp h.1.2

theorem ne_of_serveSucceeds {os : OpenAnswers} (h : serveSucceeds os = true) :
    os.socket ≠ -1 := by
  rw [serveSucceeds, Bool.and_eq_true] at h
  exact bne_iff_ne.mp h.1

end Ytl.Udp.Process
