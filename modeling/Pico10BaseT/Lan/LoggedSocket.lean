import Pico10BaseT.Lan.TcpServers

/-!
# A socket with a log of what is written to it

`LoggedSocket σ` is a TCP socket with the bytes that went into its transmit buffer since it last
listened, which are the bytes the peer gets on its connection.  A server on it runs as it does on
the socket alone (`exists_logged`), so that what it writes can be stated without a change to the
server.

`SentAt` is where a server stands with its response: it has begun none, has queued a part of one,
or has queued a whole one and closed.  The events of a socket keep it (`SentAt.event`), so a server
keeps it in every run if its calls do (`run_sentAt`).
-/

namespace Pico10BaseT

open TcpSocketOps

/-- A socket with what was written to it since it last listened. -/
structure LoggedSocket (σ : Type) where
  socket : σ
  written : List UInt8

namespace LoggedSocket

variable {σ : Type} [TcpSocketOps σ]

instance : TcpSocketOps (LoggedSocket σ) where
  state s := state s.socket
  unread s := unread s.socket
  sendQueue s := sendQueue s.socket
  txCapacity s := txCapacity s.socket
  isOpen s := isOpen s.socket
  mayRecv s := mayRecv s.socket
  maySend s := maySend s.socket
  canRecv s := canRecv s.socket
  canSend s := canSend s.socket
  listen s port := ⟨listen s.socket port, []⟩
  recv s f := (recv s.socket f).map fun r => (r.1, { s with socket := r.2 })
  sendSlice s data :=
    (sendSlice s.socket data).map fun r => (r.1, ⟨r.2, s.written ++ data.take r.1⟩)
  close s := { s with socket := close s.socket }
  event ev s s' := event ev s.socket s'.socket ∧ s'.written = s.written

theorem isOpen_socket (s : LoggedSocket σ) : isOpen s.socket = isOpen s := rfl

theorem mayRecv_socket (s : LoggedSocket σ) : mayRecv s.socket = mayRecv s := rfl

theorem canSend_socket (s : LoggedSocket σ) : canSend s.socket = canSend s := rfl

theorem recv_eq_some {ρ : Type} {s s' : LoggedSocket σ} {f : List UInt8 → ℕ × ρ} {r : ρ} :
    recv s f = some (r, s') ↔ recv s.socket f = some (r, s'.socket) ∧ s'.written = s.written := by
  refine ⟨fun h => ?_, fun ⟨h, hw⟩ => ?_⟩
  · obtain ⟨p, hp, heq⟩ := Option.map_eq_some_iff.1 h
    cases heq
    exact ⟨hp, rfl⟩
  · refine Option.map_eq_some_iff.2 ⟨_, h, ?_⟩
    rw [← hw]

theorem sendSlice_eq_some {s s' : LoggedSocket σ} {data : List UInt8} {n : ℕ} :
    sendSlice s data = some (n, s') ↔
      sendSlice s.socket data = some (n, s'.socket) ∧ s'.written = s.written ++ data.take n := by
  refine ⟨fun h => ?_, fun ⟨h, hw⟩ => ?_⟩
  · obtain ⟨p, hp, heq⟩ := Option.map_eq_some_iff.1 h
    cases heq
    exact ⟨hp, rfl⟩
  · refine Option.map_eq_some_iff.2 ⟨_, h, ?_⟩
    rw [← hw]

theorem recv_eq_none {ρ : Type} {s : LoggedSocket σ} {f : List UInt8 → ℕ × ρ} :
    recv s f = none ↔ recv s.socket f = none := Option.map_eq_none_iff

theorem sendSlice_eq_none {s : LoggedSocket σ} {data : List UInt8} :
    sendSlice s data = none ↔ sendSlice s.socket data = none := Option.map_eq_none_iff

instance [LawfulTcpSocket σ] : LawfulTcpSocket (LoggedSocket σ) where
  isOpen_iff s := LawfulTcpSocket.isOpen_iff s.socket
  mayRecv_iff s := LawfulTcpSocket.mayRecv_iff s.socket
  maySend_iff s := LawfulTcpSocket.maySend_iff s.socket
  canRecv_iff s := LawfulTcpSocket.canRecv_iff s.socket
  canSend_iff s := LawfulTcpSocket.canSend_iff s.socket
  txCapacity_pos s := LawfulTcpSocket.txCapacity_pos s.socket
  listen_closed s := LawfulTcpSocket.listen_closed s.socket
  recv_none s f h := LawfulTcpSocket.recv_none s.socket f (recv_eq_none.1 h)
  recv_some s s' f r h := LawfulTcpSocket.recv_some s.socket s'.socket f r (recv_eq_some.1 h).1
  sendSlice_some s s' data n h :=
    LawfulTcpSocket.sendSlice_some s.socket s'.socket data n (sendSlice_eq_some.1 h).1
  state_close s := LawfulTcpSocket.state_close s.socket
  event_spec ev s s' h := LawfulTcpSocket.event_spec ev s.socket s'.socket h.1

end LoggedSocket

/-- The server without the log. -/
def Server.erase {σ τ : Type} (c : Server (LoggedSocket σ) τ) : Server σ τ :=
  ⟨c.socket.socket, c.vars⟩

theorem Server.socket_erase {σ τ : Type} (c : Server (LoggedSocket σ) τ) :
    c.erase.socket = c.socket.socket := rfl

theorem Server.vars_erase {σ τ : Type} (c : Server (LoggedSocket σ) τ) :
    c.erase.vars = c.vars := rfl

section Runs

variable {σ τ π : Type} [TcpSocketOps σ]

/-- A server on a fresh socket to which nothing has been written. -/
def loggedSystem (vars : τ) (serve : π → Server (LoggedSocket σ) τ → Server (LoggedSocket σ) τ) :
    System (Server (LoggedSocket σ) τ) (ServerEvent π) where
  init c := (serverSystem vars serve).init c ∧ c.socket.written = []
  step := ServerStep serve

/-- **The log changes nothing**: what runs on the socket alone runs on a logged one. -/
theorem exists_logged {vars : τ} (serve : π → Server σ τ → Server σ τ)
    (serve' : π → Server (LoggedSocket σ) τ → Server (LoggedSocket σ) τ)
    (hserve : ∀ x c, (serve' x c).erase = serve x c.erase) {evs : List (ServerEvent π)}
    {c : Server σ τ} (h : (serverSystem vars serve).Run evs c) :
    ∃ c', (loggedSystem vars serve').Run evs c' ∧ c'.erase = c := by
  induction h with
  | @init c hinit => exact ⟨⟨⟨c.socket, []⟩, c.vars⟩, .init ⟨hinit, rfl⟩, rfl⟩
  | snoc _ hst ih =>
    obtain ⟨c', hrun, rfl⟩ := ih
    cases hst with
    | net ev socket hev =>
      exact ⟨⟨⟨socket, c'.socket.written⟩, c'.vars⟩, hrun.snoc (.net ev _ ⟨hev, rfl⟩), rfl⟩
    | call x => exact ⟨serve' x c', hrun.snoc (.call x), hserve x c'⟩

/-! ### Where a server stands with its response -/

/-- When a server has begun no response, and when it still has to queue `rest` of one. -/
structure Phases (τ : Type) where
  idle : τ → Prop
  sending : τ → List UInt8 → Prop

/-- Nothing, or a part of a response that satisfies `W`. -/
def PartOf (W : List UInt8 → Prop) (w : List UInt8) : Prop := w = [] ∨ ∃ r, W r ∧ w <+: r

/-- Where a server stands, responses being the byte strings that satisfy `W`. -/
inductive SentAt (W : List UInt8 → Prop) (ph : Phases τ) (c : Server (LoggedSocket σ) τ) : Prop
  | fresh (hst : state c.socket = .listen ∨ (state c.socket).OwnSideOpen) (hidle : ph.idle c.vars)
      (hw : c.socket.written = []) (hq : sendQueue c.socket = 0)
  | streaming (rest : List UInt8) (hst : state c.socket = .established ∨ state c.socket = .closeWait)
      (hvars : ph.sending c.vars rest) (hw : W (c.socket.written ++ rest))
  | ended (hst : (state c.socket).OwnSideClosed ∨ state c.socket = .timeWait)
      (hidle : ph.idle c.vars) (hw : W c.socket.written)
  | down (hst : state c.socket = .closed) (hw : PartOf W c.socket.written)

variable {W W' : List UInt8 → Prop} {ph : Phases τ} {c : Server (LoggedSocket σ) τ}

theorem PartOf.of_whole {w : List UInt8} (h : W w) : PartOf W w := .inr ⟨w, h, List.prefix_rfl⟩

theorem PartOf.mono {w : List UInt8} (h : PartOf W w) (hW : ∀ r, W r → W' r) : PartOf W' w :=
  h.imp_right fun ⟨r, hr, hpart⟩ => ⟨r, hW r hr, hpart⟩

theorem SentAt.mono (h : SentAt W ph c) (hW : ∀ r, W r → W' r) : SentAt W' ph c := by
  cases h with
  | fresh hst hidle hw hq => exact .fresh hst hidle hw hq
  | streaming rest hst hvars hw => exact .streaming rest hst hvars (hW _ hw)
  | ended hst hidle hw => exact .ended hst hidle (hW _ hw)
  | down hst hw => exact .down hst (hw.mono hW)

theorem SentAt.part (h : SentAt W ph c) : PartOf W c.socket.written := by
  cases h with
  | fresh _ _ hw => exact .inl hw
  | streaming rest _ _ hw => exact .inr ⟨_, hw, List.prefix_append _ _⟩
  | ended _ _ hw => exact .of_whole hw
  | down _ hw => exact hw

/-- A server that has closed its side has queued a whole response. -/
theorem SentAt.whole (h : SentAt W ph c)
    (hst : (state c.socket).OwnSideClosed ∨ state c.socket = .timeWait) : W c.socket.written := by
  cases h with
  | ended _ _ hw => exact hw
  | fresh hst' =>
    rcases hst' with hst' | hst' | hst' | hst' <;>
      simp [hst', SocketState.OwnSideClosed] at hst
  | streaming _ hst' => rcases hst' with hst' | hst' <;> simp [hst', SocketState.OwnSideClosed] at hst
  | down hst' => simp [hst', SocketState.OwnSideClosed] at hst

variable [LawfulTcpSocket σ]

/-- The network takes bytes out of the transmit buffer, and ends connections. -/
theorem SentAt.event (h : SentAt W ph c) {ev : SocketEvent} {s : LoggedSocket σ}
    (hev : TcpSocketOps.event ev c.socket s) : SentAt W ph { c with socket := s } := by
  obtain ⟨hmem, -, hqueue⟩ := LawfulTcpSocket.event_spec _ _ _ hev
  have hwritten : s.written = c.socket.written := hev.2
  cases h with
  | fresh hst hidle hw hq =>
    have hnone : s.written = [] := hwritten.trans hw
    rcases hst with hst | hst
    · rw [hst] at hmem
      exact .fresh (.inr (.inl (SocketState.after_listen hmem).2)) hidle hnone
        (Nat.le_zero.1 (hq ▸ hqueue))
    · rcases hst.after hmem with ⟨-, hst' | ⟨hst', -⟩⟩ | ⟨-, hst'⟩
      · exact .down hst' (.inl hnone)
      · exact .fresh (.inl hst') hidle hnone (Nat.le_zero.1 (hq ▸ hqueue))
      · exact .fresh (.inr (.inr hst')) hidle hnone (Nat.le_zero.1 (hq ▸ hqueue))
  | streaming rest hst hvars hw =>
    rw [← hwritten] at hw
    have hopen : (state c.socket).OwnSideOpen := .inr hst
    rcases hopen.after hmem with ⟨-, hst' | ⟨-, hsyn⟩⟩ | ⟨-, hst'⟩
    · exact .down hst' (.inr ⟨_, hw, List.prefix_append _ _⟩)
    · rcases hst with hst | hst <;> rw [hst] at hsyn <;> cases hsyn
    · exact .streaming rest hst' hvars hw
  | ended hst hidle hw =>
    rw [← hwritten] at hw
    rcases hst with hst | hst
    · rcases hst.after hmem with hst' | hst' | hst'
      · exact .ended (.inl hst') hidle hw
      · exact .down hst' (.of_whole hw)
      · exact .ended (.inr hst') hidle hw
    · exact .down (SocketState.after_of_down (.inr hst) hmem) (.of_whole hw)
  | down hst hw =>
    exact .down (SocketState.after_of_down (.inl hst) hmem) (hwritten ▸ hw)

/-- **A server keeps it** in every run if its calls do.  The responses may grow with the run. -/
theorem run_sentAt {vars : τ} {serve : π → Server (LoggedSocket σ) τ → Server (LoggedSocket σ) τ}
    {W : List (ServerEvent π) → List UInt8 → Prop}
    (hmono : ∀ evs ev r, W evs r → W (evs ++ [ev]) r)
    (hserve : ∀ evs x c, SentAt (W (evs ++ [.call x])) ph c →
      SentAt (W (evs ++ [.call x])) ph (serve x c)) {evs : List (ServerEvent π)}
    (h : (loggedSystem vars serve).Run evs c) : SentAt (W evs) ph c := by
  refine h.induction (J := fun evs c => SentAt (W evs) ph c)
    (fun c hinit => .down hinit.1.1 (.inl hinit.2)) fun evs c ev c' _ ih hst => ?_
  have hgrown : SentAt (W (evs ++ [ev])) ph c := ih.mono fun r hr => hmono evs ev r hr
  cases hst with
  | net ev s hev => exact hgrown.event hev
  | call x => exact hserve evs x c hgrown

end Runs

/-! ### Filling the transmit buffer -/

/-- A transmit buffer of `cap` bytes takes as much of a slice as it has room for. -/
structure TxBuffer (σ : Type) [TcpSocketOps σ] (cap : ℕ) : Prop where
  txCapacity : ∀ s : σ, TcpSocketOps.txCapacity s = cap
  sendSlice : ∀ (s : σ) (data : List UInt8), maySend s = true → ∃ s',
    TcpSocketOps.sendSlice s data = some (min data.length (cap - sendQueue s), s') ∧
      sendQueue s' = sendQueue s + min data.length (cap - sendQueue s)

section Buffer

variable {σ : Type} [TcpSocketOps σ] {cap : ℕ}

theorem TxBuffer.logged (h : TxBuffer σ cap) : TxBuffer (LoggedSocket σ) cap where
  txCapacity s := h.txCapacity s.socket
  sendSlice s data hmay := by
    obtain ⟨s', hs, hq⟩ := h.sendSlice s.socket data hmay
    exact ⟨⟨s', _⟩, LoggedSocket.sendSlice_eq_some.2 ⟨hs, rfl⟩, hq⟩

variable [LawfulTcpSocket σ] {s : LoggedSocket σ}

/-- What fits is written whole. -/
theorem TxBuffer.sendIgnore (h : TxBuffer σ cap) (data : List UInt8) (hmay : maySend s = true)
    (hfit : sendQueue s + data.length ≤ cap) :
    (sendIgnore s data).written = s.written ++ data ∧
      sendQueue (sendIgnore s data) = sendQueue s + data.length ∧
      state (sendIgnore s data) = state s := by
  obtain ⟨s', hs, hq⟩ := h.logged.sendSlice s data hmay
  rw [Nat.min_eq_left (by omega)] at hs hq
  have hw := (LoggedSocket.sendSlice_eq_some.1 hs).2
  rw [List.take_length] at hw
  have hst := state_sendIgnore s data
  rw [Pico10BaseT.sendIgnore, hs] at hst ⊢
  exact ⟨hw, hq, hst⟩

/-- Two slices that fit together. -/
theorem TxBuffer.sendIgnore_two (h : TxBuffer σ cap) {a b : List UInt8} (hmay : maySend s = true)
    (hfit : sendQueue s + (a.length + b.length) ≤ cap) :
    (Pico10BaseT.sendIgnore (Pico10BaseT.sendIgnore s a) b).written = s.written ++ (a ++ b) ∧
      state (Pico10BaseT.sendIgnore (Pico10BaseT.sendIgnore s a) b) = state s := by
  obtain ⟨hw, hq, hst⟩ := h.sendIgnore a hmay (by omega)
  have hmay' : maySend (Pico10BaseT.sendIgnore s a) = true := by
    rw [LawfulTcpSocket.maySend_iff] at hmay ⊢
    rwa [hst]
  obtain ⟨hw', -, hst'⟩ := h.sendIgnore b hmay' (by omega)
  exact ⟨by rw [hw', hw, List.append_assoc], hst'.trans hst⟩

/-- The loop of `/bulk` writes filler, as much as it counts off. -/
theorem written_bulkLoop (remaining : ℕ) (s : LoggedSocket σ) (txBytes : UInt32) :
    (bulkLoop remaining s txBytes).1 ≤ remaining ∧
      (bulkLoop remaining s txBytes).2.1.written =
        s.written ++ List.replicate (remaining - (bulkLoop remaining s txBytes).1) 0x55 := by
  fun_induction bulkLoop remaining s txBytes with
  | case1 => simp
  | case2 remaining s txBytes hmore s' hs =>
    have hw := (LoggedSocket.sendSlice_eq_some.1 hs).2
    simpa using hw
  | case3 remaining s txBytes hmore sent s' hs ih =>
    have hw := (LoggedSocket.sendSlice_eq_some.1 hs).2
    have hle := (LawfulTcpSocket.sendSlice_some _ _ _ _ hs).1
    have hchunk : bulkChunk.take (min remaining bulkChunk.length) =
        List.replicate (min remaining 1024) 0x55 := by
      rw [bulkChunk, List.length_replicate, List.take_replicate,
        Nat.min_eq_left (Nat.min_le_right _ _)]
    rw [hchunk, List.length_replicate] at hle
    rw [hchunk, List.take_replicate, Nat.min_eq_left hle] at hw
    obtain ⟨hlast, hwritten⟩ := ih
    refine ⟨by omega, ?_⟩
    rw [hwritten, hw, List.append_assoc, List.replicate_append_replicate]
    congr 2
    omega
  | case4 => simp

end Buffer

end Pico10BaseT
