import Pico10BaseT.LTS.Basic
import Pico10BaseT.Lan.TcpSocket

/-!
# The TCP servers of the LAN

`net_task` calls `serve_lan_sink` and `serve_status_http` once per turn, each on a socket of its
own.  Both listen again when they find the socket closed.  The sink closes its side once the peer
has sent its FIN and every byte is drained.  The HTTP server closes only after an answer: a peer
that sends its FIN before any byte leaves it in CLOSE-WAIT, where a call changes nothing
(`serveStatusHttp_silent`), until the peer resets the connection (`silent_path`).  Any other peer
is served when its FIN is there (`lanServers_park_iff`).
-/

namespace Pico10BaseT

open TcpSocketOps

/-! ### The servers -/

/-- `/bulk` download size. -/
def lanBulkBytes : ℕ := 8 * 1024 * 1024

/-- Upload sink port. -/
def lanSinkPort : UInt16 := 9999

/-- LAN HTTP state, so `/bulk` can stream across many polls. -/
inductive LanHttp
  /-- Listening, or the request hasn't been routed yet. -/
  | idle
  /-- `/bulk` in flight.  The header waits for a poll where the socket can send. -/
  | bulk (remaining : ℕ) (headerSent : Bool)
  deriving DecidableEq, Repr

/-- A socket and what its server keeps. -/
structure Server (σ τ : Type) where
  socket : σ
  vars : τ
  deriving DecidableEq

/-- The state of the HTTP server and `LAN_BULK_TX_BYTES`. -/
structure HttpVars where
  state : LanHttp
  txBytes : UInt32
  deriving DecidableEq

/-- The bytes of an ASCII text. -/
def asciiBytes (s : String) : List UInt8 := s.toList.map fun c => c.toNat.toUInt8

variable {σ : Type} [TcpSocketOps σ]

/-- Drain and count all available RX.  The fuel is the size of the receive buffer. -/
def drainSink : ℕ → Server σ UInt32 → Server σ UInt32
  | 0, c => c
  | fuel + 1, c =>
    if canRecv c.socket then
      match recv c.socket fun buf => (buf.length, buf.length) with
      | none => c
      | some (0, socket) => { c with socket }
      | some (n, socket) => drainSink fuel ⟨socket, c.vars + n.toUInt32⟩
    else c

/-- Upload sink; the variable is `LAN_SINK_RX_BYTES`. -/
def serveLanSink (c : Server σ UInt32) : Server σ UInt32 :=
  if isOpen c.socket then
    let c := drainSink (unread c.socket).length c
    -- Peer sent FIN and we've drained it (CLOSE_WAIT).
    if !mayRecv c.socket && maySend c.socket then { c with socket := close c.socket } else c
  else { c with socket := listen c.socket lanSinkPort }

/-- `let _ = socket.send_slice(data)`. -/
def sendIgnore (s : σ) (data : List UInt8) : σ :=
  match sendSlice s data with
  | none => s
  | some (_, s) => s

/-- 1 KB of filler. -/
def bulkChunk : List UInt8 := List.replicate 1024 0x55

def bulkHead : List UInt8 :=
  asciiBytes "HTTP/1.0 200 OK\r\nContent-Type: application/octet-stream\r\nContent-Length: " ++
    asciiBytes (toString lanBulkBytes) ++ asciiBytes "\r\nConnection: close\r\n\r\n"

def statusHead (bodyLen : ℕ) : List UInt8 :=
  asciiBytes "HTTP/1.0 200 OK\r\nContent-Type: text/plain\r\nContent-Length: " ++
    asciiBytes (toString bodyLen) ++ asciiBytes "\r\nConnection: close\r\n\r\n"

/-- Top up the TX buffer: what remains of the body, the socket and the count. -/
def bulkLoop (remaining : ℕ) (s : σ) (txBytes : UInt32) : ℕ × σ × UInt32 :=
  if 0 < remaining ∧ canSend s then
    match sendSlice s (bulkChunk.take (min remaining bulkChunk.length)) with
    | none => (remaining, s, txBytes)
    | some (0, s) => (remaining, s, txBytes)
    | some (sent + 1, s) => bulkLoop (remaining - (sent + 1)) s (txBytes + (sent + 1).toUInt32)
  else (remaining, s, txBytes)
termination_by remaining

/-- Continue `/bulk`: header once, then top up the TX buffer each poll. -/
def continueBulk (remaining : ℕ) (headerSent : Bool) (c : Server σ HttpVars) :
    Server σ HttpVars :=
  if !headerSent && !canSend c.socket then c -- retry next poll
  else
    let socket := if headerSent then c.socket else sendIgnore c.socket bulkHead
    match bulkLoop remaining socket c.vars.txBytes with
    | (0, socket, txBytes) => ⟨close socket, .idle, txBytes⟩
    | (remaining, socket, txBytes) => ⟨socket, .bulk remaining true, txBytes⟩

/-- Take the request, if there is any: `have_req` and `route_bulk`. -/
def takeRequest (s : σ) : (Bool × Bool) × σ :=
  if mayRecv s then
    match recv s fun buf => (buf.length, !buf.isEmpty, (asciiBytes "GET /bulk").isPrefixOf buf) with
    | none => ((false, false), s)
    | some (flags, s) => (flags, s)
  else ((false, false), s)

/-- The one-shot status page. -/
def sendStatus (page : List UInt8) (s : σ) : σ :=
  if canSend s then close (sendIgnore (sendIgnore s (statusHead page.length)) page) else s

/-- LAN mgmt HTTP.  `page` is the text of the status page at this call. -/
def serveStatusHttp (page : List UInt8) (c : Server σ HttpVars) : Server σ HttpVars :=
  if isOpen c.socket then
    match c.vars.state with
    | .bulk remaining headerSent => continueBulk remaining headerSent c
    | .idle =>
      match takeRequest c.socket with
      | ((false, _), socket) => { c with socket } -- respond only once the request has arrived
      | ((true, true), socket) => ⟨socket, .bulk lanBulkBytes false, c.vars.txBytes⟩
      | ((true, false), socket) => { c with socket := sendStatus page socket }
  else ⟨listen c.socket 80, .idle, c.vars.txBytes⟩

/-! ### Runs -/

/-- A call of the server, with what it reads, or an event of its socket. -/
inductive ServerEvent (π : Type)
  | net (ev : SocketEvent)
  | call (x : π)
  deriving DecidableEq

variable {τ π : Type}

inductive ServerStep (serve : π → Server σ τ → Server σ τ) :
    Server σ τ → ServerEvent π → Server σ τ → Prop
  | net {c} (ev socket) (h : event ev c.socket socket) :
      ServerStep serve c (.net ev) { c with socket }
  | call {c} (x) : ServerStep serve c (.call x) (serve x c)

/-- A server on a fresh socket, under any calls and events. -/
def serverSystem (vars : τ) (serve : π → Server σ τ → Server σ τ) :
    System (Server σ τ) (ServerEvent π) where
  init c := state c.socket = .closed ∧ unread c.socket = [] ∧ c.vars = vars
  step := ServerStep serve

def lanSinkSystem (σ : Type) [TcpSocketOps σ] : System (Server σ UInt32) (ServerEvent Unit) :=
  serverSystem 0 fun _ => serveLanSink

def statusHttpSystem (σ : Type) [TcpSocketOps σ] :
    System (Server σ HttpVars) (ServerEvent (List UInt8)) :=
  serverSystem ⟨.idle, 0⟩ serveStatusHttp

/-- What the peer has done on its connection. -/
structure PeerLog where
  /-- It has sent a byte. -/
  sent : Bool
  /-- It has sent its FIN. -/
  fin : Bool
  deriving DecidableEq

def PeerLog.add (log : PeerLog) : SocketEvent → PeerLog
  | .connect | .rst => ⟨false, false⟩
  | .data bytes => { log with sent := log.sent || !bytes.isEmpty }
  | .fin => { log with fin := true }
  | .ack | .expire => log

/-- The log of the connection that a run ends with. -/
def peerLog (evs : List (ServerEvent π)) : PeerLog :=
  evs.foldl (fun log ev =>
    match ev with
    | .net ev => log.add ev
    | .call _ => log) ⟨false, false⟩

/-- The peer is finished: this side is open, the FIN is there and every byte is consumed. -/
def Finished (log : PeerLog) (s : σ) : Prop :=
  (state s).OwnSideOpen ∧ log.fin ∧ unread s = []

/-- The peer has sent its FIN and nothing else. -/
def Silent (log : PeerLog) (s : σ) : Prop :=
  (state s).OwnSideOpen ∧ log.fin ∧ ¬log.sent

/-- Every FIN comes after a byte of its connection. -/
def FinAfterByte (evs : List (ServerEvent π)) : Prop :=
  ∀ pre post, evs = pre ++ .net .fin :: post → (peerLog pre).sent

/-! ### One call -/

section Lawful

variable [LawfulTcpSocket σ]

/-- What a call may do to the connection. -/
inductive CallMove : SocketState → SocketState → Prop
  | stay {st} : CallMove st st
  | listen {st} (h : st = .closed ∨ st = .timeWait) : CallMove st .listen
  | close {st} : CallMove st st.afterClose

theorem drainSink_spec (fuel : ℕ) (c : Server σ UInt32) (hfuel : (unread c.socket).length ≤ fuel) :
    unread (drainSink fuel c).socket = [] ∧
      state (drainSink fuel c).socket = state c.socket := by
  induction fuel generalizing c with
  | zero => exact ⟨List.eq_nil_of_length_eq_zero (Nat.le_zero.1 hfuel), rfl⟩
  | succ fuel ih =>
    rw [drainSink]
    by_cases hcan : canRecv c.socket
    · rw [if_pos hcan]
      obtain ⟨hmay, hne⟩ := (LawfulTcpSocket.canRecv_iff _).1 hcan
      split
      · rename_i hr
        rw [LawfulTcpSocket.recv_none _ _ hr] at hmay
        cases hmay
      · rename_i s' hr
        obtain ⟨buf, rest, hsplit, hnil, hlen, -⟩ := LawfulTcpSocket.recv_some _ _ _ _ hr
        obtain rfl := List.eq_nil_of_length_eq_zero hlen.symm
        rw [hnil rfl] at hsplit
        exact absurd hsplit hne
      · rename_i n s' hn hr
        obtain ⟨buf, rest, hsplit, hnil, rfl, hst, -, hun⟩ :=
          LawfulTcpSocket.recv_some _ _ _ _ hr
        rw [hsplit, List.drop_left] at hun
        have hpos : 0 < buf.length := Nat.pos_of_ne_zero fun h => hn h
        have hle : (unread s').length ≤ fuel := by
          rw [hsplit, List.length_append] at hfuel
          rw [hun]
          omega
        obtain ⟨hun', hst'⟩ := ih ⟨s', c.vars + buf.length.toUInt32⟩ hle
        exact ⟨hun', hst'.trans hst⟩
    · rw [if_neg hcan]
      refine ⟨?_, rfl⟩
      by_contra hne
      exact hcan ((LawfulTcpSocket.canRecv_iff _).2
        ⟨(LawfulTcpSocket.mayRecv_iff _).2 (.inr hne), hne⟩)

theorem serveLanSink_of_not_open {c : Server σ UInt32} (h : isOpen c.socket = false) :
    state (serveLanSink c).socket = .listen := by
  rw [serveLanSink, h, if_neg Bool.false_ne_true]
  exact (LawfulTcpSocket.listen_closed _ _ h (by decide)).1

/-- An open sink closes exactly when the peer's FIN is there; what it had to read is drained. -/
theorem state_serveLanSink {c : Server σ UInt32} (h : isOpen c.socket = true) :
    state (serveLanSink c).socket =
      if state c.socket = .closeWait then .lastAck else state c.socket := by
  obtain ⟨hun, hst⟩ := drainSink_spec _ c le_rfl
  have hmay := LawfulTcpSocket.mayRecv_iff (drainSink (unread c.socket).length c).socket
  have hsend := LawfulTcpSocket.maySend_iff (drainSink (unread c.socket).length c).socket
  rw [hst, hun] at hmay
  rw [hst] at hsend
  rw [serveLanSink, if_pos h]
  by_cases hcw : state c.socket = .closeWait
  · rw [if_pos (by simp [hcw, hsend, ← Bool.not_eq_true, hmay]), if_pos hcw,
      LawfulTcpSocket.state_close, hst, hcw]
    rfl
  · rw [if_neg, if_neg hcw]
    · exact hst
    · simp only [Bool.and_eq_true, Bool.not_eq_true', ← Bool.not_eq_true, hmay, hsend]
      tauto

/-- The request is whatever the receive buffer offers first; taking it moves nothing else. -/
theorem takeRequest_spec (s : σ) :
    state (takeRequest s).2 = state s ∧ sendQueue (takeRequest s).2 = sendQueue s ∧
      ((takeRequest s).1.1 = true ↔ unread s ≠ []) ∧
      (unread s = [] → unread (takeRequest s).2 = []) := by
  unfold takeRequest
  split
  · rename_i hmay
    split
    · rename_i hr
      rw [LawfulTcpSocket.recv_none _ _ hr] at hmay
      cases hmay
    · rename_i flags s' hr
      obtain ⟨buf, rest, hsplit, hnil, rfl, hst, hq, hun⟩ := LawfulTcpSocket.recv_some _ _ _ _ hr
      refine ⟨hst, hq, ?_, fun h => by rw [hun, h, List.drop_nil]⟩
      have hbuf : unread s = [] ↔ buf = [] := by
        rw [hsplit, List.append_eq_nil_iff]
        exact ⟨fun h => h.1, fun h => ⟨h, hnil h⟩⟩
      simp [hbuf]
  · rename_i hmay
    have hnil : unread s = [] := by
      by_contra hne
      exact hmay ((LawfulTcpSocket.mayRecv_iff _).2 (.inr hne))
    exact ⟨rfl, rfl, by simp [hnil], fun h => h⟩

theorem state_sendIgnore (s : σ) (data : List UInt8) : state (sendIgnore s data) = state s := by
  unfold sendIgnore
  split
  · rfl
  · rename_i n s' hs
    exact (LawfulTcpSocket.sendSlice_some _ _ _ _ hs).2.1

theorem state_bulkLoop (remaining : ℕ) (s : σ) (txBytes : UInt32) :
    state (bulkLoop remaining s txBytes).2.1 = state s := by
  fun_induction bulkLoop remaining s txBytes with
  | case1 => rfl
  | case2 remaining s txBytes hmore s' hs =>
    exact (LawfulTcpSocket.sendSlice_some _ _ _ _ hs).2.1
  | case3 remaining s txBytes hmore sent s' hs ih =>
    exact ih.trans (LawfulTcpSocket.sendSlice_some _ _ _ _ hs).2.1
  | case4 => rfl

/-- `/bulk` stays in flight, or this side closes. -/
theorem continueBulk_cases {c : Server σ HttpVars} {remaining : ℕ} {headerSent : Bool}
    (hc : c.vars.state = .bulk remaining headerSent) :
    (state (continueBulk remaining headerSent c).socket = state c.socket ∧
        (continueBulk remaining headerSent c).vars.state ≠ .idle) ∨
      state (continueBulk remaining headerSent c).socket = (state c.socket).afterClose := by
  unfold continueBulk
  split
  · exact .inl ⟨rfl, by simp [hc]⟩
  · extract_lets socket
    have hsocket : state socket = state c.socket := by
      unfold socket
      split
      · rfl
      · exact state_sendIgnore _ _
    have hloop := state_bulkLoop remaining socket c.vars.txBytes
    split
    · rename_i s' txBytes heq
      rw [heq, hsocket] at hloop
      exact .inr (by rw [LawfulTcpSocket.state_close, hloop])
    · rename_i remaining' s' txBytes hne heq
      rw [heq, hsocket] at hloop
      exact .inl ⟨hloop, by simp⟩

/-- Everything that a call of `serve_status_http` can do. -/
inductive HttpCall (c c' : Server σ HttpVars) : Prop
  | listens (hopen : isOpen c.socket = false) (hst : state c'.socket = .listen)
      (hun : unread c'.socket = []) (hq : sendQueue c'.socket = 0) (hidle : c'.vars.state = .idle)
  | streams (hbulk : c.vars.state ≠ .idle) (hst : state c'.socket = state c.socket)
      (hbulk' : c'.vars.state ≠ .idle)
  | finishes (hbulk : c.vars.state ≠ .idle) (hst : state c'.socket = (state c.socket).afterClose)
  | waits (hidle : c.vars.state = .idle) (hun : unread c.socket = [])
      (hst : state c'.socket = state c.socket) (hun' : unread c'.socket = [])
      (hq : sendQueue c'.socket = sendQueue c.socket) (hidle' : c'.vars.state = .idle)
  | routes (hidle : c.vars.state = .idle) (hun : unread c.socket ≠ [])
      (hst : state c'.socket = state c.socket) (hbulk : c'.vars.state = .bulk lanBulkBytes false)
  | answers (hidle : c.vars.state = .idle) (hun : unread c.socket ≠ [])
      (hst : state c'.socket = (state c.socket).afterClose)
  /-- The request is taken and lost. -/
  | blocked (hidle : c.vars.state = .idle) (hun : unread c.socket ≠ [])
      (hst : state c'.socket = state c.socket)
      (hsend : ¬((state c.socket = .established ∨ state c.socket = .closeWait) ∧
        sendQueue c.socket = 0))

theorem serveStatusHttp_cases (page : List UInt8) (c : Server σ HttpVars) :
    HttpCall c (serveStatusHttp page c) := by
  by_cases hopen : isOpen c.socket
  · rw [serveStatusHttp, if_pos hopen]
    split
    · rename_i remaining headerSent hc
      have hbulk : c.vars.state ≠ .idle := by simp [hc]
      rcases continueBulk_cases hc with ⟨hst, hbulk'⟩ | hst
      · exact .streams hbulk hst hbulk'
      · exact .finishes hbulk hst
    · rename_i hidle
      obtain ⟨hst, hq, hreq, hnil⟩ := takeRequest_spec c.socket
      split
      · rename_i flag s' heq
        rw [heq] at hst hq hreq hnil
        have hun : unread c.socket = [] := by simpa using hreq
        exact .waits hidle hun hst (hnil hun) hq hidle
      · rename_i s' heq
        rw [heq] at hst hreq
        exact .routes hidle (hreq.1 rfl) hst rfl
      · rename_i s' heq
        rw [heq] at hst hq hreq
        have hun := hreq.1 rfl
        by_cases hcan : canSend s'
        · refine .answers hidle hun ?_
          simp only [sendStatus, hcan, if_true, LawfulTcpSocket.state_close, state_sendIgnore, hst]
        · refine .blocked hidle hun (by simpa [sendStatus, hcan] using hst) ?_
          rintro ⟨hstate, hq0⟩
          refine hcan ?_
          rw [← hst] at hstate
          refine (LawfulTcpSocket.canSend_iff _).2 ⟨(LawfulTcpSocket.maySend_iff _).2 hstate, ?_⟩
          rw [show sendQueue s' = 0 from hq.trans hq0]
          exact LawfulTcpSocket.txCapacity_pos _
  · have hclosed := Bool.eq_false_iff.2 hopen
    obtain ⟨hst, hun, hq⟩ := LawfulTcpSocket.listen_closed c.socket 80 hclosed (by decide)
    rw [serveStatusHttp, if_neg hopen]
    exact .listens hclosed hst hun hq rfl

omit [LawfulTcpSocket σ] in
theorem HttpCall.state_cases {c c' : Server σ HttpVars} (h : HttpCall c c') :
    (isOpen c.socket = false ∧ state c'.socket = .listen ∧ unread c'.socket = [] ∧
        sendQueue c'.socket = 0 ∧ c'.vars.state = .idle) ∨
      state c'.socket = state c.socket ∨ state c'.socket = (state c.socket).afterClose := by
  cases h with
  | listens hopen hst hun hq hidle => exact .inl ⟨hopen, hst, hun, hq, hidle⟩
  | streams _ hst | waits _ _ hst | routes _ _ hst | blocked _ _ hst => exact .inr (.inl hst)
  | finishes _ hst | answers _ _ hst => exact .inr (.inr hst)

theorem CallMove.of_httpCall {c c' : Server σ HttpVars} (h : HttpCall c c') :
    CallMove (state c.socket) (state c'.socket) := by
  rcases h.state_cases with ⟨hclosed, hst, -⟩ | hst | hst
  · rw [hst]
    exact .listen (LawfulTcpSocket.isOpen_eq_false_iff.1 hclosed)
  · rw [hst]
    exact .stay
  · rw [hst]
    exact .close

theorem CallMove.serveLanSink (c : Server σ UInt32) :
    CallMove (state c.socket) (state (serveLanSink c).socket) := by
  by_cases hopen : isOpen c.socket
  · rw [state_serveLanSink hopen]
    split
    · rename_i hcw
      rw [hcw]
      exact .close
    · exact .stay
  · have hclosed := Bool.eq_false_iff.2 hopen
    rw [serveLanSink_of_not_open hclosed]
    exact .listen (LawfulTcpSocket.isOpen_eq_false_iff.1 hclosed)

/-! ### The log of the peer -/

@[simp] theorem peerLog_net (evs : List (ServerEvent π)) (ev : SocketEvent) :
    peerLog (evs ++ [.net ev]) = (peerLog evs).add ev := by
  simp [peerLog]

@[simp] theorem peerLog_call (evs : List (ServerEvent π)) (x : π) :
    peerLog (evs ++ [.call x]) = peerLog evs := by
  simp [peerLog]

/-- While this side is open, the FIN of the peer is there exactly in CLOSE-WAIT. -/
theorem fin_iff_closeWait {vars : τ} {serve : π → Server σ τ → Server σ τ}
    (hserve : ∀ x c, CallMove (state c.socket) (state (serve x c).socket))
    {evs : List (ServerEvent π)} {c : Server σ τ} (h : (serverSystem vars serve).Run evs c)
    (hopen : (state c.socket).OwnSideOpen) :
    (peerLog evs).fin = true ↔ state c.socket = .closeWait := by
  refine h.induction (J := fun evs c => (state c.socket).OwnSideOpen →
    ((peerLog evs).fin = true ↔ state c.socket = .closeWait)) ?_ ?_ hopen
  · intro c hinit hopen
    rw [hinit.1] at hopen
    exact absurd hopen (by decide)
  · intro evs c ev c' _ ih hst hopen
    cases hst with
    | net ev s' hev =>
      have hmem := (LawfulTcpSocket.event_spec _ _ _ hev).1
      rw [peerLog_net]
      rcases SocketState.ownSideOpen_after hmem hopen with
        ⟨rfl, hs'⟩ | ⟨rfl, hs'⟩ | ⟨hev, hopen', hiff⟩
      · simp [PeerLog.add, hs']
      · simp [PeerLog.add, hs']
      · have hfin : ((peerLog evs).add ev).fin = (peerLog evs).fin := by
          rcases hev with ⟨bytes, rfl⟩ | rfl <;> rfl
        rw [hfin, ih hopen', hiff]
    | call x =>
      rw [peerLog_call]
      generalize hs' : state (serve x c).socket = st at hopen ⊢
      have hmove := hserve x c
      rw [hs'] at hmove
      cases hmove with
      | stay => exact ih hopen
      | listen => exact absurd hopen (by decide)
      | close => exact absurd hopen (SocketState.not_ownSideOpen_afterClose _)

theorem finAfterByte_nil : FinAfterByte ([] : List (ServerEvent π)) := by
  intro pre post heq
  simp at heq

theorem finAfterByte_snoc {evs : List (ServerEvent π)} {ev : ServerEvent π} :
    FinAfterByte (evs ++ [ev]) ↔ FinAfterByte evs ∧ (ev = .net .fin → (peerLog evs).sent) := by
  constructor
  · intro h
    refine ⟨fun pre post heq => h pre (post ++ [ev]) (by simp [heq]), ?_⟩
    rintro rfl
    exact h evs [] rfl
  · rintro ⟨h, hlast⟩ pre post heq
    rcases List.eq_nil_or_concat post with rfl | ⟨post, x, rfl⟩
    · obtain ⟨rfl, hev⟩ := List.append_inj' heq rfl
      exact hlast (by simpa using hev)
    · rw [List.concat_eq_append, ← List.cons_append, ← List.append_assoc] at heq
      exact h pre post (List.append_inj' heq rfl).1

theorem FinAfterByte.sent {evs : List (ServerEvent π)} (h : FinAfterByte evs)
    (hfin : (peerLog evs).fin = true) : (peerLog evs).sent = true := by
  induction evs using List.reverseRecOn with
  | nil => cases hfin
  | append_singleton evs ev ih =>
    obtain ⟨hprev, hlast⟩ := finAfterByte_snoc.1 h
    cases ev with
    | call x =>
      rw [peerLog_call] at hfin ⊢
      exact ih hprev hfin
    | net ev =>
      rw [peerLog_net] at hfin ⊢
      cases ev with
      | connect | rst => cases hfin
      | data bytes => simp [PeerLog.add, ih hprev hfin]
      | fin => exact hlast rfl
      | ack | expire => exact ih hprev hfin

/-! ### The HTTP server -/

/-- Where a run leaves the HTTP server. -/
inductive HttpAt (log : PeerLog) (c : Server σ HttpVars) : Prop
  | down (hst : state c.socket = .closed ∨ state c.socket = .timeWait)
  | listening (hst : state c.socket = .listen) (hun : unread c.socket = [])
      (hq : sendQueue c.socket = 0) (hidle : c.vars.state = .idle)
  /-- No byte of the connection has been taken yet, and none been sent. -/
  | unserved (hst : (state c.socket).OwnSideOpen) (hq : sendQueue c.socket = 0)
      (hidle : c.vars.state = .idle) (hsent : log.sent = true ↔ unread c.socket ≠ [])
      (hsyn : state c.socket = .synReceived → unread c.socket = [])
  | streaming (hst : state c.socket = .established ∨ state c.socket = .closeWait)
      (hbulk : c.vars.state ≠ .idle) (hsent : log.sent = true)
  | served (hst : (state c.socket).OwnSideClosed)

namespace HttpAt

variable {log : PeerLog} {c c' : Server σ HttpVars}

theorem net (h : HttpAt log c) {ev : SocketEvent} {s : σ} (hev : event ev c.socket s) :
    HttpAt (log.add ev) { c with socket := s } := by
  obtain ⟨hmem, hun', hq'⟩ := LawfulTcpSocket.event_spec _ _ _ hev
  cases h with
  | down hst => exact .down (.inl (SocketState.after_of_down hst hmem))
  | listening hst hun hq hidle =>
    rw [hst] at hmem
    obtain ⟨rfl, hs⟩ := SocketState.after_listen hmem
    have hun'' : unread s = [] := by rw [hun', hun]; rfl
    exact .unserved (.inl hs) (Nat.le_zero.1 (hq ▸ hq')) hidle (by simp [PeerLog.add, hun''])
      fun _ => hun''
  | unserved hst hq hidle hsent hsyn =>
    rcases hst.after hmem with ⟨rfl, hclosed | ⟨hlisten, hs⟩⟩ | ⟨hev, hst'⟩
    · exact .down (.inl hclosed)
    · exact .listening hlisten (by rw [hun', hsyn hs]; rfl) (Nat.le_zero.1 (hq ▸ hq')) hidle
    · refine .unserved (.inr hst') (Nat.le_zero.1 (hq ▸ hq')) hidle ?_ ?_
      · rw [hun']
        rcases hev with ⟨bytes, rfl⟩ | rfl | rfl
        · simp only [PeerLog.add, SocketEvent.bytes, Bool.or_eq_true, hsent, Bool.not_eq_true',
            List.isEmpty_eq_false_iff, ne_eq, List.append_eq_nil_iff]
          tauto
        · simpa [PeerLog.add, SocketEvent.bytes] using hsent
        · simpa [PeerLog.add, SocketEvent.bytes] using hsent
      · intro hs
        rcases hst' with h | h <;> rw [h] at hs <;> cases hs
  | streaming hst hbulk hsent =>
    rcases SocketState.OwnSideOpen.after (.inr hst) hmem with
      ⟨rfl, hclosed | ⟨-, hs⟩⟩ | ⟨hev, hst'⟩
    · exact .down (.inl hclosed)
    · rcases hst with h | h <;> rw [h] at hs <;> cases hs
    · refine .streaming hst' hbulk ?_
      rcases hev with ⟨bytes, rfl⟩ | rfl | rfl <;> simp [PeerLog.add, hsent]
  | served hst =>
    rcases hst.after hmem with hclosed | hdown
    · exact .served hclosed
    · exact .down hdown

omit [LawfulTcpSocket σ] in
theorem call (h : HttpAt log c) (hc : HttpCall c c') : HttpAt log c' := by
  cases h with
  | down hst =>
    rcases hc.state_cases with ⟨-, hst', hun', hq', hidle'⟩ | hst' | hst'
    · exact .listening hst' hun' hq' hidle'
    · exact .down (hst' ▸ hst)
    · exact .down (by rwa [hst', SocketState.afterClose_of_down hst])
  | listening hst hun hq hidle =>
    cases hc with
    | listens _ hst' hun' hq' hidle' => exact .listening hst' hun' hq' hidle'
    | waits _ _ hst' hun' hq' hidle' =>
      exact .listening (hst'.trans hst) hun' (hq'.trans hq) hidle'
    | streams hbulk | finishes hbulk => exact absurd hidle hbulk
    | routes _ hne | answers _ hne | blocked _ hne => exact absurd hun hne
  | unserved hst hq hidle hsent hsyn =>
    cases hc with
    | listens _ hst' hun' hq' hidle' => exact .listening hst' hun' hq' hidle'
    | streams hbulk | finishes hbulk => exact absurd hidle hbulk
    | waits _ hun hst' hun' hq' hidle' =>
      exact .unserved (hst' ▸ hst) (hq'.trans hq) hidle' (by rw [hsent, hun, hun'])
        fun _ => hun'
    | routes _ hne hst' hbulk' =>
      have hest := hst.resolve_left fun h => hne (hsyn h)
      exact .streaming (hst' ▸ hest) (by simp [hbulk']) (hsent.2 hne)
    | answers _ _ hst' => exact .served (hst' ▸ hst.afterClose)
    | blocked _ hne _ hsend =>
      exact absurd ⟨hst.resolve_left fun h => hne (hsyn h), hq⟩ hsend
  | streaming hst hbulk hsent =>
    cases hc with
    | listens _ hst' hun' hq' hidle' => exact .listening hst' hun' hq' hidle'
    | streams _ hst' hbulk' => exact .streaming (hst' ▸ hst) hbulk' hsent
    | finishes _ hst' => exact .served (hst' ▸ SocketState.OwnSideOpen.afterClose (.inr hst))
    | waits hidle | routes hidle | answers hidle | blocked hidle => exact absurd hidle hbulk
  | served hst =>
    rcases hc.state_cases with ⟨-, hst', hun', hq', hidle'⟩ | hst' | hst'
    · exact .listening hst' hun' hq' hidle'
    · exact .served (hst' ▸ hst)
    · exact .served (by rwa [hst', hst.afterClose])

omit [LawfulTcpSocket σ] in
/-- While this side is open, no byte is taken from a peer unless `/bulk` is in flight. -/
theorem of_ownSideOpen (h : HttpAt log c) (hopen : (state c.socket).OwnSideOpen) :
    (c.vars.state = .idle ∧ sendQueue c.socket = 0 ∧
        (log.sent = true ↔ unread c.socket ≠ [])) ∨
      (c.vars.state ≠ .idle ∧ log.sent = true) := by
  cases h with
  | down hst =>
    rcases hst with hst | hst <;> rw [hst] at hopen <;> exact absurd hopen (by decide)
  | listening hst =>
    rw [hst] at hopen
    exact absurd hopen (by decide)
  | unserved _ hq hidle hsent => exact .inl ⟨hidle, hq, hsent⟩
  | streaming _ hbulk hsent => exact .inr ⟨hbulk, hsent⟩
  | served hst => exact absurd hopen hst.not_ownSideOpen

theorem of_run {evs : List (ServerEvent (List UInt8))}
    (h : (statusHttpSystem σ).Run evs c) : HttpAt (peerLog evs) c := by
  refine h.induction (J := fun evs c => HttpAt (peerLog evs) c) ?_ ?_
  · intro c hinit
    exact .down (.inl hinit.1)
  · intro evs c ev c' _ ih hst
    cases hst with
    | net ev s hev =>
      rw [peerLog_net]
      exact ih.net hev
    | call page =>
      rw [peerLog_call]
      exact ih.call (serveStatusHttp_cases page c)

end HttpAt

section Runs

variable {evs : List (ServerEvent (List UInt8))} {c : Server σ HttpVars}

theorem statusHttp_fin_iff (h : (statusHttpSystem σ).Run evs c)
    (hopen : (state c.socket).OwnSideOpen) :
    (peerLog evs).fin = true ↔ state c.socket = .closeWait :=
  fin_iff_closeWait (fun page c => .of_httpCall (serveStatusHttp_cases page c)) h hopen

/-- Finished peers without `/bulk` in flight are silent ones. -/
theorem silent_iff_finished (h : (statusHttpSystem σ).Run evs c) :
    Silent (peerLog evs) c.socket ↔ Finished (peerLog evs) c.socket ∧ c.vars.state = .idle := by
  constructor
  · rintro ⟨hopen, hfin, hsent⟩
    rcases (HttpAt.of_run h).of_ownSideOpen hopen with ⟨hidle, -, hiff⟩ | ⟨-, hsent'⟩
    · exact ⟨⟨hopen, hfin, by rwa [hiff, not_not] at hsent⟩, hidle⟩
    · exact absurd hsent' hsent
  · rintro ⟨⟨hopen, hfin, hun⟩, hidle⟩
    rcases (HttpAt.of_run h).of_ownSideOpen hopen with ⟨-, -, hiff⟩ | ⟨hbulk, -⟩
    · exact ⟨hopen, hfin, fun hsent => hiff.1 hsent hun⟩
    · exact absurd hidle hbulk

/-- With a silent peer a call does nothing. -/
theorem serveStatusHttp_silent (h : (statusHttpSystem σ).Run evs c)
    (hs : Silent (peerLog evs) c.socket) (page : List UInt8) : serveStatusHttp page c = c := by
  obtain ⟨⟨hopen, hfin, hun⟩, hidle⟩ := (silent_iff_finished h).1 hs
  have hmay : mayRecv c.socket = false := by
    rw [← Bool.not_eq_true, LawfulTcpSocket.mayRecv_closeWait ((statusHttp_fin_iff h hopen).1 hfin)]
    exact not_not.2 hun
  have htake : takeRequest c.socket = ((false, false), c.socket) := by
    rw [takeRequest, hmay, if_neg Bool.false_ne_true]
  rw [serveStatusHttp, if_pos (LawfulTcpSocket.isOpen_of_ownSideOpen hopen)]
  simp only [hidle, htake]

/-- It stays so until the peer resets the connection. -/
theorem silent_path (h : (statusHttpSystem σ).Run evs c) (hs : Silent (peerLog evs) c.socket)
    {evs' : List (ServerEvent (List UInt8))} {c' : Server σ HttpVars}
    (hp : (statusHttpSystem σ).Path c evs' c') (hrst : .net .rst ∉ evs') :
    Silent (peerLog (evs ++ evs')) c'.socket := by
  induction hp with
  | nil => rwa [List.append_nil]
  | snoc hp hst ih =>
    rename_i evs' c' c'' ev
    rw [List.mem_append, not_or] at hrst
    have hs' := ih hrst.1
    have hrun := h.append hp
    rw [← List.append_assoc]
    cases hst with
    | call page =>
      rw [serveStatusHttp_silent hrun hs' page, peerLog_call]
      exact hs'
    | net ev s hev =>
      have hmem := (LawfulTcpSocket.event_spec _ _ _ hev).1
      obtain ⟨hopen, hfin, hsent⟩ := hs'
      rw [(statusHttp_fin_iff hrun hopen).1 hfin] at hmem
      obtain ⟨rfl, hcw⟩ : ev = .ack ∧ state s = .closeWait := by
        cases ev <;> simp_all [SocketState.after]
      rw [peerLog_net]
      exact ⟨.inr (.inr hcw), hfin, hsent⟩

/-- A finished peer that has sent a byte is served by the next call. -/
theorem serveStatusHttp_of_sent (h : (statusHttpSystem σ).Run evs c)
    (hopen : (state c.socket).OwnSideOpen) (hfin : (peerLog evs).fin = true)
    (hsent : (peerLog evs).sent = true) (hidle : c.vars.state = .idle) (page : List UInt8) :
    state (serveStatusHttp page c).socket = .lastAck ∨
      (serveStatusHttp page c).vars.state = .bulk lanBulkBytes false := by
  have hcw := (statusHttp_fin_iff h hopen).1 hfin
  rcases (HttpAt.of_run h).of_ownSideOpen hopen with ⟨-, hq, hiff⟩ | ⟨hbulk, -⟩
  · have hne := hiff.1 hsent
    cases serveStatusHttp_cases page c with
    | listens hclosed =>
      rw [LawfulTcpSocket.isOpen_of_ownSideOpen hopen] at hclosed
      cases hclosed
    | streams hbulk | finishes hbulk => exact absurd hidle hbulk
    | waits _ hun => exact absurd hun hne
    | routes _ _ _ hbulk => exact .inr hbulk
    | answers _ _ hst => exact .inl (by rw [hst, hcw]; rfl)
    | blocked _ _ _ hsend => exact absurd ⟨.inr hcw, hq⟩ hsend
  · exact absurd hidle hbulk

end Runs

/-- A call does not park on a finished peer: it closes this side. -/
def ClosesFinished (log : PeerLog) (serve : Server σ τ → Server σ τ) (c : Server σ τ) : Prop :=
  Finished log c.socket → state (serve c).socket = .lastAck ∧ serve c ≠ c

/-- **The servers and a finished peer.**  In every run the sink closes on one.  The HTTP server,
with no `/bulk` in flight, does so exactly if the peer is not silent; where every FIN comes after a
byte of its connection no peer is, and once the FIN is there the next call closes or starts `/bulk`.
Both listen again once the socket is not open. -/
theorem lanServers_park_iff :
    (∀ (evs : List (ServerEvent Unit)) (c : Server σ UInt32), (lanSinkSystem σ).Run evs c →
      (isOpen c.socket = false → state (serveLanSink c).socket = .listen) ∧
      ClosesFinished (peerLog evs) serveLanSink c) ∧
    ∀ (evs : List (ServerEvent (List UInt8))) (c : Server σ HttpVars),
      (statusHttpSystem σ).Run evs c → ∀ page,
      (isOpen c.socket = false → state (serveStatusHttp page c).socket = .listen) ∧
      ((c.vars.state = .idle → ClosesFinished (peerLog evs) (serveStatusHttp page) c) ↔
        ¬Silent (peerLog evs) c.socket) ∧
      (FinAfterByte evs →
        (c.vars.state = .idle → ClosesFinished (peerLog evs) (serveStatusHttp page) c) ∧
        ((state c.socket).OwnSideOpen → (peerLog evs).fin → c.vars.state = .idle →
          state (serveStatusHttp page c).socket = .lastAck ∨
            (serveStatusHttp page c).vars.state = .bulk lanBulkBytes false)) := by
  refine ⟨fun evs c h => ⟨serveLanSink_of_not_open, ?_⟩, fun evs c h page => ?_⟩
  · rintro ⟨hopen, hfin, -⟩
    have hcw := (fin_iff_closeWait (fun _ => .serveLanSink) h hopen).1 hfin
    have hst : state (serveLanSink c).socket = .lastAck := by
      rw [state_serveLanSink (LawfulTcpSocket.isOpen_of_ownSideOpen hopen), if_pos hcw]
    refine ⟨hst, fun heq => ?_⟩
    rw [heq, hcw] at hst
    cases hst
  · have hcloses : ¬Silent (peerLog evs) c.socket → c.vars.state = .idle →
        ClosesFinished (peerLog evs) (serveStatusHttp page) c := by
      intro hs hidle hfinished
      exact absurd ((silent_iff_finished h).2 ⟨hfinished, hidle⟩) hs
    refine ⟨fun hclosed => ?_, ⟨?_, hcloses⟩, fun hafter => ⟨hcloses fun hs => ?_, ?_⟩⟩
    · rw [serveStatusHttp, hclosed, if_neg Bool.false_ne_true]
      exact (LawfulTcpSocket.listen_closed _ _ hclosed (by decide)).1
    · rintro hall hs
      obtain ⟨hfinished, hidle⟩ := (silent_iff_finished h).1 hs
      exact (hall hidle hfinished).2 (serveStatusHttp_silent h hs page)
    · exact hs.2.2 (hafter.sent hs.2.1)
    · intro hopen hfin hidle
      exact serveStatusHttp_of_sent h hopen hfin (hafter.sent hfin) hidle page

end Lawful

/-! ### A socket -/

/-- A socket with an unbounded receive buffer and the 32 KB transmit buffer of the HTTP server. -/
structure SimpleSocket where
  state : SocketState
  unread : List UInt8
  sendQueue : ℕ
  deriving DecidableEq, Repr

namespace SimpleSocket

def fresh : SimpleSocket := ⟨.closed, [], 0⟩

def isOpen (s : SimpleSocket) : Bool := s.state ≠ .closed ∧ s.state ≠ .timeWait

def mayRecv (s : SimpleSocket) : Bool :=
  (s.state = .established ∨ s.state = .finWait1 ∨ s.state = .finWait2) ∨ s.unread ≠ []

def maySend (s : SimpleSocket) : Bool := s.state = .established ∨ s.state = .closeWait

def room (s : SimpleSocket) : ℕ := 32 * 1024 - s.sendQueue

instance : TcpSocketOps SimpleSocket where
  state := state
  unread := unread
  sendQueue := sendQueue
  txCapacity _ := 32 * 1024
  isOpen := isOpen
  mayRecv := mayRecv
  maySend := maySend
  canRecv s := s.mayRecv && s.unread ≠ []
  canSend s := s.maySend && s.sendQueue < 32 * 1024
  listen s port := if s.isOpen ∨ port = 0 then s else ⟨.listen, [], 0⟩
  recv s f :=
    if s.mayRecv then some ((f s.unread).2, { s with unread := s.unread.drop (f s.unread).1 })
    else none
  sendSlice s data :=
    if s.maySend then
      some (min data.length s.room, { s with sendQueue := s.sendQueue + min data.length s.room })
    else none
  close s := { s with state := s.state.afterClose }
  event ev s s' :=
    s'.state ∈ s.state.after ev ∧ s'.unread = s.unread ++ ev.bytes ∧ s'.sendQueue ≤ s.sendQueue

instance : LawfulTcpSocket SimpleSocket where
  isOpen_iff s := by simp [TcpSocketOps.isOpen, isOpen, TcpSocketOps.state]
  mayRecv_iff s := by simp [TcpSocketOps.mayRecv, mayRecv, TcpSocketOps.state, TcpSocketOps.unread]
  maySend_iff s := by simp [TcpSocketOps.maySend, maySend, TcpSocketOps.state]
  canRecv_iff s := by simp [TcpSocketOps.canRecv, TcpSocketOps.mayRecv, TcpSocketOps.unread]
  canSend_iff s := by
    simp [TcpSocketOps.canSend, TcpSocketOps.maySend, TcpSocketOps.sendQueue,
      TcpSocketOps.txCapacity]
  txCapacity_pos _ := Nat.zero_lt_succ _
  listen_closed s port hopen hport := by
    have hlisten : TcpSocketOps.listen s port = ⟨.listen, [], 0⟩ := by
      refine if_neg ?_
      rintro (h | h)
      · exact Bool.false_ne_true (hopen.symm.trans h)
      · exact hport h
    rw [hlisten]
    exact ⟨rfl, rfl, rfl⟩
  recv_none s f hr := by
    simp only [recv] at hr
    split at hr
    · cases hr
    · rename_i hmay
      exact Bool.eq_false_iff.2 hmay
  recv_some s s' f r hr := by
    simp only [recv] at hr
    split at hr
    · obtain ⟨rfl, rfl⟩ : (f s.unread).2 = r ∧ _ = s' := by simpa using hr
      exact ⟨s.unread, [], (List.append_nil _).symm, fun _ => rfl, rfl, rfl, rfl, rfl⟩
    · cases hr
  sendSlice_some s s' data n hs := by
    simp only [sendSlice] at hs
    split at hs
    · obtain ⟨rfl, rfl⟩ : min data.length s.room = n ∧ _ = s' := by simpa using hs
      exact ⟨Nat.min_le_left _ _, rfl, rfl⟩
    · cases hs
  state_close _ := rfl
  event_spec _ _ _ h := h

end SimpleSocket

/-- An event of the socket, in a run. -/
theorem run_net {vars v : τ} {serve : π → Server SimpleSocket τ → Server SimpleSocket τ}
    {evs : List (ServerEvent π)} {s s' : SimpleSocket} (ev : SocketEvent)
    (h : (serverSystem vars serve).Run evs ⟨s, v⟩) (hst : s'.state ∈ s.state.after ev)
    (hun : s'.unread = s.unread ++ ev.bytes) (hq : s'.sendQueue = s.sendQueue) :
    (serverSystem vars serve).Run (evs ++ [.net ev]) ⟨s', v⟩ :=
  h.snoc (.net ev s' ⟨hst, hun, hq.le⟩)

/-- An upload of three bytes: the sink reads them before the FIN comes. -/
theorem lanSink_upload : (lanSinkSystem SimpleSocket).Run
    [.call (), .net .connect, .net (.data [1, 2, 3]), .call (), .net .fin]
    ⟨⟨.closeWait, [], 0⟩, 3⟩ := by
  have h₀ : (lanSinkSystem SimpleSocket).Run [] ⟨.fresh, 0⟩ := .init ⟨rfl, rfl, rfl⟩
  have h₁ : (lanSinkSystem SimpleSocket).Run _ ⟨⟨.listen, [], 0⟩, 0⟩ := h₀.snoc (.call ())
  have h₂ : (lanSinkSystem SimpleSocket).Run _ ⟨⟨.synReceived, [], 0⟩, 0⟩ :=
    run_net .connect h₁ (.head _) rfl rfl
  have h₃ : (lanSinkSystem SimpleSocket).Run _ ⟨⟨.established, [1, 2, 3], 0⟩, 0⟩ :=
    run_net (.data [1, 2, 3]) h₂ (.head _) rfl rfl
  have h₄ : (lanSinkSystem SimpleSocket).Run _ ⟨⟨.established, [], 0⟩, 3⟩ := h₃.snoc (.call ())
  exact run_net .fin h₄ (.head _) rfl rfl

/-- A client of the HTTP server that ends the handshake with `ev` and sends its FIN. -/
theorem statusHttp_client (ev : SocketEvent)
    (hev : SocketState.established ∈ SocketState.synReceived.after ev) :
    (statusHttpSystem SimpleSocket).Run [.call [], .net .connect, .net ev, .net .fin]
      ⟨⟨.closeWait, ev.bytes, 0⟩, ⟨.idle, 0⟩⟩ := by
  have h₀ : (statusHttpSystem SimpleSocket).Run [] ⟨.fresh, ⟨.idle, 0⟩⟩ := .init ⟨rfl, rfl, rfl⟩
  have h₁ : (statusHttpSystem SimpleSocket).Run _ ⟨⟨.listen, [], 0⟩, ⟨.idle, 0⟩⟩ :=
    h₀.snoc (.call [])
  have h₂ : (statusHttpSystem SimpleSocket).Run _ ⟨⟨.synReceived, [], 0⟩, ⟨.idle, 0⟩⟩ :=
    run_net .connect h₁ (.head _) rfl rfl
  have h₃ : (statusHttpSystem SimpleSocket).Run _ ⟨⟨.established, ev.bytes, 0⟩, ⟨.idle, 0⟩⟩ :=
    run_net ev h₂ hev rfl rfl
  exact run_net .fin h₃ (.head _) (List.append_nil _).symm rfl

/-- The client of the HTTP server with nothing to read but `bytes`. -/
def httpClient (bytes : List UInt8) : Server SimpleSocket HttpVars :=
  ⟨⟨.closeWait, bytes, 0⟩, ⟨.idle, 0⟩⟩

/-- The sink closes on its client, a request that is there with the FIN is served, and a silent peer
is parked on. -/
theorem lanServers_park_iff_clients :
    state (serveLanSink (⟨⟨.closeWait, [], 0⟩, 3⟩ : Server SimpleSocket UInt32)).socket = .lastAck ∧
      (state (serveStatusHttp [] (httpClient (asciiBytes "GET /"))).socket = .lastAck ∨
        (serveStatusHttp [] (httpClient (asciiBytes "GET /"))).vars.state =
          .bulk lanBulkBytes false) ∧
      ¬ClosesFinished ⟨false, true⟩ (serveStatusHttp []) (httpClient []) := by
  have hget := statusHttp_client (.data (asciiBytes "GET /")) (.head _)
  have hafter : FinAfterByte ([] ++ [.call ([] : List UInt8)] ++ [.net .connect] ++
      [.net (.data (asciiBytes "GET /"))] ++ [.net .fin]) := by
    simp only [finAfterByte_snoc, finAfterByte_nil, true_and]
    decide
  have hsilent := statusHttp_client .ack (.head _)
  refine ⟨((lanServers_park_iff.1 _ _ lanSink_upload).2 ⟨by decide, rfl, rfl⟩).1, ?_, fun h => ?_⟩
  · exact ((lanServers_park_iff.2 _ _ hget []).2.2 hafter).2 (by decide) rfl rfl
  · exact (lanServers_park_iff.2 _ _ hsilent []).2.1.1 (fun _ => h) ⟨by decide, rfl, by decide⟩

/-- The client that connects and sends its FIN. -/
theorem statusHttp_parks :
    ¬ ∀ (evs : List (ServerEvent (List UInt8))) (c : Server SimpleSocket HttpVars),
      (statusHttpSystem SimpleSocket).Run evs c → ∀ page,
        c.vars.state = .idle → ClosesFinished (peerLog evs) (serveStatusHttp page) c := by
  intro hall
  have hclient := statusHttp_client .ack (.head _)
  exact (hall _ _ hclient [] rfl ⟨by decide, rfl, rfl⟩).2 rfl

end Pico10BaseT
