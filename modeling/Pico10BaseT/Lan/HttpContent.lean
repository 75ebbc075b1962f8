import Mathlib.Data.Nat.Digits.Defs
import Pico10BaseT.Lan.LoggedSocket

/-!
# What the HTTP servers send

Three servers answer on port 80: the management server of the access point (`serve_status_http`),
and on the NIC image the status page (`serve_http`) or the test download (`serve_http_bulk`).  A
response is a head with the length of the body, and the body; the downloads are queued across many
polls, as the transmit buffer has room.

* `SentAt.serveStatusHttp`, `SentAt.serveHttp`, `SentAt.serveHttpBulk` : what a call makes of the
  response.
* `http_whole` : on each connection a server sends a part of one response, and the whole of it if
  it has closed its side.
-/

namespace Pico10BaseT

open TcpSocketOps

/-! ### The servers of the NIC image -/

def decimal (n : ℕ) : List UInt8 := asciiBytes (toString n)

/-- The status page: uptime, link pulses and broadcasts. -/
def helloBody (uptimeS nlps udpSent : UInt32) : List UInt8 :=
  asciiBytes "Hello from Pico-10BASE-T (Rust)!\r\nuptime=" ++ decimal uptimeS.toNat ++
    asciiBytes "s nlps=" ++ decimal nlps.toNat ++ asciiBytes " udp_sent=" ++
      decimal udpSent.toNat ++ asciiBytes "\r\n"

section Servers

variable {σ : Type} [TcpSocketOps σ]

/-- Take what has arrived, and drop it. -/
def dropRequest (s : σ) : σ :=
  if mayRecv s then
    match recv s fun buf => (buf.length, ()) with
    | none => s
    | some (_, s) => s
  else s

/-- HTTP/1.0 on port 80: fixed 200 OK with uptime, then close. -/
def serveHttp (x : UInt32 × UInt32 × UInt32) (c : Server σ Unit) : Server σ Unit :=
  let socket := if isOpen c.socket then c.socket else listen c.socket 80
  { c with socket := sendStatus (helloBody x.1 x.2.1 x.2.2) (dropRequest socket) }

/-- `http-bulk-test` body. -/
def httpBulkBytes : ℕ := 1024 * 1024

inductive HttpBulkState
  /-- Waiting for a fresh connection to open and reach the may-send state. -/
  | idle
  /-- Header has been queued; body sender writes up to `remaining` bytes. -/
  | sending (remaining : ℕ)
  deriving DecidableEq, Repr

def httpBulkHead : List UInt8 :=
  asciiBytes "HTTP/1.0 200 OK\r\nContent-Type: application/octet-stream\r\nContent-Length: " ++
    decimal httpBulkBytes ++ asciiBytes "\r\nConnection: close\r\n\r\n"

/-- The loop that fills the buffer is that of `/bulk`, without the count. -/
def serveHttpBulk (c : Server σ HttpBulkState) : Server σ HttpBulkState :=
  if isOpen c.socket then
    let socket := dropRequest c.socket
    match c.vars with
    | .idle =>
      if canSend socket then ⟨sendIgnore socket httpBulkHead, .sending httpBulkBytes⟩
      else { c with socket }
    | .sending remaining =>
      match bulkLoop remaining socket 0 with
      | (0, socket, _) => ⟨close socket, .idle⟩
      | (remaining, socket, _) => ⟨socket, .sending remaining⟩
  else ⟨listen c.socket 80, .idle⟩

end Servers

/-! ### Responses -/

/-- `STATUS_BODY_CAP`, for 32 leases. -/
def statusBodyCap : ℕ := 256 + 32 * 40 + 768

/-- A `String<STATUS_BODY_CAP>`. -/
def StatusPage : Type := { page : List UInt8 // page.length ≤ statusBodyCap }

/-- What a client of the access point gets: the page of a call, or the download. -/
def StatusResponse (evs : List (ServerEvent StatusPage)) (w : List UInt8) : Prop :=
  (∃ page : StatusPage, .call page ∈ evs ∧ w = statusHead page.1.length ++ page.1) ∨
    w = bulkHead ++ List.replicate lanBulkBytes 0x55

/-- What a client of the NIC gets: the page of a call. -/
def HttpResponse (evs : List (ServerEvent (UInt32 × UInt32 × UInt32))) (w : List UInt8) : Prop :=
  ∃ x : UInt32 × UInt32 × UInt32, .call x ∈ evs ∧
    w = statusHead (helloBody x.1 x.2.1 x.2.2).length ++ helloBody x.1 x.2.1 x.2.2

/-- The test download. -/
def HttpBulkResponse (w : List UInt8) : Prop :=
  w = httpBulkHead ++ List.replicate httpBulkBytes 0x55

theorem length_asciiBytes (s : String) : (asciiBytes s).length = s.length := by
  rw [asciiBytes, List.length_map, String.length_toList]

theorem length_decimal_le {n e : ℕ} (he : 0 < e) (h : n < 10 ^ e) : (decimal n).length ≤ e := by
  rw [decimal, length_asciiBytes]
  exact Nat.repr_length n e he h

/-- The head fits into its `String<128>`. -/
theorem length_statusHead_le {n : ℕ} (h : n < 10 ^ 4) : (statusHead n).length ≤ 128 := by
  have hdigits := length_decimal_le (by decide) h
  have hfront : "HTTP/1.0 200 OK\r\nContent-Type: text/plain\r\nContent-Length: ".length = 59 := by
    decide
  have hback : "\r\nConnection: close\r\n\r\n".length = 23 := by decide
  change (asciiBytes _ ++ decimal n ++ asciiBytes _).length ≤ 128
  rw [List.length_append, List.length_append, length_asciiBytes, length_asciiBytes, hfront, hback]
  omega

/-- The page fits into its `String<160>`. -/
theorem length_helloBody_le (uptimeS nlps udpSent : UInt32) :
    (helloBody uptimeS nlps udpSent).length ≤ 160 := by
  have hdigits : ∀ n : UInt32, (decimal n.toNat).length ≤ 10 := fun n =>
    length_decimal_le (by decide) (n.toNat_lt.trans (by decide))
  have h₁ := hdigits uptimeS
  have h₂ := hdigits nlps
  have h₃ := hdigits udpSent
  have hhello : "Hello from Pico-10BASE-T (Rust)!\r\nuptime=".length = 41 := by decide
  have hnlps : "s nlps=".length = 7 := by decide
  have hudp : " udp_sent=".length = 10 := by decide
  have hend : "\r\n".length = 2 := by decide
  simp only [helloBody, List.length_append, length_asciiBytes, hhello, hnlps, hudp, hend]
  omega

theorem length_bulkHead : bulkHead.length = 103 := by decide +kernel

theorem length_httpBulkHead : httpBulkHead.length = 103 := by decide +kernel

/-! ### One call -/

section Calls

variable {σ τ : Type} [TcpSocketOps σ] [LawfulTcpSocket σ] {W : List UInt8 → Prop} {ph : Phases τ}
  {c : Server (LoggedSocket σ) τ} {cap : ℕ}

/-- A server whose socket is over listens. -/
theorem SentAt.listen {s : LoggedSocket σ} {v : τ} {port : UInt16} (hopen : isOpen s = false)
    (hport : port ≠ 0) (hidle : ph.idle v) : SentAt W ph ⟨TcpSocketOps.listen s port, v⟩ := by
  obtain ⟨hst, -, hq⟩ := LawfulTcpSocket.listen_closed s port hopen hport
  exact .fresh (.inl hst) hidle rfl hq

omit [LawfulTcpSocket σ] in
/-- What a call reads is nothing to the response. -/
theorem SentAt.congr (h : SentAt W ph c) {s : LoggedSocket σ} (hst : state s = state c.socket)
    (hq : sendQueue s = sendQueue c.socket) (hw : s.written = c.socket.written) :
    SentAt W ph { c with socket := s } := by
  cases h with
  | fresh hst' hidle hw' hq' => exact .fresh (hst ▸ hst') hidle (hw ▸ hw') (hq ▸ hq')
  | streaming rest hst' hvars hw' => exact .streaming rest (hst ▸ hst') hvars (hw ▸ hw')
  | ended hst' hidle hw' => exact .ended (hst ▸ hst') hidle (hw ▸ hw')
  | down hst' hw' => exact .down (hst ▸ hst') (hw ▸ hw')

/-- A server that may send, and has queued nothing of a response before. -/
theorem SentAt.unsent (h : SentAt W ph c) (hno : ∀ rest, ¬ph.sending c.vars rest)
    (hmay : maySend c.socket = true) : (state c.socket).OwnSideOpen ∧ c.socket.written = [] ∧
      sendQueue c.socket = 0 := by
  have hst := (LawfulTcpSocket.maySend_iff _).1 hmay
  cases h with
  | fresh _ _ hw hq => exact ⟨.inr hst, hw, hq⟩
  | streaming rest _ hvars => exact absurd hvars (hno rest)
  | ended hst' =>
    rcases hst with hst | hst <;> rw [hst] at hst' <;>
      simp [SocketState.OwnSideClosed] at hst'
  | down hst' => rcases hst with hst | hst <;> rw [hst] at hst' <;> cases hst'

/-- **A page** is queued whole, with its head, and this side closes. -/
theorem SentAt.sendStatus (h : SentAt W ph c) (hno : ∀ rest, ¬ph.sending c.vars rest)
    (hidle : ph.idle c.vars) (hbuf : TxBuffer σ cap) {page : List UInt8}
    (hW : W (statusHead page.length ++ page))
    (hfit : (statusHead page.length).length + page.length ≤ cap) :
    SentAt W ph { c with socket := Pico10BaseT.sendStatus page c.socket } := by
  by_cases hcan : canSend c.socket
  · have hmay := ((LawfulTcpSocket.canSend_iff _).1 hcan).1
    obtain ⟨hopen, hw, hq⟩ := h.unsent hno hmay
    obtain ⟨hwritten, hst⟩ := hbuf.sendIgnore_two hmay (by rwa [hq, Nat.zero_add])
    rw [Pico10BaseT.sendStatus, if_pos hcan]
    refine .ended (.inl ?_) hidle ?_
    · rw [LawfulTcpSocket.state_close, hst]
      exact hopen.afterClose
    · rw [hw, List.nil_append] at hwritten
      exact hwritten.symm ▸ hW
  · rw [Pico10BaseT.sendStatus, if_neg hcan]
    exact h

/-- The loop of the downloads keeps what is queued and what remains together. -/
theorem bulkLoop_whole {remaining : ℕ} {s : LoggedSocket σ} (txBytes : UInt32)
    (hW : W (s.written ++ List.replicate remaining 0x55)) :
    W ((bulkLoop remaining s txBytes).2.1.written ++
      List.replicate (bulkLoop remaining s txBytes).1 0x55) := by
  obtain ⟨hle, hwritten⟩ := written_bulkLoop remaining s txBytes
  rw [hwritten, List.append_assoc, List.replicate_append_replicate, Nat.sub_add_cancel hle]
  exact hW

/-- **A download** goes on: with nothing left this side closes. -/
theorem SentAt.of_bulkLoop {remaining : ℕ} {s : LoggedSocket σ} {txBytes : UInt32} {v₀ : τ}
    {v : ℕ → τ} (hst : state s = .established ∨ state s = .closeWait)
    (hW : W (s.written ++ List.replicate remaining 0x55)) (hidle : ph.idle v₀)
    (hvars : ∀ n, ph.sending (v n) (List.replicate n 0x55)) {r : ℕ × LoggedSocket σ × UInt32}
    (hr : bulkLoop remaining s txBytes = r) :
    SentAt W ph (if r.1 = 0 then ⟨close r.2.1, v₀⟩ else ⟨r.2.1, v r.1⟩) := by
  have hwhole := bulkLoop_whole txBytes hW
  have hstate := state_bulkLoop remaining s txBytes
  rw [hr] at hwhole hstate
  rw [← hstate] at hst
  split_ifs with hzero
  · rw [hzero, List.replicate_zero, List.append_nil] at hwhole
    refine .ended (.inl ?_) hidle hwhole
    have hopen : (state r.2.1).OwnSideOpen := .inr hst
    rw [LawfulTcpSocket.state_close]
    exact hopen.afterClose
  · exact .streaming _ hst (hvars _) hwhole

theorem dropRequest_spec (s : LoggedSocket σ) : state (dropRequest s) = state s ∧
    sendQueue (dropRequest s) = sendQueue s ∧ (dropRequest s).written = s.written := by
  unfold dropRequest
  split
  · split
    · exact ⟨rfl, rfl, rfl⟩
    · rename_i s' hr
      obtain ⟨_, _, -, -, -, hst, hq, -⟩ := LawfulTcpSocket.recv_some _ _ _ _ hr
      exact ⟨hst, hq, (LoggedSocket.recv_eq_some.1 hr).2⟩
  · exact ⟨rfl, rfl, rfl⟩

omit [LawfulTcpSocket σ] in
theorem written_takeRequest (s : LoggedSocket σ) : (takeRequest s).2.written = s.written := by
  unfold takeRequest
  split
  · split
    · rfl
    · rename_i flags s' hr
      exact (LoggedSocket.recv_eq_some.1 hr).2
  · rfl

end Calls

/-! ### The servers -/

/-- `/bulk` has not begun until its header is queued. -/
def statusPhases : Phases HttpVars where
  idle v := v.state = .idle ∨ v.state = .bulk lanBulkBytes false
  sending v rest := ∃ remaining, v.state = .bulk remaining true ∧
    rest = List.replicate remaining 0x55

/-- The page is sent in one call. -/
def httpPhases : Phases Unit where
  idle _ := True
  sending _ _ := False

def httpBulkPhases : Phases HttpBulkState where
  idle v := v = .idle
  sending v rest := ∃ remaining, v = .sending remaining ∧ rest = List.replicate remaining 0x55

section Servers

variable {σ : Type} [TcpSocketOps σ] [LawfulTcpSocket σ] {W : List UInt8 → Prop} {cap : ℕ}

omit [LawfulTcpSocket σ] in
/-- A call that finds the header queued, or can queue it. -/
theorem continueBulk_eq {c : Server σ HttpVars} {remaining : ℕ} {headerSent : Bool}
    (h : headerSent = true ∨ canSend c.socket = true) {r : ℕ × σ × UInt32}
    (hr : bulkLoop remaining (if headerSent then c.socket else sendIgnore c.socket bulkHead)
      c.vars.txBytes = r) :
    continueBulk remaining headerSent c =
      if r.1 = 0 then ⟨close r.2.1, .idle, r.2.2⟩ else ⟨r.2.1, .bulk r.1 true, r.2.2⟩ := by
  have hgo : ¬(!headerSent && !canSend c.socket) = true := by
    rcases h with h | h <;> simp [h]
  rw [continueBulk, if_neg hgo]
  simp only [hr]
  obtain ⟨n, s, txBytes⟩ := r
  cases n <;> rfl

theorem SentAt.continueBulk {c : Server (LoggedSocket σ) HttpVars} (h : SentAt W statusPhases c)
    (hbuf : TxBuffer σ cap) (hcap : 32 * 1024 ≤ cap) {remaining : ℕ} {headerSent : Bool}
    (hc : c.vars.state = .bulk remaining headerSent) (hopen : isOpen c.socket = true)
    (hW : W (bulkHead ++ List.replicate lanBulkBytes 0x55)) :
    SentAt W statusPhases (continueBulk remaining headerSent c) := by
  have hdown : state c.socket ≠ .closed := ((LawfulTcpSocket.isOpen_iff _).1 hopen).1
  have hidle : statusPhases.idle c.vars → remaining = lanBulkBytes ∧ headerSent = false := by
    rintro (hidle | hidle) <;> rw [hc] at hidle <;> cases hidle
    exact ⟨rfl, rfl⟩
  -- the header is there, or about to be queued
  have hloop : ∀ s : LoggedSocket σ, (headerSent = true ∨ canSend c.socket = true) →
      (if headerSent then c.socket else sendIgnore c.socket bulkHead) = s →
      (state s = .established ∨ state s = .closeWait) →
      W (s.written ++ List.replicate remaining 0x55) →
      SentAt W statusPhases (Pico10BaseT.continueBulk remaining headerSent c) := by
    intro s hgo hs hst hw
    obtain ⟨r, hr⟩ : ∃ r, bulkLoop remaining s c.vars.txBytes = r := ⟨_, rfl⟩
    have hidle : statusPhases.idle ⟨.idle, r.2.2⟩ := .inl rfl
    have hsending : ∀ n, statusPhases.sending ⟨.bulk n true, r.2.2⟩ (List.replicate n 0x55) :=
      fun n => ⟨n, rfl, rfl⟩
    rw [continueBulk_eq hgo (hs ▸ hr)]
    exact .of_bulkLoop (v := fun n => ⟨.bulk n true, r.2.2⟩) hst hw hidle hsending hr
  cases hheader : headerSent with
  | true =>
    subst hheader
    cases h with
    | fresh _ hi => exact absurd (hidle hi).2 (by decide)
    | ended _ hi => exact absurd (hidle hi).2 (by decide)
    | down hst => exact absurd hst hdown
    | streaming rest hst hvars hw =>
      obtain ⟨remaining', hc', rfl⟩ := hvars
      rw [hc] at hc'
      cases hc'
      exact hloop c.socket (.inl rfl) rfl hst hw
  | false =>
    subst hheader
    have hno : ∀ rest, ¬statusPhases.sending c.vars rest := by
      rintro rest ⟨_, hc', -⟩
      rw [hc] at hc'
      cases hc'
    by_cases hcan : canSend c.socket
    · have hmay := ((LawfulTcpSocket.canSend_iff _).1 hcan).1
      obtain ⟨-, hw, hq⟩ := h.unsent hno hmay
      have hall : remaining = lanBulkBytes := by
        cases h with
        | fresh _ hi => exact (hidle hi).1
        | streaming rest _ hvars => exact absurd hvars (hno rest)
        | ended _ hi => exact (hidle hi).1
        | down hst => exact absurd hst hdown
      obtain ⟨hwritten, -, hst⟩ := hbuf.sendIgnore bulkHead hmay
        (by rw [hq, length_bulkHead]; omega)
      refine hloop _ (.inr hcan) rfl ?_ ?_
      · change state (sendIgnore c.socket bulkHead) = _ ∨ state (sendIgnore c.socket bulkHead) = _
        rw [hst]
        exact (LawfulTcpSocket.maySend_iff _).1 hmay
      · rw [hw, List.nil_append] at hwritten
        rw [hall]
        exact hwritten.symm ▸ hW
    · rw [Pico10BaseT.continueBulk, Bool.eq_false_iff.2 hcan]
      exact h

/-- **A call of `serve_status_http`.** -/
theorem SentAt.serveStatusHttp {c : Server (LoggedSocket σ) HttpVars}
    (h : SentAt W statusPhases c) (hbuf : TxBuffer σ cap) (hcap : 32 * 1024 ≤ cap)
    {page : List UInt8} (hpage : page.length ≤ statusBodyCap)
    (hW : W (statusHead page.length ++ page))
    (hbulk : W (bulkHead ++ List.replicate lanBulkBytes 0x55)) :
    SentAt W statusPhases (serveStatusHttp page c) := by
  have hcapNat : statusBodyCap = 2304 := rfl
  by_cases hopen : isOpen c.socket
  · rw [Pico10BaseT.serveStatusHttp, if_pos hopen]
    split
    · rename_i remaining headerSent hc
      exact h.continueBulk hbuf hcap hc hopen hbulk
    · rename_i hidle
      obtain ⟨hst, hq, -⟩ := takeRequest_spec c.socket
      have htaken := h.congr hst hq (written_takeRequest c.socket)
      have hno : ∀ rest, ¬statusPhases.sending c.vars rest := by
        rintro rest ⟨_, hc, -⟩
        rw [hidle] at hc
        cases hc
      split
      · rename_i flag s' heq
        rw [heq] at htaken
        exact htaken
      · rename_i s' heq
        rw [heq] at htaken
        cases htaken with
        | fresh hst _ hw hq => exact .fresh hst (.inr rfl) hw hq
        | streaming rest _ hvars => exact absurd hvars (hno rest)
        | ended hst _ hw => exact .ended hst (.inr rfl) hw
        | down hst hw => exact .down hst hw
      · rename_i s' heq
        rw [heq] at htaken
        have hhead := length_statusHead_le (n := page.length) (by omega)
        exact htaken.sendStatus hno (.inl hidle) hbuf hW (by omega)
  · rw [Pico10BaseT.serveStatusHttp, if_neg hopen]
    exact .listen (Bool.eq_false_iff.2 hopen) (by decide) (.inl rfl)

/-- **A call of `serve_http`.** -/
theorem SentAt.serveHttp {c : Server (LoggedSocket σ) Unit} (h : SentAt W httpPhases c)
    (hbuf : TxBuffer σ cap) (hcap : 1024 ≤ cap) (x : UInt32 × UInt32 × UInt32)
    (hW : W (statusHead (helloBody x.1 x.2.1 x.2.2).length ++ helloBody x.1 x.2.1 x.2.2)) :
    SentAt W httpPhases (serveHttp x c) := by
  have hbody := length_helloBody_le x.1 x.2.1 x.2.2
  have hhead := length_statusHead_le
    (n := (helloBody x.1 x.2.1 x.2.2).length) (by omega)
  have hsend : ∀ c : Server (LoggedSocket σ) Unit, SentAt W httpPhases c →
      SentAt W httpPhases
        { c with socket :=
            Pico10BaseT.sendStatus (helloBody x.1 x.2.1 x.2.2) (dropRequest c.socket) } := by
    intro c h
    obtain ⟨hst, hq, hw⟩ := dropRequest_spec c.socket
    exact (h.congr hst hq hw).sendStatus (fun _ => id) trivial hbuf hW (by omega)
  by_cases hopen : isOpen c.socket
  · rw [Pico10BaseT.serveHttp, if_pos hopen]
    exact hsend c h
  · rw [Pico10BaseT.serveHttp, if_neg hopen]
    exact hsend ⟨TcpSocketOps.listen c.socket 80, c.vars⟩
      (.listen (Bool.eq_false_iff.2 hopen) (by decide) trivial)

/-- **A call of `serve_http_bulk`.** -/
theorem SentAt.serveHttpBulk {c : Server (LoggedSocket σ) HttpBulkState}
    (h : SentAt W httpBulkPhases c) (hbuf : TxBuffer σ cap) (hcap : 32 * 1024 ≤ cap)
    (hW : W (httpBulkHead ++ List.replicate httpBulkBytes 0x55)) :
    SentAt W httpBulkPhases (serveHttpBulk c) := by
  obtain ⟨hst, hq, hw⟩ := dropRequest_spec c.socket
  have hdropped := h.congr hst hq hw
  by_cases hopen : isOpen c.socket
  · rw [Pico10BaseT.serveHttpBulk, if_pos hopen]
    cases hvars : c.vars with
    | idle =>
      have hno : ∀ rest, ¬httpBulkPhases.sending c.vars rest := by
        rintro rest ⟨_, hc, -⟩
        rw [hvars] at hc
        cases hc
      by_cases hcan : canSend (dropRequest c.socket)
      · have hmay := ((LawfulTcpSocket.canSend_iff _).1 hcan).1
        obtain ⟨-, hw', hq'⟩ := hdropped.unsent hno hmay
        obtain ⟨hwritten, -, hst'⟩ := hbuf.sendIgnore httpBulkHead hmay
          (by rw [hq', length_httpBulkHead]; omega)
        simp only [hcan, if_true]
        refine .streaming _ ?_ ⟨httpBulkBytes, rfl, rfl⟩ ?_
        · rw [hst']
          exact (LawfulTcpSocket.maySend_iff _).1 hmay
        · rw [hw', List.nil_append] at hwritten
          exact hwritten.symm ▸ hW
      · simp only [hcan]
        exact hvars ▸ hdropped
    | sending remaining =>
      cases hdropped with
      | fresh _ hidle => exact absurd (hvars.symm.trans hidle) (by simp)
      | ended _ hidle => exact absurd (hvars.symm.trans hidle) (by simp)
      | down hst' =>
        rw [LawfulTcpSocket.isOpen_iff] at hopen
        exact absurd (hst.symm.trans hst') hopen.1
      | streaming rest hst' hsending hw' =>
        obtain ⟨remaining', hc, rfl⟩ := hsending
        obtain rfl : remaining = remaining' := HttpBulkState.sending.inj (hvars.symm.trans hc)
        obtain ⟨r, hr⟩ : ∃ r, bulkLoop remaining (dropRequest c.socket) 0 = r := ⟨_, rfl⟩
        have hnext : ∀ n, httpBulkPhases.sending (.sending n) (List.replicate n 0x55) :=
          fun n => ⟨n, rfl, rfl⟩
        have hsent : SentAt W httpBulkPhases
            (if r.1 = 0 then ⟨close r.2.1, .idle⟩ else ⟨r.2.1, .sending r.1⟩) :=
          .of_bulkLoop (v := HttpBulkState.sending) hst' hw' rfl hnext hr
        simp only [hr]
        obtain ⟨n, s, txBytes⟩ := r
        cases n <;> exact hsent
  · rw [Pico10BaseT.serveHttpBulk, if_neg hopen]
    exact .listen (Bool.eq_false_iff.2 hopen) (by decide) rfl

end Servers

/-! ### The log -/

section Erase

open LoggedSocket

variable {σ τ : Type} [TcpSocketOps σ]

theorem erase_sendIgnore (s : LoggedSocket σ) (data : List UInt8) :
    (sendIgnore s data).socket = sendIgnore s.socket data := by
  unfold sendIgnore
  cases hs : sendSlice s data with
  | none => rw [sendSlice_eq_none.1 hs]
  | some r => rw [(sendSlice_eq_some.1 hs).1]

theorem erase_bulkLoop (remaining : ℕ) (s : LoggedSocket σ) (txBytes : UInt32) :
    bulkLoop remaining s.socket txBytes = ((bulkLoop remaining s txBytes).1,
      (bulkLoop remaining s txBytes).2.1.socket, (bulkLoop remaining s txBytes).2.2) := by
  fun_induction bulkLoop remaining s txBytes with
  | case1 remaining s txBytes hmore hs =>
    rw [bulkLoop, canSend_socket, if_pos hmore, sendSlice_eq_none.1 hs]
  | case2 remaining s txBytes hmore s' hs =>
    rw [bulkLoop, canSend_socket, if_pos hmore, (sendSlice_eq_some.1 hs).1]
  | case3 remaining s txBytes hmore sent s' hs ih =>
    rw [bulkLoop, canSend_socket, if_pos hmore, (sendSlice_eq_some.1 hs).1]
    exact ih
  | case4 remaining s txBytes hdone =>
    rw [bulkLoop, canSend_socket, if_neg hdone]

theorem erase_takeRequest (s : LoggedSocket σ) :
    takeRequest s.socket = ((takeRequest s).1, (takeRequest s).2.socket) := by
  unfold takeRequest
  rw [mayRecv_socket]
  by_cases hmay : mayRecv s
  · rw [if_pos hmay, if_pos hmay]
    cases hr : recv s fun buf =>
      (buf.length, !buf.isEmpty, (asciiBytes "GET /bulk").isPrefixOf buf) with
    | none => rw [recv_eq_none.1 hr]
    | some r => rw [(recv_eq_some.1 hr).1]
  · rw [if_neg hmay, if_neg hmay]

theorem erase_dropRequest (s : LoggedSocket σ) :
    (dropRequest s).socket = dropRequest s.socket := by
  unfold dropRequest
  rw [mayRecv_socket]
  by_cases hmay : mayRecv s
  · rw [if_pos hmay, if_pos hmay]
    cases hr : recv s fun buf => (buf.length, ()) with
    | none => rw [recv_eq_none.1 hr]
    | some r => rw [(recv_eq_some.1 hr).1]
  · rw [if_neg hmay, if_neg hmay]

theorem erase_sendStatus (page : List UInt8) (s : LoggedSocket σ) :
    (sendStatus page s).socket = sendStatus page s.socket := by
  unfold sendStatus
  rw [canSend_socket]
  by_cases hcan : canSend s
  · rw [if_pos hcan, if_pos hcan, ← erase_sendIgnore, ← erase_sendIgnore]
    rfl
  · rw [if_neg hcan, if_neg hcan]

theorem erase_continueBulk (remaining : ℕ) (headerSent : Bool)
    (c : Server (LoggedSocket σ) HttpVars) :
    (continueBulk remaining headerSent c).erase = continueBulk remaining headerSent c.erase := by
  unfold continueBulk
  rw [Server.socket_erase, canSend_socket]
  by_cases hwait : !headerSent && !canSend c.socket
  · rw [if_pos hwait, if_pos hwait]
  · rw [if_neg hwait, if_neg hwait]
    have hsocket : (if headerSent then c.socket.socket else sendIgnore c.socket.socket bulkHead) =
        (if headerSent then c.socket else sendIgnore c.socket bulkHead).socket := by
      split
      · rfl
      · exact (erase_sendIgnore _ _).symm
    simp only [hsocket, Server.vars_erase, erase_bulkLoop]
    obtain ⟨n, s, txBytes⟩ :=
      bulkLoop remaining (if headerSent then c.socket else sendIgnore c.socket bulkHead)
        c.vars.txBytes
    cases n <;> rfl

theorem erase_serveStatusHttp (page : List UInt8) (c : Server (LoggedSocket σ) HttpVars) :
    (serveStatusHttp page c).erase = serveStatusHttp page c.erase := by
  by_cases hopen : isOpen c.socket
  · rw [serveStatusHttp, if_pos hopen, serveStatusHttp, Server.socket_erase, isOpen_socket,
      if_pos hopen]
    cases hc : c.vars.state with
    | bulk remaining headerSent =>
      simp only [Server.erase, hc]
      exact erase_continueBulk remaining headerSent c
    | idle =>
      have htake : takeRequest c.erase.socket = _ := erase_takeRequest c.socket
      simp only [Server.erase, hc] at htake ⊢
      rw [htake]
      obtain ⟨⟨haveReq, routeBulk⟩, s⟩ := takeRequest c.socket
      cases haveReq <;> cases routeBulk
      · rfl
      · rfl
      · exact congrArg (fun s => Server.mk s c.vars) (erase_sendStatus page s)
      · rfl
  · rw [serveStatusHttp, if_neg hopen, serveStatusHttp, Server.socket_erase, isOpen_socket,
      if_neg hopen]
    rfl

theorem erase_serveHttp (x : UInt32 × UInt32 × UInt32) (c : Server (LoggedSocket σ) Unit) :
    (serveHttp x c).erase = serveHttp x c.erase := by
  by_cases hopen : isOpen c.socket
  · rw [serveHttp, if_pos hopen, serveHttp, Server.socket_erase, isOpen_socket,
      if_pos hopen]
    simp only [Server.erase, erase_sendStatus, erase_dropRequest]
  · rw [serveHttp, if_neg hopen, serveHttp, Server.socket_erase, isOpen_socket,
      if_neg hopen]
    simp only [Server.erase, erase_sendStatus, erase_dropRequest]
    rfl

theorem erase_serveHttpBulk (c : Server (LoggedSocket σ) HttpBulkState) :
    (serveHttpBulk c).erase = serveHttpBulk c.erase := by
  by_cases hopen : isOpen c.socket
  · rw [serveHttpBulk, if_pos hopen, serveHttpBulk, Server.socket_erase, isOpen_socket,
      if_pos hopen]
    cases hc : c.vars with
    | idle =>
      simp only [Server.erase, hc, ← erase_dropRequest, canSend_socket]
      by_cases hcan : canSend (dropRequest c.socket)
      · rw [if_pos hcan, if_pos hcan, ← erase_sendIgnore]
      · rw [if_neg hcan, if_neg hcan]
    | sending remaining =>
      simp only [Server.erase, hc, ← erase_dropRequest, erase_bulkLoop]
      obtain ⟨n, s, txBytes⟩ := bulkLoop remaining (dropRequest c.socket) 0
      cases n <;> rfl
  · rw [serveHttpBulk, if_neg hopen, serveHttpBulk, Server.socket_erase, isOpen_socket,
      if_neg hopen]
    rfl

end Erase

/-! ### Runs -/

/-- `serve_status_http` on a logged socket. -/
def statusLogged (σ : Type) [TcpSocketOps σ] :
    System (Server (LoggedSocket σ) HttpVars) (ServerEvent StatusPage) :=
  loggedSystem ⟨.idle, 0⟩ fun page => serveStatusHttp page.1

/-- `serve_http` on a logged socket. -/
def httpLogged (σ : Type) [TcpSocketOps σ] :
    System (Server (LoggedSocket σ) Unit) (ServerEvent (UInt32 × UInt32 × UInt32)) :=
  loggedSystem () serveHttp

/-- `serve_http_bulk` on a logged socket. -/
def httpBulkLogged (σ : Type) [TcpSocketOps σ] :
    System (Server (LoggedSocket σ) HttpBulkState) (ServerEvent Unit) :=
  loggedSystem .idle fun _ => serveHttpBulk

/-- A part of one response is written, and the whole of it once this side has closed. -/
def SendsWhole {σ τ : Type} [TcpSocketOps σ] (W : List UInt8 → Prop)
    (c : Server (LoggedSocket σ) τ) : Prop :=
  PartOf W c.socket.written ∧
    ((state c.socket).OwnSideClosed ∨ state c.socket = .timeWait → W c.socket.written)

section Runs

variable {σ τ : Type} [TcpSocketOps σ] [LawfulTcpSocket σ] {cap : ℕ}

omit [LawfulTcpSocket σ] in
theorem SentAt.sendsWhole {W : List UInt8 → Prop} {ph : Phases τ} {c : Server (LoggedSocket σ) τ}
    (h : SentAt W ph c) : SendsWhole W c := ⟨h.part, h.whole⟩

theorem StatusResponse.snoc {evs : List (ServerEvent StatusPage)} {w : List UInt8}
    (h : StatusResponse evs w) (ev : ServerEvent StatusPage) : StatusResponse (evs ++ [ev]) w :=
  h.imp_left fun ⟨page, hpage, hw⟩ => ⟨page, List.mem_append_left _ hpage, hw⟩

theorem HttpResponse.snoc {evs : List (ServerEvent (UInt32 × UInt32 × UInt32))} {w : List UInt8}
    (h : HttpResponse evs w) (ev : ServerEvent (UInt32 × UInt32 × UInt32)) :
    HttpResponse (evs ++ [ev]) w :=
  h.imp fun _ ⟨hx, hw⟩ => ⟨List.mem_append_left _ hx, hw⟩

theorem statusLogged_sentAt (hbuf : TxBuffer σ cap) (hcap : 32 * 1024 ≤ cap)
    {evs : List (ServerEvent StatusPage)} {c : Server (LoggedSocket σ) HttpVars}
    (h : (statusLogged σ).Run evs c) : SentAt (StatusResponse evs) statusPhases c :=
  run_sentAt (fun _ ev _ hr => hr.snoc ev)
    (fun _ page _ hc => hc.serveStatusHttp hbuf hcap page.2
      (.inl ⟨page, List.mem_append_right _ (List.mem_singleton.2 rfl), rfl⟩) (.inr rfl)) h

theorem httpLogged_sentAt (hbuf : TxBuffer σ cap) (hcap : 1024 ≤ cap)
    {evs : List (ServerEvent (UInt32 × UInt32 × UInt32))} {c : Server (LoggedSocket σ) Unit}
    (h : (httpLogged σ).Run evs c) : SentAt (HttpResponse evs) httpPhases c :=
  run_sentAt (fun _ ev _ hr => hr.snoc ev)
    (fun _ x _ hc => hc.serveHttp hbuf hcap x
      ⟨x, List.mem_append_right _ (List.mem_singleton.2 rfl), rfl⟩) h

theorem httpBulkLogged_sentAt (hbuf : TxBuffer σ cap) (hcap : 32 * 1024 ≤ cap)
    {evs : List (ServerEvent Unit)} {c : Server (LoggedSocket σ) HttpBulkState}
    (h : (httpBulkLogged σ).Run evs c) : SentAt HttpBulkResponse httpBulkPhases c :=
  run_sentAt (W := fun _ => HttpBulkResponse) (fun _ _ _ hr => hr)
    (fun _ _ _ hc => hc.serveHttpBulk hbuf hcap rfl) h

end Runs

/-- **Whole responses.**  Whatever the network does, and however the calls fall, what a server
writes on a connection is a part of one response, and the whole response if this side has closed;
the log is there for every run of the server. -/
theorem http_whole {σ : Type} [TcpSocketOps σ] [LawfulTcpSocket σ] {cap : ℕ}
    (hbuf : TxBuffer σ cap) (hcap : 1024 ≤ cap) :
    ((∀ evs c, (httpLogged σ).Run evs c → SendsWhole (HttpResponse evs) c) ∧
        ∀ evs c, (serverSystem () (serveHttp (σ := σ))).Run evs c →
          ∃ c', (httpLogged σ).Run evs c' ∧ c'.erase = c) ∧
      (32 * 1024 ≤ cap →
        ((∀ evs c, (statusLogged σ).Run evs c → SendsWhole (StatusResponse evs) c) ∧
          ∀ evs c,
            (serverSystem ⟨.idle, 0⟩ fun page : StatusPage => serveStatusHttp (σ := σ) page.1).Run
              evs c → ∃ c', (statusLogged σ).Run evs c' ∧ c'.erase = c) ∧
        ((∀ evs c, (httpBulkLogged σ).Run evs c → SendsWhole HttpBulkResponse c) ∧
          ∀ evs c, (serverSystem .idle fun _ : Unit => serveHttpBulk (σ := σ)).Run evs c →
            ∃ c', (httpBulkLogged σ).Run evs c' ∧ c'.erase = c)) := by
  refine ⟨⟨fun evs c h => (httpLogged_sentAt hbuf hcap h).sendsWhole, fun evs c h => ?_⟩,
    fun hbig => ⟨⟨fun evs c h => (statusLogged_sentAt hbuf hbig h).sendsWhole, fun evs c h => ?_⟩,
      ⟨fun evs c h => (httpBulkLogged_sentAt hbuf hbig h).sendsWhole, fun evs c h => ?_⟩⟩⟩
  · exact exists_logged serveHttp serveHttp erase_serveHttp h
  · have herase : ∀ (page : StatusPage) (c : Server (LoggedSocket σ) HttpVars),
        (serveStatusHttp page.1 c).erase = serveStatusHttp page.1 c.erase :=
      fun page => erase_serveStatusHttp page.1
    exact exists_logged (fun page : StatusPage => serveStatusHttp page.1)
      (fun page : StatusPage => serveStatusHttp page.1) herase h
  · exact exists_logged (fun _ => serveHttpBulk) (fun _ => serveHttpBulk)
      (fun _ => erase_serveHttpBulk) h

theorem SimpleSocket.txBuffer : TxBuffer SimpleSocket (32 * 1024) where
  txCapacity _ := rfl
  sendSlice _ _ hmay := ⟨_, if_pos hmay, rfl⟩

theorem run_netLogged {τ π : Type} {vars v : τ}
    {serve : π → Server (LoggedSocket SimpleSocket) τ → Server (LoggedSocket SimpleSocket) τ}
    {evs : List (ServerEvent π)} {st st' : SocketState} {un : List UInt8} (ev : SocketEvent)
    (h : (loggedSystem vars serve).Run evs ⟨⟨⟨st, un, 0⟩, []⟩, v⟩) (hst : st' ∈ st.after ev)
    {un' : List UInt8} (hun : un' = un ++ ev.bytes) :
    (loggedSystem vars serve).Run (evs ++ [.net ev]) ⟨⟨⟨st', un', 0⟩, []⟩, v⟩ := by
  have hev : event ev (⟨⟨st, un, 0⟩, []⟩ : LoggedSocket SimpleSocket) ⟨⟨st', un', 0⟩, []⟩ :=
    ⟨⟨hst, hun, le_rfl⟩, rfl⟩
  exact h.snoc (.net ev _ hev)

/-- A server listens, and answers a client that ends the handshake with `ev`. -/
theorem run_client {τ π : Type} {vars v : τ}
    {serve : π → Server (LoggedSocket SimpleSocket) τ → Server (LoggedSocket SimpleSocket) τ}
    (x : π) (ev : SocketEvent) (hev : SocketState.established ∈ SocketState.synReceived.after ev)
    (hlisten : serve x ⟨⟨.fresh, []⟩, vars⟩ = ⟨⟨⟨.listen, [], 0⟩, []⟩, v⟩) :
    (loggedSystem vars serve).Run ([] ++ [.call x] ++ [.net .connect] ++ [.net ev] ++ [.call x])
      (serve x ⟨⟨⟨.established, ev.bytes, 0⟩, []⟩, v⟩) := by
  have h₀ : (loggedSystem vars serve).Run [] ⟨⟨.fresh, []⟩, vars⟩ := .init ⟨⟨rfl, rfl, rfl⟩, rfl⟩
  have h₁ : (loggedSystem vars serve).Run _ ⟨⟨⟨.listen, [], 0⟩, []⟩, v⟩ :=
    hlisten ▸ h₀.snoc (.call x)
  have h₂ : (loggedSystem vars serve).Run _ ⟨⟨⟨.synReceived, [], 0⟩, []⟩, v⟩ :=
    run_netLogged .connect h₁ (.head _) rfl
  have h₃ : (loggedSystem vars serve).Run _ ⟨⟨⟨.established, ev.bytes, 0⟩, []⟩, v⟩ :=
    run_netLogged ev h₂ hev rfl
  exact h₃.snoc (.call x)

/-- A client of each server: two get their page, the third one the head of the download. -/
theorem http_whole_clients :
    HttpResponse [.call (7, 400, 0), .net .connect, .net .ack, .call (7, 400, 0)]
        (serveHttp (7, 400, 0)
          (⟨⟨⟨.established, [], 0⟩, []⟩, ()⟩ : Server (LoggedSocket SimpleSocket) _)).socket.written ∧
      StatusResponse [.call ⟨[65], by decide⟩, .net .connect, .net (.data (asciiBytes "GET /")),
          .call ⟨[65], by decide⟩]
        (serveStatusHttp [65] (⟨⟨⟨.established, asciiBytes "GET /", 0⟩, []⟩, ⟨.idle, 0⟩⟩ :
          Server (LoggedSocket SimpleSocket) _)).socket.written ∧
      PartOf HttpBulkResponse (serveHttpBulk (⟨⟨⟨.established, [], 0⟩, []⟩, .idle⟩ :
        Server (LoggedSocket SimpleSocket) _)).socket.written := by
  have hhttp := http_whole SimpleSocket.txBuffer (by decide)
  refine ⟨?_, ?_, ?_⟩
  · exact (hhttp.1.1 _ _ (run_client (7, 400, 0) .ack (.head _) rfl)).2 (.inl (.inl rfl))
  · exact ((hhttp.2 le_rfl).1.1 _ _ (run_client ⟨[65], by decide⟩ (.data (asciiBytes "GET /"))
      (.head _) rfl)).2 (.inl (.inl rfl))
  · exact ((hhttp.2 le_rfl).2.1 _ _ (run_client () .ack (.head _) rfl)).1

end Pico10BaseT
