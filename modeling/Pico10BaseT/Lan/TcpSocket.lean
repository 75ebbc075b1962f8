import Mathlib.Data.Nat.Basic
import Mathlib.Data.List.Basic

/-!
# A TCP socket

The TCP socket of smoltcp is a parameter (`TcpSocketOps`): what its calls answer, and what a
segment of the peer may do to it.  A server relies on `LawfulTcpSocket`: when the socket counts as
open, that after the peer's FIN only unread bytes can be received, and where `close` leads.
-/

namespace Pico10BaseT

/-- The states of a connection. -/
inductive SocketState
  | closed
  | listen
  | synSent
  | synReceived
  | established
  | finWait1
  | finWait2
  | closeWait
  | closing
  | lastAck
  | timeWait
  deriving DecidableEq, Repr

/-- What the network brings to a socket.  A segment that the socket drops is no event, and `data` is
what it accepts of a segment, so that a FIN comes after all data. -/
inductive SocketEvent
  /-- The SYN of a peer. -/
  | connect
  | data (bytes : List UInt8)
  | ack
  | fin
  | rst
  /-- The end of the TIME-WAIT delay. -/
  | expire
  deriving DecidableEq, Repr

/-- The bytes that an event adds to the receive buffer. -/
def SocketEvent.bytes : SocketEvent → List UInt8
  | .data bytes => bytes
  | _ => []

namespace SocketState

/-- Where a local close leads. -/
def afterClose : SocketState → SocketState
  | .listen | .synSent => .closed
  | .synReceived | .established => .finWait1
  | .closeWait => .lastAck
  | s => s

/-- Where an event may lead; an acknowledgement may or may not cover the FIN of this side. -/
def after : SocketEvent → SocketState → List SocketState
  | .connect, .listen => [.synReceived]
  | .data _, .synReceived => [.established]
  | .data _, .established => [.established]
  | .data _, .finWait1 => [.finWait1]
  | .data _, .finWait2 => [.finWait2]
  | .ack, .synReceived => [.established]
  | .ack, .established => [.established]
  | .ack, .closeWait => [.closeWait]
  | .ack, .finWait1 => [.finWait1, .finWait2]
  | .ack, .finWait2 => [.finWait2]
  | .ack, .closing => [.closing, .timeWait]
  | .ack, .lastAck => [.lastAck, .closed]
  | .fin, .synReceived => [.closeWait]
  | .fin, .established => [.closeWait]
  | .fin, .finWait1 => [.closing]
  | .fin, .finWait2 => [.timeWait]
  | .rst, .synReceived => [.listen]
  | .rst, .established | .rst, .finWait1 | .rst, .finWait2 | .rst, .closeWait => [.closed]
  | .rst, .closing | .rst, .lastAck | .rst, .timeWait => [.closed]
  | .expire, .timeWait => [.closed]
  | _, _ => []

/-- There is a peer, and this side has not closed. -/
def OwnSideOpen (s : SocketState) : Prop := s = .synReceived ∨ s = .established ∨ s = .closeWait

instance (s : SocketState) : Decidable s.OwnSideOpen :=
  inferInstanceAs (Decidable (_ ∨ _ ∨ _))

/-- This side has closed, and the connection is not over. -/
def OwnSideClosed (s : SocketState) : Prop :=
  s = .finWait1 ∨ s = .finWait2 ∨ s = .closing ∨ s = .lastAck

variable {ev : SocketEvent} {s s' : SocketState}

theorem not_ownSideOpen_afterClose (s : SocketState) : ¬s.afterClose.OwnSideOpen := by
  cases s <;> simp [afterClose, OwnSideOpen]

theorem OwnSideOpen.afterClose (h : s.OwnSideOpen) : s.afterClose.OwnSideClosed := by
  rcases h with rfl | rfl | rfl <;> simp [SocketState.afterClose, OwnSideClosed]

theorem OwnSideClosed.not_ownSideOpen (h : s.OwnSideClosed) : ¬s.OwnSideOpen := by
  rcases h with rfl | rfl | rfl | rfl <;> decide

theorem OwnSideClosed.afterClose (h : s.OwnSideClosed) : s.afterClose = s := by
  rcases h with rfl | rfl | rfl | rfl <;> rfl

theorem afterClose_of_down (hs : s = .closed ∨ s = .timeWait) : s.afterClose = s := by
  rcases hs with rfl | rfl <;> rfl

theorem after_of_down (hs : s = .closed ∨ s = .timeWait) (h : s' ∈ s.after ev) : s' = .closed := by
  rcases hs with rfl | rfl <;> cases ev <;> simp_all [after]

theorem after_listen (h : s' ∈ listen.after ev) : ev = .connect ∧ s' = .synReceived := by
  cases ev <;> simp_all [after]

/-- This side gets open by a SYN, and keeps open by the FIN, data and acknowledgements. -/
theorem ownSideOpen_after (h : s' ∈ s.after ev) (hopen : s'.OwnSideOpen) :
    (ev = .connect ∧ s' = .synReceived) ∨ (ev = .fin ∧ s' = .closeWait) ∨
      (((∃ bytes, ev = .data bytes) ∨ ev = .ack) ∧ s.OwnSideOpen ∧
        (s' = .closeWait ↔ s = .closeWait)) := by
  rcases hopen with rfl | rfl | rfl <;> cases ev <;> cases s <;> simp_all [after, OwnSideOpen]

/-- An open side stays so, past the handshake, until the peer resets the connection. -/
theorem OwnSideOpen.after (hopen : s.OwnSideOpen) (h : s' ∈ s.after ev) :
    (ev = .rst ∧ (s' = .closed ∨ s' = .listen ∧ s = .synReceived)) ∨
      (((∃ bytes, ev = .data bytes) ∨ ev = .ack ∨ ev = .fin) ∧
        (s' = .established ∨ s' = .closeWait)) := by
  rcases hopen with rfl | rfl | rfl <;> cases ev <;> simp_all [SocketState.after]

theorem OwnSideClosed.after (hclosed : s.OwnSideClosed) (h : s' ∈ s.after ev) :
    s'.OwnSideClosed ∨ s' = .closed ∨ s' = .timeWait := by
  rcases hclosed with rfl | rfl | rfl | rfl <;> cases ev <;>
    simp_all [SocketState.after, OwnSideClosed] <;> tauto

end SocketState

/-- A TCP socket with states `σ`. -/
class TcpSocketOps (σ : Type) where
  state : σ → SocketState
  /-- The receive buffer. -/
  unread : σ → List UInt8
  /-- The bytes in the transmit buffer. -/
  sendQueue : σ → ℕ
  txCapacity : σ → ℕ
  isOpen : σ → Bool
  mayRecv : σ → Bool
  maySend : σ → Bool
  canRecv : σ → Bool
  canSend : σ → Bool
  listen : σ → UInt16 → σ
  /-- `recv` hands a contiguous part of the receive buffer to a closure, which says how much of it
  to take; `none` is its error. -/
  recv {ρ : Type} : σ → (List UInt8 → ℕ × ρ) → Option (ρ × σ)
  /-- `send_slice`, with the number of bytes that went into the transmit buffer. -/
  sendSlice : σ → List UInt8 → Option (ℕ × σ)
  close : σ → σ
  /-- What an event may do to the socket. -/
  event : SocketEvent → σ → σ → Prop

open TcpSocketOps

/-- What the servers rely on of a TCP socket. -/
class LawfulTcpSocket (σ : Type) [TcpSocketOps σ] : Prop where
  isOpen_iff : ∀ s : σ, isOpen s = true ↔ state s ≠ .closed ∧ state s ≠ .timeWait
  mayRecv_iff : ∀ s : σ, mayRecv s = true ↔
    (state s = .established ∨ state s = .finWait1 ∨ state s = .finWait2) ∨ unread s ≠ []
  maySend_iff : ∀ s : σ, maySend s = true ↔ state s = .established ∨ state s = .closeWait
  canRecv_iff : ∀ s : σ, canRecv s = true ↔ mayRecv s = true ∧ unread s ≠ []
  canSend_iff : ∀ s : σ, canSend s = true ↔ maySend s = true ∧ sendQueue s < txCapacity s
  txCapacity_pos : ∀ s : σ, 0 < txCapacity s
  listen_closed : ∀ (s : σ) (port : UInt16), isOpen s = false → port ≠ 0 →
    state (listen s port) = .listen ∧ unread (listen s port) = [] ∧ sendQueue (listen s port) = 0
  recv_none : ∀ {ρ : Type} (s : σ) (f : List UInt8 → ℕ × ρ), recv s f = none → mayRecv s = false
  recv_some : ∀ {ρ : Type} (s s' : σ) (f : List UInt8 → ℕ × ρ) (r : ρ), recv s f = some (r, s') →
    ∃ buf rest, unread s = buf ++ rest ∧ (buf = [] → rest = []) ∧ r = (f buf).2 ∧
      state s' = state s ∧ sendQueue s' = sendQueue s ∧ unread s' = (unread s).drop (f buf).1
  sendSlice_some : ∀ (s s' : σ) (data : List UInt8) (n : ℕ), sendSlice s data = some (n, s') →
    n ≤ data.length ∧ state s' = state s ∧ unread s' = unread s
  state_close : ∀ s : σ, state (close s) = (state s).afterClose
  event_spec : ∀ (ev : SocketEvent) (s s' : σ), TcpSocketOps.event ev s s' →
    state s' ∈ (state s).after ev ∧ unread s' = unread s ++ ev.bytes ∧ sendQueue s' ≤ sendQueue s

namespace LawfulTcpSocket

variable {σ : Type} [TcpSocketOps σ] [LawfulTcpSocket σ] {s : σ}

theorem isOpen_eq_false_iff : isOpen s = false ↔ state s = .closed ∨ state s = .timeWait := by
  rw [← Bool.not_eq_true, isOpen_iff]
  tauto

/-- In the states in which this side may still answer, only unread bytes can be received once the
peer has sent its FIN. -/
theorem mayRecv_closeWait (hst : state s = .closeWait) : mayRecv s = true ↔ unread s ≠ [] := by
  simp [mayRecv_iff, hst]

theorem isOpen_of_ownSideOpen (h : (state s).OwnSideOpen) : isOpen s = true := by
  rw [isOpen_iff]
  rcases h with h | h | h <;> simp [h]

end LawfulTcpSocket

end Pico10BaseT
