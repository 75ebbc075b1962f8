import Mathlib.Data.List.Basic
import Mathlib.Tactic.Common
import Pico10BaseT.LTS.Basic

/-!
# The NAPT connection-tracking table

The table of `conntrack.rs`: `CT_CAP` slots keyed by the LAN-side 5-tuple, a rolling cursor that
hands out WAN ids, and the telemetry counters its operations touch.  `outbound`, `inbound` and
`reap` are the three operations; each is the source function with the table and the counters
passed through.  Times are milliseconds; the source compares them and subtracts them with
saturation, so they are natural numbers here.

`ctSystem` is the table as a labelled system: a label is an operation with its answer.

* `CtState.outbound_cases`, `CtState.inbound_cases` : everything one operation can do, which is
  all the later modules use.
-/

namespace Pico10BaseT

/-- An IPv4 address by its octets. -/
structure Ipv4Address where
  (a b c d : UInt8)
  deriving DecidableEq, Repr

namespace Ipv4Address

/-- `0.0.0.0`. -/
def unspecified : Ipv4Address := ⟨0, 0, 0, 0⟩

def isUnspecified (ip : Ipv4Address) : Bool := decide (ip = unspecified)

def octets (ip : Ipv4Address) : List UInt8 := [ip.a, ip.b, ip.c, ip.d]

end Ipv4Address

/-- Flow transport. -/
inductive Proto
  | tcp | udp | icmpEcho
  deriving DecidableEq, Repr

/-- LAN-side outbound 5-tuple: LAN client source, WAN peer destination. -/
structure Tuple where
  proto : Proto
  srcIp : Ipv4Address
  srcId : UInt16
  dstIp : Ipv4Address
  dstId : UInt16
  deriving DecidableEq, Repr

/-- Lowest WAN id. -/
def natLo : UInt16 := 49152

/-- Highest WAN id. -/
def natHi : UInt16 := 65535

/-- Table capacity. -/
def ctCap : ℕ := 64

/-! ### TCP state and idle timeouts -/

def tTcpEst : ℕ := 60000
def tTcpTrans : ℕ := 10000
def tUdp : ℕ := 30000
def tIcmp : ℕ := 10000

def tcpFin : UInt8 := 0x01
def tcpSyn : UInt8 := 0x02
def tcpRst : UInt8 := 0x04

inductive TcpState
  /-- SYN seen, handshake not complete. -/
  | new
  /-- Bidirectional data. -/
  | established
  /-- FIN or RST seen. -/
  | closing
  deriving DecidableEq, Repr

/-- Coarse TCP state for timeouts only. -/
def nextTcpState (cur : TcpState) (flags : UInt8) : TcpState :=
  if flags &&& (tcpFin ||| tcpRst) ≠ 0 then .closing
  else if flags &&& tcpSyn ≠ 0 then
    -- SYN stays New unless already closing
    if cur = .closing then cur else .new
  else .established

/-! ### Entries -/

structure Entry where
  used : Bool
  proto : Proto
  lanIp : Ipv4Address
  lanId : UInt16
  remoteIp : Ipv4Address
  remoteId : UInt16
  wanId : UInt16
  lastSeen : ℕ
  tcp : TcpState
  deriving DecidableEq, Repr

namespace Entry

def empty : Entry where
  used := false
  proto := .udp
  lanIp := .unspecified
  lanId := 0
  remoteIp := .unspecified
  remoteId := 0
  wanId := 0
  lastSeen := 0
  tcp := .new

def timeoutMs (e : Entry) : ℕ :=
  match e.proto with
  | .udp => tUdp
  | .icmpEcho => tIcmp
  | .tcp => match e.tcp with
    | .established => tTcpEst
    | _ => tTcpTrans

/-- The idle test of `pick_slot` and `reap`. -/
def expired (e : Entry) (nowMs : ℕ) : Bool := decide (e.timeoutMs ≤ nowMs - e.lastSeen)

/-- The lookup test of `outbound`. -/
def isFlow (e : Entry) (t : Tuple) : Bool :=
  e.used && e.proto = t.proto && e.lanIp = t.srcIp && e.lanId = t.srcId &&
    e.remoteIp = t.dstIp && e.remoteId = t.dstId

/-- The lookup test of `inbound`. -/
def isReply (e : Entry) (proto : Proto) (remoteIp : Ipv4Address) (remoteId wanId : UInt16)
    (nowMs : ℕ) : Bool :=
  e.used && e.proto = proto && e.wanId = wanId && e.remoteIp = remoteIp &&
    e.remoteId = remoteId && nowMs - e.lastSeen < e.timeoutMs

/-- The flow an entry holds. -/
def tuple (e : Entry) : Tuple := ⟨e.proto, e.lanIp, e.lanId, e.remoteIp, e.remoteId⟩

/-- A packet of the flow at `nowMs` refreshes its entry. -/
def touch (e : Entry) (tcpFlags : UInt8) (nowMs : ℕ) : Entry :=
  { e with lastSeen := nowMs, tcp := nextTcpState e.tcp tcpFlags }

variable {e : Entry} {f : UInt8} {now : ℕ}

@[simp] theorem used_touch : (e.touch f now).used = e.used := rfl
@[simp] theorem wanId_touch : (e.touch f now).wanId = e.wanId := rfl
@[simp] theorem tuple_touch : (e.touch f now).tuple = e.tuple := rfl

theorem isFlow_iff {t : Tuple} : e.isFlow t = true ↔ e.used = true ∧ e.tuple = t := by
  cases t
  simp [isFlow, tuple, and_assoc]

theorem isReply_iff {proto : Proto} {rip : Ipv4Address} {rid wid : UInt16} :
    e.isReply proto rip rid wid now = true ↔
      e.used = true ∧ e.wanId = wid ∧ e.tuple = ⟨proto, e.lanIp, e.lanId, rip, rid⟩ ∧
        now - e.lastSeen < e.timeoutMs := by
  simp only [isReply, tuple, Bool.and_eq_true, decide_eq_true_eq, Tuple.mk.injEq, true_and]
  tauto

theorem not_expired_iff : e.expired now = false ↔ now - e.lastSeen < e.timeoutMs := by
  simp [expired]

end Entry

/-! ### The table -/

/-- The NAPT connection-tracking table. -/
structure Conntrack where
  slots : List Entry
  /-- Rolling id-allocation cursor. -/
  cursor : UInt16
  /-- The slot array has a fixed size. -/
  size : slots.length = ctCap

namespace Conntrack

def new : Conntrack where
  slots := List.replicate ctCap Entry.empty
  cursor := natLo
  size := by simp

variable (ct : Conntrack)

/-- Slot `i`. -/
def slot (i : ℕ) : Entry := ct.slots.getD i Entry.empty

/-- Overwrite slot `i`. -/
def setSlot (i : ℕ) (e : Entry) : Conntrack where
  slots := ct.slots.set i e
  cursor := ct.cursor
  size := by simp [ct.size]

def idInUse (id : UInt16) : Bool := ct.slots.any fun s => s.used && s.wanId = id

/-- The cursor after `id`. -/
def nextId (id : UInt16) : UInt16 := if id = natHi then natLo else id + 1

/-- At most `n` probes from `cursor`: the first free id, and the cursor after it. -/
def probe : ℕ → UInt16 → Option UInt16 × UInt16
  | 0, cursor => (none, cursor)
  | n + 1, cursor =>
    if ct.idInUse cursor then probe n (nextId cursor) else (some cursor, nextId cursor)

/-- Next free WAN id, probing from the rolling cursor. -/
def allocId : Conntrack × Option UInt16 :=
  let span := (natHi - natLo).toNat + 1
  let r := ct.probe span ct.cursor
  ({ ct with cursor := r.2 }, r.1)

/-- Pick a slot for a new entry: a free slot, else an expired one, else the LRU. -/
def pickSlot (nowMs : ℕ) : ℕ :=
  match ct.slots.findIdx? fun s => !s.used with
  | some i => i
  | none =>
    match ct.slots.findIdx? fun s => s.expired nowMs with
    | some i => i
    | none =>
      (List.range' 1 (ctCap - 1)).foldl
        (fun best i => if (ct.slot i).lastSeen < (ct.slot best).lastSeen then i else best) 0

end Conntrack

/-- The table with the counters of the module: live entries, packets rewritten out and in,
entries created and reclaimed, packets dropped for want of an id. -/
structure CtState where
  ct : Conntrack
  natLive : UInt32
  natOut : UInt32
  natIn : UInt32
  natNew : UInt32
  natEvict : UInt32
  natDrop : UInt32

namespace CtState

def new : CtState where
  ct := .new
  natLive := 0
  natOut := 0
  natIn := 0
  natNew := 0
  natEvict := 0
  natDrop := 0

/-- The entry of a new flow. -/
def newEntry (t : Tuple) (wanId : UInt16) (tcpFlags : UInt8) (nowMs : ℕ) : Entry where
  used := true
  proto := t.proto
  lanIp := t.srcIp
  lanId := t.srcId
  remoteIp := t.dstIp
  remoteId := t.dstId
  wanId := wanId
  lastSeen := nowMs
  tcp := nextTcpState .new tcpFlags

/-- LAN→WAN: find or create the flow and return its WAN id.  `none` on exhaustion. -/
def outbound (s : CtState) (t : Tuple) (tcpFlags : UInt8) (nowMs : ℕ) :
    CtState × Option UInt16 :=
  match s.ct.slots.findIdx? fun e => e.isFlow t with
  | some i =>
    ({ s with
        ct := s.ct.setSlot i ((s.ct.slot i).touch tcpFlags nowMs)
        natOut := s.natOut + 1 }, some (s.ct.slot i).wanId)
  | none =>
    match s.ct.allocId with
    | (ct, none) => ({ s with ct := ct, natDrop := s.natDrop + 1 }, none)
    | (ct, some wanId) =>
      let idx := ct.pickSlot nowMs
      ({ s with
          ct := ct.setSlot idx (newEntry t wanId tcpFlags nowMs)
          natLive := if (ct.slot idx).used then s.natLive else s.natLive + 1
          natEvict := if (ct.slot idx).used then s.natEvict + 1 else s.natEvict
          natNew := s.natNew + 1
          natOut := s.natOut + 1 }, some wanId)

/-- WAN→LAN: match a reply to a live flow and return the LAN `(ip, id)`.
`none` means it is not NAT traffic. -/
def inbound (s : CtState) (proto : Proto) (remoteIp : Ipv4Address) (remoteId wanId : UInt16)
    (tcpFlags : UInt8) (nowMs : ℕ) : CtState × Option (Ipv4Address × UInt16) :=
  match s.ct.slots.findIdx? fun e => e.isReply proto remoteIp remoteId wanId nowMs with
  | some i =>
    ({ s with
        ct := s.ct.setSlot i ((s.ct.slot i).touch tcpFlags nowMs)
        natIn := s.natIn + 1 }, some ((s.ct.slot i).lanIp, (s.ct.slot i).lanId))
  | none => (s, none)

/-- Free an idle entry. -/
def reapEntry (nowMs : ℕ) (e : Entry) : Entry :=
  if e.used && e.expired nowMs then { e with used := false } else e

/-- Sweep expired entries. -/
def reap (s : CtState) (nowMs : ℕ) : CtState :=
  let n := UInt32.ofNat (s.ct.slots.countP fun e => e.used && e.expired nowMs)
  { s with
    ct := { s.ct with
      slots := s.ct.slots.map (reapEntry nowMs)
      size := by simp [s.ct.size] }
    natLive := s.natLive - n
    natEvict := s.natEvict + n }

end CtState

/-! ### The table as a labelled system -/

/-- An operation of the table with its answer. -/
inductive CtEvent
  | outbound (t : Tuple) (tcpFlags : UInt8) (nowMs : ℕ) (r : Option UInt16)
  | inbound (proto : Proto) (remoteIp : Ipv4Address) (remoteId wanId : UInt16)
      (tcpFlags : UInt8) (nowMs : ℕ) (r : Option (Ipv4Address × UInt16))
  | reap (nowMs : ℕ)
  deriving DecidableEq, Repr

namespace CtEvent

/-- The clock an operation was called with. -/
def time : CtEvent → ℕ
  | outbound _ _ now _ => now
  | inbound _ _ _ _ _ now _ => now
  | reap now => now

end CtEvent

/-- One operation. -/
def ctStep (s : CtState) : CtEvent → CtState → Prop
  | .outbound t f now r, s' => s.outbound t f now = (s', r)
  | .inbound proto rip rid wid f now r, s' => s.inbound proto rip rid wid f now = (s', r)
  | .reap now, s' => s.reap now = s'

/-- The table from `Conntrack::new()`, under any operations. -/
def ctSystem : System CtState CtEvent where
  init s := s = CtState.new
  step s ev s' := ctStep s ev s'

/-- The clock of a run never goes back. -/
def Clocked (tr : List CtEvent) : Prop := tr.Pairwise fun a b => a.time ≤ b.time

end Pico10BaseT
