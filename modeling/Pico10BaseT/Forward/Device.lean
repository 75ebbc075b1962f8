import Pico10BaseT.Forward.Basic

/-!
# Classifying and forwarding frames

`classify`, `nexthop` and the two places of `ForwardingDevice` where the NAPT device meets the
conntrack table: `classify_frame` on ingress and the first part of `egress`.  The table and its
counters are passed through.

The subnet type of smoltcp is a parameter: a type `κ` with its address and its membership test
(`CidrOps`).

* `ForwardingDevice.egressNapt_spec` : a parsed LAN frame leaves with the WAN side as its source.
* `ForwardingDevice.classifyFrame_reply` : a frame that `inbound` answers is rewritten and
  diverted.
-/

namespace Pico10BaseT

/-- What the forwarding code uses of a subnet. -/
class CidrOps (κ : Type) where
  address : κ → Ipv4Address
  containsAddr : κ → Ipv4Address → Bool

/-- An address with a prefix length. -/
structure Ipv4Cidr where
  addr : Ipv4Address
  prefixLen : ℕ

/-- The address as a 32-bit number. -/
def Ipv4Address.toNat (ip : Ipv4Address) : ℕ :=
  ((ip.a.toNat * 256 + ip.b.toNat) * 256 + ip.c.toNat) * 256 + ip.d.toNat

/-- The first `prefixLen` bits agree. -/
instance : CidrOps Ipv4Cidr where
  address net := net.addr
  containsAddr net ip :=
    decide (net.addr.toNat / 2 ^ (32 - net.prefixLen) = ip.toNat / 2 ^ (32 - net.prefixLen))

/-- Which interface a device or a neighbor table belongs to. -/
inductive Iface
  | lan | wan
  deriving DecidableEq, Repr

/-- An interface: our MAC and address, the subnet, the gateway, and the routing filter of
ingress. -/
structure IfaceCfg (κ : Type) where
  iface : Iface
  ourMac : Vector UInt8 6
  ourIp : Ipv4Address
  subnet : κ
  gateway : Option Ipv4Address
  acceptDst : Option κ

inductive Class
  /-- Hand to smoltcp. -/
  | local
  /-- Forward out the other interface. -/
  | transit
  /-- Addressed to us at L2 but not routable here. -/
  | drop
  deriving DecidableEq, Repr

/-- IPv4 dst address of an Ethernet frame, if it is a long-enough IPv4 frame. -/
def ipv4Dst (frame : Frame) : Exec (Option Ipv4Address) := do
  if frame.length < 14 + 20 then return none
  else
    let etype ← rd16 frame 12
    if etype ≠ ethertypeIpv4 then return none
    else
      let dst ← rdIp frame 30
      return some dst

variable {κ : Type} [CidrOps κ]

def classify (cfg : IfaceCfg κ) (frame : Frame) : Exec Class := do
  -- until this interface has an IP, everything goes to smoltcp
  if frame.length < 14 ∨ cfg.ourIp.isUnspecified then return .local
  else
    let mac ← slice frame 0 6
    if mac ≠ cfg.ourMac.toList then return .local
    else
      match ← ipv4Dst frame with
      | none => return .local
      | some dst =>
        if dst = cfg.ourIp then return .local
        else
          match cfg.acceptDst with
          | none => return .transit
          | some net => return if CidrOps.containsAddr net dst then .transit else .drop

/-- Next hop for `dst`: itself if on-subnet, else the gateway. -/
def nexthop (dst : Ipv4Address) (subnet : κ) (gateway : Option Ipv4Address) :
    Option Ipv4Address :=
  if CidrOps.containsAddr subnet dst then some dst else gateway

/-- The classifying device: its configuration, and whether it does NAPT. -/
structure ForwardingDevice (κ : Type) where
  cfg : IfaceCfg κ
  nat : Bool

/-- `ts.total_millis().max(0) as u64`. -/
def nowMs (ts : ℤ) : ℕ := (max ts 0).toNat

/-- The tuple that `egress` tracks: ICMP echo has no dst port. -/
def outTuple (frame : Frame) (l4 : L4) : Tuple where
  proto := l4.proto
  srcIp := ipAt frame 26
  srcId := l4.srcId
  dstIp := ipAt frame 30
  dstId := if l4.proto = .icmpEcho then 0 else l4.dstId

namespace ForwardingDevice

/-- Set address, subnet, and gateway from a lease. -/
def setLease (dev : ForwardingDevice κ) (cidr : κ) (gateway : Option Ipv4Address) :
    ForwardingDevice κ :=
  { dev with cfg := { dev.cfg with ourIp := CidrOps.address cidr, subnet := cidr, gateway } }

/-- The NAPT part of `egress`: track the flow and rewrite the source.  No frame is left when the
ids are exhausted. -/
def egressNapt (dev : ForwardingDevice κ) (ct : CtState) (frame : Frame) (now : ℤ) :
    Exec (CtState × Option Frame) := do
  if dev.nat then
    match ← parseL4 frame with
    | some l4 =>
      let srcIp ← rdIp frame 26
      let dstIp ← rdIp frame 30
      let dstId := if l4.proto = .icmpEcho then 0 else l4.dstId
      let tuple : Tuple := { proto := l4.proto, srcIp, srcId := l4.srcId, dstIp, dstId }
      match ct.outbound tuple l4.tcpFlags (nowMs now) with
      | (ct, some id) =>
        let frame ← naptRewriteSrc frame l4 dev.cfg.ourIp id
        return (ct, some frame)
      | (ct, none) => return (ct, none)
    -- other protocols forward unmodified
    | none => return (ct, some frame)
  else return (ct, some frame)

/-- The guard of `classify_frame`: an IPv4 frame to our MAC and our address. -/
def toUs (cfg : IfaceCfg κ) (frame : Frame) : Exec Bool := do
  if cfg.ourIp.isUnspecified ∨ frame.length < 14 + 20 then return false
  else
    let mac ← slice frame 0 6
    if mac ≠ cfg.ourMac.toList then return false
    else
      let dst ← ipv4Dst frame
      return decide (dst = some cfg.ourIp)

/-- Classify an ingress frame.  A reply that matches conntrack is rewritten to the LAN client and
marked `transit`; misses fall through to `classify`. -/
def classifyFrame (dev : ForwardingDevice κ) (ct : CtState) (frame : Frame) (ts : ℤ) :
    Exec (Class × Frame × CtState) := do
  let guard ← if dev.nat then toUs dev.cfg frame else pure false
  let l4 ← if guard then parseL4 frame else pure none
  let (ct, m) ←
    match l4 with
    | some l4 => do
      let remoteIp ← rdIp frame 26
      -- the WAN peer is the source; our id is the dst port or echo id
      let (remoteId, wanId) := match l4.proto with
        | .icmpEcho => (0, l4.srcId)
        | _ => (l4.srcId, l4.dstId)
      let (ct, m) := ct.inbound l4.proto remoteIp remoteId wanId l4.tcpFlags (nowMs ts)
      pure (ct, m.map fun lan => (l4, lan))
    | none => pure (ct, none)
  match m with
  | some (l4, lanIp, lanId) =>
    let frame ← naptRewriteDst frame l4 lanIp lanId
    return (.transit, frame, ct)
  | none =>
    let c ← classify dev.cfg frame
    return (c, frame, ct)

end ForwardingDevice

/-! ### What the device does with a parsed frame -/

/-- The destination that `classify` and the guard of `classify_frame` read. -/
theorem ipv4Dst_eq (frame : Frame) : ipv4Dst frame =
    .ok (if 34 ≤ frame.length ∧ wordAt frame 12 = ethertypeIpv4 then some (ipAt frame 30)
      else none) := by
  unfold ipv4Dst
  by_cases hlen : frame.length < 14 + 20
  · rw [if_pos hlen, if_neg fun h => absurd h.1 (Nat.not_le.2 hlen), Exec.pure_eq]
  · rw [if_neg hlen, rd16_ok (by omega), Exec.ok_bind]
    by_cases het : wordAt frame 12 = ethertypeIpv4
    · rw [if_neg (not_not.2 het), rdIp_ok (by omega), Exec.ok_bind, Exec.pure_eq,
        if_pos ⟨Nat.not_lt.1 hlen, het⟩]
    · rw [if_pos het, if_neg fun h => het h.2, Exec.pure_eq]

theorem ipv4Dst_of_isL4 {frame : Frame} {l4 : L4} (h : IsL4 frame l4) :
    ipv4Dst frame = .ok (some (ipAt frame 30)) := by
  have hfit := h.fits
  have hihl := h.ihl
  rw [ipv4Dst_eq, if_pos ⟨by omega, h.etype⟩]

namespace ForwardingDevice

variable {dev : ForwardingDevice κ} {ct ct' : CtState} {frame : Frame} {l4 : L4} {ts : ℤ}

omit [CidrOps κ] in
/-- The NAPT device rewrites the source of a parsed frame to our address and the granted id. -/
theorem egressNapt_spec {id : UInt16} (hnat : dev.nat = true) (hl4 : IsL4 frame l4)
    (hout : ct.outbound (outTuple frame l4) l4.tcpFlags (nowMs ts) = (ct', some id)) :
    ∃ frame', dev.egressNapt ct frame ts = .ok (ct', some frame') ∧
      Rewritten 26 0 frame l4 dev.cfg.ourIp id frame' := by
  have hfit := hl4.fits
  have hihl := hl4.ihl
  obtain ⟨frame', hrw, hspec⟩ :=
    naptRewrite_spec 26 0 hl4 (by omega) (by omega) dev.cfg.ourIp id
  refine ⟨frame', ?_, hspec⟩
  rw [outTuple] at hout
  simp only [egressNapt, hnat, if_true, parseL4_eq_some_iff.2 hl4,
    rdIp_ok (show 26 + 3 < frame.length by omega), rdIp_ok (show 30 + 3 < frame.length by omega),
    Exec.ok_bind, hout, naptRewriteSrc, hrw, Exec.pure_eq]

/-- What `classify_frame` asks of the table for a parsed frame: the remote id and the WAN id. -/
def replyIds (l4 : L4) : UInt16 × UInt16 :=
  if l4.proto = .icmpEcho then (0, l4.srcId) else (l4.srcId, l4.dstId)

/-- A frame to us that the table answers is rewritten to the LAN client and diverted. -/
theorem classifyFrame_reply {lanIp : Ipv4Address} {lanId : UInt16} (hnat : dev.nat = true)
    (hip : dev.cfg.ourIp.isUnspecified = false) (hl4 : IsL4 frame l4)
    (hmac : frame.take 6 = dev.cfg.ourMac.toList) (hdst : ipAt frame 30 = dev.cfg.ourIp)
    (hin : ct.inbound l4.proto (ipAt frame 26) (replyIds l4).1 (replyIds l4).2 l4.tcpFlags
      (nowMs ts) = (ct', some (lanIp, lanId))) :
    ∃ frame', dev.classifyFrame ct frame ts = .ok (.transit, frame', ct') ∧
      Rewritten 30 2 frame l4 lanIp lanId frame' := by
  have hfit := hl4.fits
  have hihl := hl4.ihl
  obtain ⟨frame', hrw, hspec⟩ :=
    naptRewrite_spec 30 2 hl4 (by omega) (by omega) lanIp lanId
  refine ⟨frame', ?_, hspec⟩
  have hguard : toUs dev.cfg frame = .ok true := by
    have hlen : ¬ frame.length < 14 + 20 := by omega
    have hsl : slice frame 0 6 = .ok (frame.take 6) := slice_zero (by omega)
    simp [toUs, hip, hlen, hsl, hmac, ipv4Dst_of_isL4 hl4, hdst]
  simp only [classifyFrame, hnat, if_true, hguard, Exec.ok_bind, parseL4_eq_some_iff.2 hl4,
    rdIp_ok (show 26 + 3 < frame.length by omega)]
  cases hp : l4.proto <;> rw [hp] at hin <;>
    simp only [replyIds, hp, reduceCtorEq, if_true, if_false] at hin <;>
    simp only [hin, Option.map_some, Exec.pure_eq, Exec.ok_bind, naptRewriteDst, hrw]

end ForwardingDevice

end Pico10BaseT
