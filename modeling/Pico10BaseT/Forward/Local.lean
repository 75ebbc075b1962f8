import Pico10BaseT.Forward.Checksum
import Pico10BaseT.Forward.Ingress
import Pico10BaseT.Forward.RoundTrip

/-!
# What NAPT leaves to the local stack

`classify_frame` asks the table before the routing verdict.  In every reachable table the WAN ids of
used slots are in `NAT_LO..=NAT_HI`, so only a parsed frame to us with an id in that range can be
answered (`inRange_of_answer`), and any other one is classified as if there were no table
(`napt_noninterference`).

The range is not kept clear of the router's own sockets.  The ports that its DNS client picks may lie
in it, and then a reply to the router is taken for a reply to a LAN client that asks the same server
from the same WAN id (`ownDnsReply_local_iff`).  Nor does the table tell an echo request from a reply:
a host that a LAN client pings can ping that client through the router (`echoRequest_local_iff`).
-/

namespace Pico10BaseT

variable {κ : Type} [CidrOps κ]

open ForwardingDevice

/-- An IPv4 TCP, UDP or ICMP-echo frame to our MAC and address whose destination port or echo id is
in the NAT range. -/
def InNatRange (cfg : IfaceCfg κ) (frame : Frame) : Prop :=
  ∃ l4, parseL4 frame = .ok (some l4) ∧ frame.take 6 = cfg.ourMac.toList ∧
    ipAt frame 30 = cfg.ourIp ∧ natLo ≤ (replyIds l4).2 ∧ (replyIds l4).2 ≤ natHi

/-- Entries match replies only to WAN ids in the NAT range. -/
theorem inRange_of_isReply {s : CtState} (hI : s.Inv) {i : ℕ} (hi : i < ctCap) {proto : Proto}
    {rip : Ipv4Address} {rid wid : UInt16} {now : ℕ}
    (h : (s.ct.slot i).isReply proto rip rid wid now = true) : natLo ≤ wid ∧ wid ≤ natHi := by
  obtain ⟨hu, rfl, -⟩ := Entry.isReply_iff.1 h
  exact hI.idRange i hi hu

/-- The table answers only for WAN ids in the NAT range. -/
theorem inRange_of_answer {s s' : CtState} (hI : s.Inv) {proto : Proto} {rip : Ipv4Address}
    {rid wid : UInt16} {f : UInt8} {now : ℕ} {lan : Ipv4Address × UInt16}
    (h : s.inbound proto rip rid wid f now = (s', some lan)) : natLo ≤ wid ∧ wid ≤ natHi := by
  rcases CtState.inbound_cases h with ⟨i, hi, hr, -⟩ | ⟨-, hr, -⟩
  · exact inRange_of_isReply hI hi hr
  · cases hr

/-- `classify` keeps a frame to our address local. -/
theorem classify_own {cfg : IfaceCfg κ} {frame : Frame} (hdst : ipAt frame 30 = cfg.ourIp) :
    classify cfg frame = .ok .local := by
  rw [classify_eq, if_neg fun h => h.2.2.2 hdst]

/-- **NAPT does not interfere with traffic outside its id range.**  In every reachable table, a
frame that is not an IPv4 TCP, UDP or ICMP-echo frame to us with an id in the NAT range is classified
as without NAPT, and frame and table are left as they are; and whatever the frame, a local verdict
leaves it unchanged, so `receive` hands to smoltcp the frame that it took from the inner device. -/
theorem napt_noninterference {s : CtState} (h : ctSystem.Reachable s) (dev : ForwardingDevice κ)
    (ts : ℤ) :
    (∀ frame, ¬ InNatRange dev.cfg frame → ∃ c, classify dev.cfg frame = .ok c ∧
      dev.classifyFrame s frame ts = .ok (c, frame, s)) ∧
    (∀ frame frame' s', dev.classifyFrame s frame ts = .ok (.local, frame', s') →
      frame' = frame) ∧
    ∀ st ready bufs st' out rest, dev.receive st ts ready bufs = .ok (st', some out, rest) →
      ∃ pre buf, bufs = pre ++ buf :: rest ∧ (buf.length ≤ frameCap → out = buf) := by
  refine ⟨fun frame hout => ?_, fun frame frame' s' hcl => ?_,
    fun st ready bufs st' out rest hrec => ?_⟩
  · rcases dev.classifyFrame_cases s frame ts with
      ⟨l4, s', lanIp, lanId, -, hask, hin, -⟩ | ⟨-, c, hc, hcl⟩
    · exact absurd ⟨l4, hask.parsed.parseL4, hask.toUs.mac, hask.toUs.dst,
        inRange_of_answer (ct_invariant h) hin⟩ hout
    · exact ⟨c, hc, hcl⟩
  · obtain ⟨c, frame₁, s₁, hcl₁, hlocal⟩ := dev.classifyFrame_ok s frame ts
    rw [hcl] at hcl₁
    simp only [Except.ok.injEq, Prod.mk.injEq] at hcl₁
    obtain ⟨rfl, rfl, rfl⟩ := hcl₁
    exact (hlocal rfl).1
  · obtain ⟨pre, buf, hbufs, rfl⟩ := receive_some hrec
    refine ⟨pre, buf, hbufs, fun hlen => ?_⟩
    rw [capture, Nat.min_eq_left hlen, List.take_length]

/-- The server of a client's flow answers to port 5353 of the router, below the range. -/
theorem napt_noninterference_dns :
    HoldsFlow dnsTable 0 (outTuple dnsQuery (udpL4 5353 53)) 49152 ∧
    parseL4 (udpHeaders ⟨8, 8, 8, 8⟩ 53 ⟨203, 0, 113, 9⟩ 5353 0) = .ok (some (udpL4 53 5353)) ∧
    (wanDev ⟨203, 0, 113, 9⟩).classifyFrame dnsTable
      (udpHeaders ⟨8, 8, 8, 8⟩ 53 ⟨203, 0, 113, 9⟩ 5353 0) 5 =
        .ok (.local, udpHeaders ⟨8, 8, 8, 8⟩ 53 ⟨203, 0, 113, 9⟩ 5353 0, dnsTable) := by
  have hparse : parseL4 (udpHeaders ⟨8, 8, 8, 8⟩ 53 ⟨203, 0, 113, 9⟩ 5353 0) =
      .ok (some (udpL4 53 5353)) := by decide +kernel
  have hout : ¬ InNatRange (wanDev ⟨203, 0, 113, 9⟩).cfg
      (udpHeaders ⟨8, 8, 8, 8⟩ 53 ⟨203, 0, 113, 9⟩ 5353 0) := by
    rintro ⟨l4, hl4, -, -, hlow, -⟩
    obtain rfl := Option.some.inj (Except.ok.inj (hl4.symm.trans hparse))
    exact absurd hlow (by decide)
  have hreach : ctSystem.Reachable dnsTable := (System.Reachable.init rfl).step (step_outbound rfl)
  obtain ⟨c, hc, hcl⟩ := (napt_noninterference hreach (wanDev ⟨203, 0, 113, 9⟩) 5).1 _ hout
  obtain rfl := Except.ok.inj (hc.symm.trans (classify_own rfl))
  exact ⟨⟨by decide, by decide +kernel, by decide +kernel, by decide +kernel⟩, hparse, hcl⟩

/-! ### The router's own DNS replies -/

/-- A UDP frame from `(server, 53)` to `(ourIp, p)`. -/
structure IsDnsReply (cfg : IfaceCfg κ) (server : Ipv4Address) (p : UInt16) (frame : Frame) :
    Prop where
  parsed : ∃ l4, parseL4 frame = .ok (some l4) ∧ l4.proto = .udp ∧ l4.srcId = 53 ∧ l4.dstId = p
  srcIp : ipAt frame 26 = server
  dstIp : ipAt frame 30 = cfg.ourIp

/-- A LAN client's flow to the server, not idle for its timeout, has the WAN id `p`. -/
def Shadowed (s : CtState) (server : Ipv4Address) (p : UInt16) (now : ℕ) : Prop :=
  ∃ i < ctCap, (s.ct.slot i).isReply .udp server 53 p now = true

/-- A miss means that no slot answers. -/
theorem inbound_eq_none {s : CtState} {proto : Proto} {rip : Ipv4Address} {rid wid : UInt16}
    {f : UInt8} {now : ℕ} (h : (s.inbound proto rip rid wid f now).2 = none) :
    ∀ i < ctCap, (s.ct.slot i).isReply proto rip rid wid now = false := by
  rcases hin : s.inbound proto rip rid wid f now with ⟨s', r⟩
  rw [hin] at h
  obtain rfl : r = none := h
  rcases CtState.inbound_cases hin with ⟨_, _, _, hr, _⟩ | ⟨hnone, _, _⟩
  · cases hr
  · exact hnone

/-- **A parsed frame to our address** stays local and unchanged exactly when it does not reach a
leased NAPT device by our MAC while the table answers for its ids. -/
theorem parsed_local_iff {s : CtState} {dev : ForwardingDevice κ} {frame : Frame} {l4 : L4}
    (hl4 : IsL4 frame l4) (hdst : ipAt frame 30 = dev.cfg.ourIp) (ts : ℤ) :
    (∃ s', dev.classifyFrame s frame ts = .ok (.local, frame, s')) ↔
      ¬(dev.nat = true ∧ dev.cfg.ourIp.isUnspecified = false ∧
        frame.take 6 = dev.cfg.ourMac.toList ∧ ∃ i < ctCap, (s.ct.slot i).isReply l4.proto
          (ipAt frame 26) (replyIds l4).1 (replyIds l4).2 (nowMs ts) = true) := by
  have hlen : 34 ≤ frame.length := by
    have := hl4.fits
    have := hl4.ihl
    omega
  rcases dev.classifyFrame_cases s frame ts with
    ⟨l4', s', lanIp, lanId, frame', hask, hin, hcl, -⟩ | ⟨hmiss, c, hc, hcl⟩
  · -- the frame is diverted: a slot answered
    obtain rfl : l4' = l4 := by simpa using hask.parsed.parseL4.symm.trans hl4.parseL4
    refine iff_of_false ?_ (not_not.2 ⟨hask.nat, hask.toUs.leased, hask.toUs.mac, ?_⟩)
    · rintro ⟨s'', hcl'⟩
      rw [hcl] at hcl'
      cases hcl'
    · rcases CtState.inbound_cases hin with ⟨i, hi, hrep, -⟩ | ⟨-, hr, -⟩
      · exact ⟨i, hi, hrep⟩
      · cases hr
  · rw [classify_own hdst] at hc
    cases hc
    refine iff_of_true ⟨s, hcl⟩ ?_
    rintro ⟨hnat, hip, hmac, i, hi, hrep⟩
    have hnone := inbound_eq_none (hmiss l4 ⟨hnat, ⟨hip, hlen, hmac, hl4.etype, hdst⟩, hl4⟩) i hi
    rw [hrep] at hnone
    exact Bool.noConfusion hnone

/-- **The router's own DNS replies.**  A reply from `(server, 53)` to `(ourIp, p)` stays local and
unchanged exactly when it does not reach a leased interface by our MAC while a LAN client's flow to
that server has the WAN id `p`; in particular for every `p` below the NAT range. -/
theorem ownDnsReply_local_iff {s : CtState} (h : ctSystem.Reachable s)
    {dev : ForwardingDevice κ} (hnat : dev.nat = true) {server : Ipv4Address} {p : UInt16}
    {frame : Frame} (hr : IsDnsReply dev.cfg server p frame) (ts : ℤ) :
    ((∃ s', dev.classifyFrame s frame ts = .ok (.local, frame, s')) ↔
      ¬(dev.cfg.ourIp.isUnspecified = false ∧ frame.take 6 = dev.cfg.ourMac.toList ∧
        Shadowed s server p (nowMs ts))) ∧
    (p < natLo → ∃ s', dev.classifyFrame s frame ts = .ok (.local, frame, s')) := by
  obtain ⟨⟨l4, hparse, hproto, hsrc, rfl⟩, rfl, hdst⟩ := hr
  have hl4 := parseL4_eq_some_iff.1 hparse
  have hids : replyIds l4 = (53, l4.dstId) := by
    rw [replyIds, if_neg (by simp [hproto]), hsrc]
  have hiff := parsed_local_iff (s := s) hl4 hdst ts
  rw [hids, hproto, hnat, eq_self, true_and] at hiff
  refine ⟨hiff, fun hlow => hiff.2 ?_⟩
  rintro ⟨-, -, i, hi, hrep⟩
  exact absurd (inRange_of_isReply (ct_invariant h) hi hrep).1 (UInt16.not_le.2 hlow)

/-- A client asked the server from the WAN id `49152`; the router asks it from port `49153`. -/
theorem ownDnsReply_local_iff_dns :
    ∃ s', (wanDev ⟨203, 0, 113, 9⟩).classifyFrame dnsTable
      (udpHeaders ⟨8, 8, 8, 8⟩ 53 ⟨203, 0, 113, 9⟩ 49153 0) 5 =
        .ok (.local, udpHeaders ⟨8, 8, 8, 8⟩ 53 ⟨203, 0, 113, 9⟩ 49153 0, s') :=
  (ownDnsReply_local_iff ((System.Reachable.init rfl).step (step_outbound rfl)) rfl
    ⟨⟨udpL4 53 49153, by decide +kernel, rfl, rfl, rfl⟩, rfl, rfl⟩ 5).1.2 (by
      rintro ⟨-, -, hsh⟩
      revert hsh
      unfold Shadowed
      decide +kernel)

/-- A client's flow has the WAN id from which the router asks the same server: the reply to the
router goes to the client. -/
theorem ownDnsReply_shadowed :
    ¬ ∀ (s : CtState) (dev : ForwardingDevice Ipv4Cidr) (server : Ipv4Address) (p : UInt16)
      (frame : Frame) (ts : ℤ), ctSystem.Reachable s → dev.nat = true →
      IsDnsReply dev.cfg server p frame →
      ∃ s', dev.classifyFrame s frame ts = .ok (.local, frame, s') := by
  intro hall
  obtain ⟨s', hcl⟩ := hall dnsTable (wanDev ⟨203, 0, 113, 9⟩) ⟨8, 8, 8, 8⟩ 49152
    (dnsReply ⟨203, 0, 113, 9⟩) 5 ((System.Reachable.init rfl).step (step_outbound rfl)) rfl
    ⟨⟨udpL4 53 49152, by decide +kernel, rfl, rfl, rfl⟩, rfl, rfl⟩
  have hclass : ((wanDev ⟨203, 0, 113, 9⟩).classifyFrame dnsTable
      (dnsReply ⟨203, 0, 113, 9⟩) 5).map (fun r => r.1) = .ok .transit := by decide +kernel
  rw [hcl] at hclass
  cases hclass

/-! ### Pings of the router -/

/-- An ICMP echo request to our MAC and address. -/
structure IsEchoRequest (cfg : IfaceCfg κ) (frame : Frame) : Prop where
  etype : wordAt frame 12 = ethertypeIpv4
  ihl : 34 ≤ l4Start frame
  number : byteAt frame 23 = ipprotoIcmp
  type : byteAt frame (l4Start frame) = 8
  header : l4Start frame + 8 ≤ frame.length
  mac : frame.take 6 = cfg.ourMac.toList
  dst : ipAt frame 30 = cfg.ourIp

/-- The echo identifier. -/
def echoId (frame : Frame) : UInt16 := wordAt frame (l4Start frame + 4)

/-- A LAN client pings `remote`, or did less than the timeout ago, and has the WAN id `id`. -/
def Pinged (s : CtState) (remote : Ipv4Address) (id : UInt16) (now : ℕ) : Prop :=
  ∃ i < ctCap, (s.ct.slot i).isReply .icmpEcho remote 0 id now = true

omit [CidrOps κ] in
/-- `parse_l4` takes an echo request for ICMP traffic with its identifier as the port. -/
theorem IsEchoRequest.isL4 {cfg : IfaceCfg κ} {frame : Frame} (h : IsEchoRequest cfg frame) :
    IsL4 frame ⟨.icmpEcho, l4Start frame, echoId frame, 0, l4Start frame + 2, 0⟩ where
  etype := h.etype
  l4Off := rfl
  ihl := h.ihl
  number := h.number
  fits := h.header
  csumOff := rfl
  srcId := rfl
  dstId := rfl
  tcpFlags := rfl
  echo _ := .inr h.type

/-- **Pings of the router.**  An echo request to our MAC and address stays local and unchanged exactly
when it does not come, on a leased NAPT device, from a host that a LAN client pings under the
identifier of the request; in particular for every identifier below the NAT range. -/
theorem echoRequest_local_iff {s : CtState} (h : ctSystem.Reachable s) {dev : ForwardingDevice κ}
    {frame : Frame} (hreq : IsEchoRequest dev.cfg frame) (ts : ℤ) :
    ((∃ s', dev.classifyFrame s frame ts = .ok (.local, frame, s')) ↔
      ¬(dev.nat = true ∧ dev.cfg.ourIp.isUnspecified = false ∧
        Pinged s (ipAt frame 26) (echoId frame) (nowMs ts))) ∧
    (echoId frame < natLo → ∃ s', dev.classifyFrame s frame ts = .ok (.local, frame, s')) := by
  have hiff := parsed_local_iff (s := s) hreq.isL4 hreq.dst ts
  simp only [replyIds, if_true, hreq.mac, true_and] at hiff
  refine ⟨hiff, fun hlow => hiff.2 ?_⟩
  rintro ⟨-, -, i, hi, hrep⟩
  exact absurd (inRange_of_isReply (ct_invariant h) hi hrep).1 (UInt16.not_le.2 hlow)

/-- A client pings `8.8.8.8`. -/
def pingTable : CtState :=
  (CtState.new.outbound ⟨.icmpEcho, ⟨192, 168, 4, 10⟩, 1, ⟨8, 8, 8, 8⟩, 0⟩ 0 0).1

/-- `8.8.8.8` pings the router. -/
def pingFrame (id : UInt16) : Frame :=
  [2, 0, 0, 0, 0, 1, 2, 0, 0, 0, 0, 2, 8, 0, 0x45, 0, 0, 28, 0, 0, 0, 0, 64, 1, 0, 0,
    8, 8, 8, 8, 203, 0, 113, 9, 8, 0, 0, 0] ++ toBeBytes id ++ [0, 1]

/-- It answers a ping with the identifier 7. -/
theorem echoRequest_local_seven :
    ∃ s', (wanDev ⟨203, 0, 113, 9⟩).classifyFrame pingTable (pingFrame 7) 5 =
      .ok (.local, pingFrame 7, s') :=
  (echoRequest_local_iff ((System.Reachable.init rfl).step (step_outbound rfl))
    ⟨by decide, by decide, by decide, by decide, by decide, by decide, by decide⟩ 5).1.2 (by
      rintro ⟨-, -, hping⟩
      revert hping
      unfold Pinged
      decide +kernel)

/-- A ping with the WAN id of the client's goes to the client. -/
theorem echoRequest_diverted :
    ¬ ∀ (s : CtState) (dev : ForwardingDevice Ipv4Cidr) (frame : Frame) (ts : ℤ),
      ctSystem.Reachable s → IsEchoRequest dev.cfg frame →
      ∃ s', dev.classifyFrame s frame ts = .ok (.local, frame, s') := by
  intro hall
  obtain ⟨s', hcl⟩ := hall pingTable (wanDev ⟨203, 0, 113, 9⟩) (pingFrame 49152) 5
    ((System.Reachable.init rfl).step (step_outbound rfl))
    ⟨by decide, by decide, by decide, by decide, by decide, by decide, by decide⟩
  have hclass : ((wanDev ⟨203, 0, 113, 9⟩).classifyFrame pingTable
      (pingFrame 49152) 5).map (fun r => r.1) = .ok .transit := by decide +kernel
  rw [hcl] at hclass
  cases hclass

end Pico10BaseT
