import Pico10BaseT.Forward.Neighbor

/-!
# Egress

`ForwardingDevice::egress` with the statics it shares with the rest of `forward.rs`: the neighbor
tables, the conntrack table, the two queues and the telemetry.  A run of it ends in one of eight
ways, and each counts exactly one of sent and dropped.

The IPv4 header view of smoltcp is a parameter (`Ipv4PacketOps`) of which the code assumes what
`LawfulIpv4Packet` says.

* `ForwardingDevice.egressL3_spec` : the TTL and the header checksum.
* `Forwarded` : what a transmitted frame is, byte by byte.
* `egress_spec` : egress returns, counts once, and transmits only such frames.
-/

namespace Pico10BaseT

/-! ### Telemetry -/

/-- Why a frame is dropped; each has its counter. -/
inductive DropReason
  /-- Egress channel full (backpressure). -/
  | qfull
  /-- Next hop unresolved: no gateway, or its MAC not learned. -/
  | nonh
  /-- NAPT port/id exhaustion. -/
  | nat
  /-- Inner phy TX not ready. -/
  | txbusy
  /-- Malformed, runt or TTL expired. -/
  | other
  deriving DecidableEq, Repr

/-- The `FWD_*` counters: frames diverted in the two directions, egressed, and dropped in total and
by cause, bytes egressed, and the greatest queue depths. -/
structure FwdStats where
  l2w : UInt32
  w2l : UInt32
  sent : UInt32
  drop : UInt32
  bytesToWan : UInt32
  bytesToLan : UInt32
  dropBy : DropReason → UInt32
  qhwmL2w : UInt32
  qhwmW2l : UInt32

namespace FwdStats

def new : FwdStats := ⟨0, 0, 0, 0, 0, 0, fun _ => 0, 0, 0⟩

/-- Count a drop in both the total and its reason counter. -/
def countDrop (s : FwdStats) (reason : DropReason) : FwdStats :=
  { s with
    drop := s.drop + 1
    dropBy := Function.update s.dropBy reason (s.dropBy reason + 1) }

/-- Count an egressed frame of `len` bytes. -/
def countSent (s : FwdStats) (iface : Iface) (len : ℕ) : FwdStats :=
  match iface with
  | .wan => { s with sent := s.sent + 1, bytesToWan := s.bytesToWan + UInt32.ofNat len }
  | .lan => { s with sent := s.sent + 1, bytesToLan := s.bytesToLan + UInt32.ofNat len }

end FwdStats

/-- The statics of `forward.rs`. -/
structure FwdState where
  lanNeigh : NeighborTable
  wanNeigh : NeighborTable
  ct : CtState
  lanToWan : List Frame
  wanToLan : List Frame
  stats : FwdStats

namespace FwdState

def new : FwdState := ⟨.new, .new, .new, [], [], .new⟩

/-- `neigh(iface)`. -/
def neigh (st : FwdState) : Iface → NeighborTable
  | .lan => st.lanNeigh
  | .wan => st.wanNeigh

def countDrop (st : FwdState) (reason : DropReason) : FwdState :=
  { st with stats := st.stats.countDrop reason }

end FwdState

/-! ### The IPv4 header -/

/-- The view of an IPv4 packet that smoltcp gives on a slice. -/
class Ipv4PacketOps where
  /-- `Ipv4Packet::new_checked(b).is_ok()`. -/
  newChecked : List UInt8 → Bool
  hopLimit : List UInt8 → UInt8
  setHopLimit : List UInt8 → UInt8 → List UInt8
  fillChecksum : List UInt8 → List UInt8
  dstAddr : List UInt8 → Ipv4Address

/-- Length of the IPv4 header of a packet, options included. -/
def ipHeaderLen (packet : List UInt8) : ℕ := (byteAt packet 0 &&& 0x0f).toNat * 4

/-- What the forwarding code relies on of smoltcp: the check validates header and total length
against the slice, the accessors are the fields of the header, and `fill_checksum` writes the
RFC 1071 checksum of the header. -/
class LawfulIpv4Packet [Ipv4PacketOps] : Prop where
  checked : ∀ b, Ipv4PacketOps.newChecked b = true →
    20 ≤ b.length ∧ ipHeaderLen b ≤ (wordAt b 2).toNat ∧ (wordAt b 2).toNat ≤ b.length
  hopLimit_eq : ∀ b, 20 ≤ b.length → Ipv4PacketOps.hopLimit b = byteAt b 8
  setHopLimit_eq : ∀ b v, 20 ≤ b.length → Ipv4PacketOps.setHopLimit b v = splice b 8 [v]
  fillChecksum_eq : ∀ b, 20 ≤ b.length → ipHeaderLen b ≤ b.length →
    Ipv4PacketOps.fillChecksum b = splice b 10
      (toBeBytes (~~~fold 0 ((splice b 10 (toBeBytes 0)).take (ipHeaderLen b))))
  dstAddr_eq : ∀ b, 20 ≤ b.length → Ipv4PacketOps.dstAddr b = ipAt b 16

variable {κ : Type} [CidrOps κ]

namespace ForwardingDevice

/-- TTL, checksum, and the destination; no frame for runts and expired TTL. -/
def egressL3 [Ipv4PacketOps] (frame : Frame) : Exec (Option (Frame × Ipv4Address)) := do
  let ip ← slice frame 14 frame.length
  if Ipv4PacketOps.newChecked ip = false then return none
  else
    let ttl := Ipv4PacketOps.hopLimit ip
    if ttl ≤ 1 then return none
    else
      let ip := Ipv4PacketOps.fillChecksum (Ipv4PacketOps.setHopLimit ip (ttl - 1))
      return some (frame.take 14 ++ ip, Ipv4PacketOps.dstAddr ip)

/-- Next-hop MAC, and this interface's MAC as the source. -/
def egressL2 (cfg : IfaceCfg κ) (dmac : Vector UInt8 6) (frame : Frame) : Exec Frame := do
  let frame ← copyFromSlice frame 0 dmac.toList
  copyFromSlice frame 6 cfg.ourMac.toList

/-- Send a forwarded frame out this interface: NAPT (WAN), TTL, checksum, next-hop MAC, L2 rewrite,
then TX.  `ready` tells whether the inner phy hands out a TX token.  The frame returned is the one
that the token consumes. -/
def egress [Ipv4PacketOps] (dev : ForwardingDevice κ) (st : FwdState) (frame : Frame) (now : ℤ)
    (ready : Bool) : Exec (FwdState × Option Frame) := do
  let (ct, napted) ← dev.egressNapt st.ct frame now
  let st := { st with ct }
  match napted with
  | none => return (st.countDrop .nat, none)
  | some frame =>
    match ← egressL3 frame with
    | none => return (st.countDrop .other, none)
    | some (frame, dst) =>
      match nexthop dst dev.cfg.subnet dev.cfg.gateway with
      -- no gateway for an off-subnet dst
      | none => return (st.countDrop .nonh, none)
      | some nh =>
        match (st.neigh dev.cfg.iface).lookup nh with
        -- next-hop MAC not learned yet
        | none => return (st.countDrop .nonh, none)
        | some dmac =>
          let frame ← egressL2 dev.cfg dmac frame
          if ready then
            return ({ st with stats := st.stats.countSent dev.cfg.iface frame.length }, some frame)
          else return (st.countDrop .txbusy, none)

end ForwardingDevice

/-! ### The stages -/

/-- The IPv4 header of a frame, options included. -/
def ipHeader (frame : Frame) : List UInt8 := (frame.drop 14).take (ipHeaderLen (frame.drop 14))

/-- `g` is `frame` one hop later: the TTL is one less, the header checksum is valid, and no other
byte is changed. -/
structure HopTaken (frame g : Frame) : Prop where
  length : g.length = frame.length
  alive : 1 ≤ (byteAt g 22).toNat
  ttl : (byteAt g 22).toNat + 1 = (byteAt frame 22).toNat
  checksum : 20 ≤ ipHeaderLen (frame.drop 14) → fold 0 (ipHeader g) = 0xffff
  other : ∀ j, j ≠ 22 → j ≠ 24 → j ≠ 25 → byteAt g j = byteAt frame j

/-- A packet with a new TTL and its checksum filled in: no other byte changes, and the header
folds to `0xffff`. -/
theorem fillChecksum_setHopLimit [Ipv4PacketOps] [LawfulIpv4Packet] {p : List UInt8}
    (h : 20 ≤ p.length) (hhl : ipHeaderLen p ≤ p.length) (v : UInt8) :
    ∃ q, Ipv4PacketOps.fillChecksum (Ipv4PacketOps.setHopLimit p v) = q ∧ q.length = p.length ∧
      byteAt q 8 = v ∧ (∀ k, k ≠ 8 → k ≠ 10 → k ≠ 11 → byteAt q k = byteAt p k) ∧
      (20 ≤ ipHeaderLen p → fold 0 (q.take (ipHeaderLen p)) = 0xffff) := by
  have h8 : 8 + [v].length ≤ p.length := by
    rw [List.length_singleton]
    omega
  rw [LawfulIpv4Packet.setHopLimit_eq _ _ h]
  generalize hp₁ : splice p 8 [v] = p₁
  have hl₁ : p₁.length = p.length := by rw [← hp₁, length_splice h8]
  have hb₁ : ∀ k, byteAt p₁ k = if k = 8 then v else byteAt p k := by
    intro k
    rw [← hp₁, byteAt_splice h8, List.length_singleton]
    by_cases hk : k = 8
    · rw [if_pos (by omega), if_pos hk, hk]
      rfl
    · rw [if_neg (by omega), if_neg hk]
  have hhl₁ : ipHeaderLen p₁ = ipHeaderLen p := by
    rw [ipHeaderLen, ipHeaderLen, hb₁, if_neg (by omega)]
  rw [LawfulIpv4Packet.fillChecksum_eq _ (hl₁ ▸ h) (hl₁ ▸ hhl₁ ▸ hhl), hhl₁]
  have h10 : ∀ c : UInt16, 10 + (toBeBytes c).length ≤ p₁.length := fun c => by
    rw [length_toBeBytes]
    omega
  refine ⟨_, rfl, by rw [length_splice (h10 _), hl₁], ?_, fun k hk8 hk10 hk11 => ?_, fun hihl => ?_⟩
  · rw [byteAt_splice (h10 _), if_neg (by rw [length_toBeBytes]; omega), hb₁, if_pos rfl]
  · rw [byteAt_splice (h10 _), if_neg (by rw [length_toBeBytes]; omega), hb₁, if_neg hk8]
  · rw [splice_take (by rw [length_toBeBytes]; omega) (hl₁ ▸ hhl),
      splice_take (by rw [length_toBeBytes]; omega) (hl₁ ▸ hhl)]
    refine fold_splice_compl (by decide) ?_
    rw [List.length_take_of_le (hl₁ ▸ hhl)]
    omega

namespace ForwardingDevice

/-- **The L3 stage** takes the hop, and reads the destination. -/
theorem egressL3_spec [Ipv4PacketOps] [LawfulIpv4Packet] {frame : Frame} (h : 34 ≤ frame.length) :
    ∃ r, egressL3 frame = .ok r ∧
      ∀ g dst, r = some (g, dst) → HopTaken frame g ∧ dst = ipAt frame 30 := by
  have hslice : slice frame 14 frame.length = .ok (frame.drop 14) := by
    rw [slice_ok (by omega) le_rfl, List.take_of_length_le (by simp)]
  simp only [egressL3, hslice, Exec.ok_bind]
  split_ifs with hchk httl
  · exact ⟨none, rfl, fun _ _ hr => by cases hr⟩
  · exact ⟨none, rfl, fun _ _ hr => by cases hr⟩
  refine ⟨_, rfl, fun g dst hr => ?_⟩
  simp only [Option.some.injEq, Prod.mk.injEq] at hr
  obtain ⟨rfl, rfl⟩ := hr
  obtain ⟨hp20, hhl, htot⟩ := LawfulIpv4Packet.checked _ (by simpa using hchk)
  rw [LawfulIpv4Packet.hopLimit_eq _ hp20, byteAt_drop, show 14 + 8 = 22 from rfl] at httl ⊢
  obtain ⟨q, hq, hlen, httlq, hother, hsum⟩ := fillChecksum_setHopLimit hp20 (hhl.trans htot)
    (byteAt frame 22 - 1)
  rw [hq]
  have h14 : (frame.take 14).length = 14 := List.length_take_of_le (by omega)
  have hhi : ∀ k, byteAt (frame.take 14 ++ q) (14 + k) = byteAt q k := fun k => by
    have hr := byteAt_append_right (a := frame.take 14) (b := q) k
    rwa [h14] at hr
  have hlo : ∀ k < 14, byteAt (frame.take 14 ++ q) k = byteAt frame k := fun k hk => by
    rw [byteAt_append_left _ (by omega), byteAt_take hk]
  rw [UInt8.le_iff_toNat_le, UInt8.toNat_one, not_le] at httl
  have httl' : (byteAt q 8).toNat = (byteAt frame 22).toNat - 1 := by
    rw [httlq, UInt8.toNat_sub_of_le _ _ (by rw [UInt8.le_iff_toNat_le, UInt8.toNat_one]; omega),
      UInt8.toNat_one]
  refine ⟨⟨?_, ?_, ?_, fun hihl => ?_, fun j h22 h24 h25 => ?_⟩, ?_⟩
  · rw [List.length_append, hlen, h14, List.length_drop]
    omega
  · rw [hhi 8, httl']
    omega
  · rw [hhi 8, httl']
    omega
  · have hdrop : (frame.take 14 ++ q).drop 14 = q := List.drop_left' h14
    have hq0 : ipHeaderLen q = ipHeaderLen (frame.drop 14) := by
      rw [ipHeaderLen, ipHeaderLen, hother 0 (by omega) (by omega) (by omega)]
    rw [ipHeader, hdrop, hq0]
    exact hsum hihl
  · by_cases hj : j < 14
    · exact hlo j hj
    · obtain ⟨k, rfl⟩ : ∃ k, j = 14 + k := ⟨j - 14, by omega⟩
      rw [hhi, hother k (by omega) (by omega) (by omega), byteAt_drop]
  · rw [LawfulIpv4Packet.dstAddr_eq _ (by omega)]
    simp only [ipAt]
    rw [hother 16 (by omega) (by omega) (by omega), hother 17 (by omega) (by omega) (by omega),
      hother 18 (by omega) (by omega) (by omega), hother 19 (by omega) (by omega) (by omega),
      byteAt_drop, byteAt_drop, byteAt_drop, byteAt_drop]

omit [CidrOps κ] in
/-- **The L2 stage** writes the two MACs and nothing else. -/
theorem egressL2_spec (cfg : IfaceCfg κ) (dmac : Vector UInt8 6) {frame : Frame}
    (h : 12 ≤ frame.length) :
    ∃ g, egressL2 cfg dmac frame = .ok g ∧ g.length = frame.length ∧ g.take 6 = dmac.toList ∧
      (g.drop 6).take 6 = cfg.ourMac.toList ∧ g.drop 12 = frame.drop 12 := by
  have hd : dmac.toList.length = 6 := by simp
  have ho : cfg.ourMac.toList.length = 6 := by simp
  have h₀ : 0 + dmac.toList.length ≤ frame.length := by omega
  have hl := length_splice h₀
  have h₆ : 6 + cfg.ourMac.toList.length ≤ (splice frame 0 dmac.toList).length := by omega
  have hfront := take_splice_splice
    (show dmac.toList.length + cfg.ourMac.toList.length ≤ frame.length by omega)
  rw [hd, ho] at hfront
  refine ⟨splice (splice frame 0 dmac.toList) 6 cfg.ourMac.toList, ?_, ?_, ?_, ?_, ?_⟩
  · rw [egressL2, copyFromSlice_ok h₀, Exec.ok_bind, copyFromSlice_ok h₆]
  · rw [length_splice h₆, hl]
  · have htake := congrArg (List.take 6) hfront
    rwa [List.take_take, List.take_left' hd] at htake
  · have hdrop := congrArg (List.drop 6) hfront
    rwa [List.drop_take, List.drop_left' hd] at hdrop
  · have h₁ := drop_splice h₆
    have h₂ := drop_splice h₀
    rw [ho] at h₁
    rw [hd, Nat.zero_add] at h₂
    rw [h₁, show 6 + 6 = 12 from rfl, ← List.drop_drop (i := 6) (j := 6), h₂, List.drop_drop]

omit [CidrOps κ] in
/-- **Everything the NAPT stage can do**: nothing, on a plain device or to a frame that is not
parsed; else track the flow, and rewrite the source to the granted id or stop without one. -/
theorem egressNapt_cases (dev : ForwardingDevice κ) (ct : CtState) (frame : Frame) (now : ℤ) :
    ((dev.nat = false ∨ parseL4 frame = .ok none) ∧
      dev.egressNapt ct frame now = .ok (ct, some frame)) ∨
    ∃ l4 ct' r out, dev.nat = true ∧ IsL4 frame l4 ∧
      ct.outbound (outTuple frame l4) l4.tcpFlags (nowMs now) = (ct', r) ∧
      dev.egressNapt ct frame now = .ok (ct', out) ∧
      (∀ id, r = some id → ∃ g, out = some g ∧ Rewritten 26 0 frame l4 dev.cfg.ourIp id g) ∧
      (r = none → out = none) := by
  cases hnat : dev.nat with
  | false => exact .inl ⟨.inl rfl, by simp [egressNapt, hnat]⟩
  | true =>
    obtain ⟨r4, hr4⟩ := parseL4_ok frame
    cases r4 with
    | none => exact .inl ⟨.inr hr4, by simp [egressNapt, hnat, hr4]⟩
    | some l4 =>
      have hl4 := parseL4_eq_some_iff.1 hr4
      have hfit := hl4.fits
      have hihl := hl4.ihl
      rcases hout : ct.outbound (outTuple frame l4) l4.tcpFlags (nowMs now) with ⟨ct', r⟩
      cases r with
      | some id =>
        obtain ⟨g, heg, hg⟩ := egressNapt_spec hnat hl4 hout
        refine .inr ⟨l4, ct', some id, some g, rfl, hl4, hout, heg, ?_, fun h => by cases h⟩
        rintro _ ⟨⟩
        exact ⟨g, rfl, hg⟩
      | none =>
        refine .inr ⟨l4, ct', none, none, rfl, hl4, hout, ?_, by simp, fun _ => rfl⟩
        rw [outTuple] at hout
        simp only [egressNapt, hnat, if_true, hr4, rdIp_ok (show 26 + 3 < frame.length by omega),
          rdIp_ok (show 30 + 3 < frame.length by omega), Exec.ok_bind, hout, Exec.pure_eq]

end ForwardingDevice

/-! ### What egress transmits -/

/-- `g` is the frame that `dev` transmits for the queued `frame`: it goes from our MAC to the MAC
that the neighbor table has for the next hop, one hop later and with a valid header checksum.  On
the NAPT device a parsed frame also has our address, the conntrack id and the updated L4 check
word; every other byte is that of `frame`. -/
structure Forwarded (dev : ForwardingDevice κ) (st : FwdState) (frame : Frame) (now : ℤ)
    (g : Frame) : Prop where
  length : g.length = frame.length
  dstMac : ∃ nh dmac, nexthop (ipAt frame 30) dev.cfg.subnet dev.cfg.gateway = some nh ∧
    (st.neigh dev.cfg.iface).lookup nh = some dmac ∧ g.take 6 = dmac.toList
  srcMac : (g.drop 6).take 6 = dev.cfg.ourMac.toList
  alive : 1 ≤ (byteAt g 22).toNat
  ttl : (byteAt g 22).toNat + 1 = (byteAt frame 22).toNat
  checksum : 20 ≤ ipHeaderLen (frame.drop 14) → fold 0 (ipHeader g) = 0xffff
  plain : dev.nat = false ∨ parseL4 frame = .ok none →
    ∀ j, 12 ≤ j → j ≠ 22 → j ≠ 24 → j ≠ 25 → byteAt g j = byteAt frame j
  napt : ∀ l4, dev.nat = true → parseL4 frame = .ok (some l4) →
    ∃ id, (st.ct.outbound (outTuple frame l4) l4.tcpFlags (nowMs now)).2 = some id ∧
      ipAt g 26 = dev.cfg.ourIp ∧ wordAt g (l4.l4Off + l4.idPos 0) = id ∧
      wordAt g l4.csumOff = newCsum 26 0 frame l4 dev.cfg.ourIp id ∧
      ∀ j, 12 ≤ j → j ≠ 22 → j ≠ 24 → j ≠ 25 → ¬(26 ≤ j ∧ j < 30) →
        ¬(l4.l4Off + l4.idPos 0 ≤ j ∧ j < l4.l4Off + l4.idPos 0 + 2) →
        ¬(l4.csumOff ≤ j ∧ j < l4.csumOff + 2) → byteAt g j = byteAt frame j

/-- What a run of egress leaves: it counts one frame sent or one dropped, for a reason that is not
a full queue, and touches of the other statics the conntrack table only. -/
structure EgressDone (dev : ForwardingDevice κ) (st : FwdState) (frame : Frame) (now : ℤ)
    (st' : FwdState) (out : Option Frame) : Prop where
  lanNeigh : st'.lanNeigh = st.lanNeigh
  wanNeigh : st'.wanNeigh = st.wanNeigh
  lanToWan : st'.lanToWan = st.lanToWan
  wanToLan : st'.wanToLan = st.wanToLan
  ct : st'.ct = st.ct ∨
    ∃ t f r, dev.nat = true ∧ ctSystem.step st.ct (.outbound t f (nowMs now) r) st'.ct
  sent : ∀ g, out = some g →
    Forwarded dev st frame now g ∧ st'.stats = st.stats.countSent dev.cfg.iface g.length
  dropped : out = none → ∃ reason, reason ≠ .qfull ∧ st'.stats = st.stats.countDrop reason

section Egress

variable {dev : ForwardingDevice κ} {st : FwdState} {frame g₁ g₂ g : Frame} {now : ℤ}

omit [CidrOps κ] in
/-- A frame that the NAPT device parses is not left alone by it. -/
theorem not_plain {l4 : L4} (hnat : dev.nat = true) (hparse : parseL4 frame = .ok (some l4)) :
    ¬(dev.nat = false ∨ parseL4 frame = .ok none) := by
  rw [hnat, hparse]
  rintro (h | h) <;> cases h

/-- The NAPT stage leaves the IPv4 header up to the source address, and the destination. -/
structure HeaderKept (frame frame₁ : Frame) : Prop where
  length : frame₁.length = frame.length
  byte : ∀ j < 26, byteAt frame₁ j = byteAt frame j
  dst : ipAt frame₁ 30 = ipAt frame 30

omit [CidrOps κ] in
theorem Rewritten.headerKept {l4 : L4} {ip : Ipv4Address} {id : UInt16} (hl4 : IsL4 frame l4)
    (h : Rewritten 26 0 frame l4 ip id g₁) : HeaderKept frame g₁ := by
  have hihl := hl4.ihl
  have hcs := hl4.csumOff
  exact ⟨h.length, fun j hj => h.other j (by omega) (by omega) (by omega),
    ipAt_congr fun j hj hj' => h.other j (by omega) (by omega) (by omega)⟩

/-- **The stages behind NAPT**: one hop and the two MACs make a forwarded frame of what NAPT
left. -/
theorem Forwarded.of_stages {nh : Ipv4Address} {dmac : Vector UInt8 6}
    (hkept : HeaderKept frame g₁) (hhop : HopTaken g₁ g₂) (hlen : g.length = g₂.length)
    (hdmac : g.take 6 = dmac.toList) (hsrc : (g.drop 6).take 6 = dev.cfg.ourMac.toList)
    (hdrop : g.drop 12 = g₂.drop 12)
    (hnh : nexthop (ipAt g₁ 30) dev.cfg.subnet dev.cfg.gateway = some nh)
    (hlook : (st.neigh dev.cfg.iface).lookup nh = some dmac)
    (hplain : dev.nat = false ∨ parseL4 frame = .ok none → g₁ = frame)
    (hnapt : ∀ l4, dev.nat = true → parseL4 frame = .ok (some l4) →
      ∃ id, (st.ct.outbound (outTuple frame l4) l4.tcpFlags (nowMs now)).2 = some id ∧
        Rewritten 26 0 frame l4 dev.cfg.ourIp id g₁) :
    Forwarded dev st frame now g := by
  have hbyte : ∀ j, 12 ≤ j → byteAt g j = byteAt g₂ j := fun j hj => byteAt_of_drop hdrop hj
  have hother : ∀ j, 12 ≤ j → j ≠ 22 → j ≠ 24 → j ≠ 25 → byteAt g j = byteAt g₁ j :=
    fun j hj h22 h24 h25 => (hbyte j hj).trans (hhop.other j h22 h24 h25)
  refine ⟨?_, ⟨nh, dmac, hkept.dst ▸ hnh, hlook, hdmac⟩, hsrc, ?_, ?_, fun hihl => ?_, ?_, ?_⟩
  · rw [hlen, hhop.length, hkept.length]
  · rw [hbyte 22 (by omega)]
    exact hhop.alive
  · rw [hbyte 22 (by omega), hhop.ttl, hkept.byte 22 (by omega)]
  · have hg : ipHeader g = ipHeader g₂ := by
      have h14 : g.drop 14 = g₂.drop 14 := by
        rw [← List.drop_drop (i := 2) (j := 12), hdrop, List.drop_drop]
      rw [ipHeader, ipHeader, h14]
    have h₁ : ipHeaderLen (g₁.drop 14) = ipHeaderLen (frame.drop 14) := by
      rw [ipHeaderLen, ipHeaderLen, byteAt_drop, byteAt_drop, hkept.byte _ (by omega)]
    rw [hg]
    exact hhop.checksum (h₁ ▸ hihl)
  · intro hno j hj h22 h24 h25
    rw [hother j hj h22 h24 h25, hplain hno]
  · intro l4 hnat hparse
    obtain ⟨id, hid, hrw⟩ := hnapt l4 hnat hparse
    have hl4 := parseL4_eq_some_iff.1 hparse
    have hihl := hl4.ihl
    have hcs := hl4.csumOff
    refine ⟨id, hid, ?_, ?_, ?_, fun j hj h22 h24 h25 hip hidp hcsp => ?_⟩
    · rw [ipAt_congr fun j hj hj' => hother j (by omega) (by omega) (by omega) (by omega), hrw.ip]
    · rw [wordAt_congr (hother _ (by omega) (by omega) (by omega) (by omega))
        (hother _ (by omega) (by omega) (by omega) (by omega)), hrw.id]
    · rw [wordAt_congr (hother _ (by omega) (by omega) (by omega) (by omega))
        (hother _ (by omega) (by omega) (by omega) (by omega)), hrw.csum]
    · rw [hother j hj h22 h24 h25, hrw.other j hip hidp hcsp]

/-- A plain device transmits a frame with a checked header and hops left to a known next hop. -/
theorem ForwardingDevice.egress_transmits [Ipv4PacketOps] [LawfulIpv4Packet] {nh : Ipv4Address}
    {dmac : Vector UInt8 6} (hnat : dev.nat = false)
    (hchk : Ipv4PacketOps.newChecked (frame.drop 14) = true) (httl : 1 < byteAt frame 22)
    (hnh : nexthop (ipAt frame 30) dev.cfg.subnet dev.cfg.gateway = some nh)
    (hlook : (st.neigh dev.cfg.iface).lookup nh = some dmac) :
    ∃ st' g, dev.egress st frame now true = .ok (st', some g) := by
  obtain ⟨hp20, -⟩ := LawfulIpv4Packet.checked _ hchk
  have h34 : 34 ≤ frame.length := by
    rw [List.length_drop] at hp20
    omega
  have hslice : slice frame 14 frame.length = .ok (frame.drop 14) := by
    rw [slice_ok (by omega) le_rfl, List.take_of_length_le (by simp)]
  have hhop : Ipv4PacketOps.hopLimit (frame.drop 14) = byteAt frame 22 := by
    rw [LawfulIpv4Packet.hopLimit_eq _ hp20, byteAt_drop]
  obtain ⟨r₃, hr₃, hspec₃⟩ := egressL3_spec h34
  have hsome : ∃ g₂ dst, r₃ = some (g₂, dst) := by
    simp only [egressL3, hslice, Exec.ok_bind, hchk, hhop, if_neg (UInt8.not_le.2 httl),
      Bool.true_eq_false, if_false, Exec.pure_eq, Except.ok.injEq] at hr₃
    exact ⟨_, _, hr₃.symm⟩
  obtain ⟨g₂, dst, rfl⟩ := hsome
  obtain ⟨hhop, rfl⟩ := hspec₃ g₂ dst rfl
  obtain ⟨g, hg, -⟩ := egressL2_spec dev.cfg dmac (show 12 ≤ g₂.length by rw [hhop.length]; omega)
  refine ⟨{ st with stats := st.stats.countSent dev.cfg.iface g.length }, g, ?_⟩
  simp only [egress, egressNapt, hnat, Bool.false_eq_true, if_false, Exec.pure_eq, Exec.ok_bind,
    hr₃, hnh, hlook, hg, if_true]

/-- A drop is counted once and changes nothing else. -/
theorem EgressDone.of_drop {ct' : CtState} {reason : DropReason} (hr : reason ≠ .qfull)
    (hct : ct' = st.ct ∨
      ∃ t f r, dev.nat = true ∧ ctSystem.step st.ct (.outbound t f (nowMs now) r) ct') :
    EgressDone dev st frame now ({ st with ct := ct' }.countDrop reason) none :=
  ⟨rfl, rfl, rfl, rfl, hct, (fun _ h => by cases h), fun _ => ⟨reason, hr, rfl⟩⟩

/-- **What follows a frame that NAPT let through.** -/
theorem ForwardingDevice.egress_of_napted [Ipv4PacketOps] [LawfulIpv4Packet] {ct' : CtState}
    {ready : Bool} (h : 34 ≤ frame.length)
    (hnapted : dev.egressNapt st.ct frame now = .ok (ct', some g₁))
    (hkept : HeaderKept frame g₁)
    (hct : ct' = st.ct ∨
      ∃ t f r, dev.nat = true ∧ ctSystem.step st.ct (.outbound t f (nowMs now) r) ct')
    (hplain : dev.nat = false ∨ parseL4 frame = .ok none → g₁ = frame)
    (hnapt : ∀ l4, dev.nat = true → parseL4 frame = .ok (some l4) →
      ∃ id, (st.ct.outbound (outTuple frame l4) l4.tcpFlags (nowMs now)).2 = some id ∧
        Rewritten 26 0 frame l4 dev.cfg.ourIp id g₁) :
    ∃ st' out, dev.egress st frame now ready = .ok (st', out) ∧
      EgressDone dev st frame now st' out := by
  have hlen₁ : 34 ≤ g₁.length := hkept.length ▸ h
  obtain ⟨r₃, hr₃, hspec₃⟩ := egressL3_spec hlen₁
  simp only [egress, hnapted, Exec.ok_bind, hr₃]
  cases r₃ with
  | none => exact ⟨_, _, rfl, .of_drop (by decide) hct⟩
  | some r₃ =>
    obtain ⟨g₂, dst⟩ := r₃
    obtain ⟨hhop, rfl⟩ := hspec₃ g₂ dst rfl
    simp only
    cases hnh : nexthop (ipAt g₁ 30) dev.cfg.subnet dev.cfg.gateway with
    | none => exact ⟨_, _, rfl, .of_drop (by decide) hct⟩
    | some nh =>
      simp only
      have hneigh : FwdState.neigh { st with ct := ct' } dev.cfg.iface = st.neigh dev.cfg.iface := by
        cases dev.cfg.iface <;> rfl
      rw [hneigh]
      cases hlook : (st.neigh dev.cfg.iface).lookup nh with
      | none => exact ⟨_, _, rfl, .of_drop (by decide) hct⟩
      | some dmac =>
        obtain ⟨g, hg, hlen, hdmac, hsrc, hdrop⟩ :=
          egressL2_spec dev.cfg dmac (show 12 ≤ g₂.length by rw [hhop.length]; omega)
        simp only [hg, Exec.ok_bind]
        cases ready with
        | false => exact ⟨_, _, rfl, .of_drop (by decide) hct⟩
        | true =>
          refine ⟨_, _, rfl, rfl, rfl, rfl, rfl, hct, ?_, fun h => by cases h⟩
          rintro _ ⟨⟩
          exact ⟨.of_stages hkept hhop hlen hdmac hsrc hdrop hnh hlook hplain hnapt, rfl⟩

/-- **Everything egress can do** with a frame of at least 34 bytes. -/
theorem ForwardingDevice.egress_cases [Ipv4PacketOps] [LawfulIpv4Packet]
    (dev : ForwardingDevice κ) (st : FwdState) (h : 34 ≤ frame.length) (now : ℤ) (ready : Bool) :
    ∃ st' out, dev.egress st frame now ready = .ok (st', out) ∧
      EgressDone dev st frame now st' out := by
  rcases dev.egressNapt_cases st.ct frame now with
    ⟨hno, heg⟩ | ⟨l4, ct', r, out, hnat, hl4, hout, heg, hsome, hnone⟩
  · refine egress_of_napted h heg ⟨rfl, fun _ _ => rfl, rfl⟩ (.inl rfl) (fun _ => rfl) ?_
    intro l4 hnat hparse
    exact absurd hno (not_plain hnat hparse)
  · have hct : ct' = st.ct ∨
        ∃ t f r, dev.nat = true ∧ ctSystem.step st.ct (.outbound t f (nowMs now) r) ct' :=
      .inr ⟨_, _, _, hnat, hout⟩
    have hparse := hl4.parseL4
    cases r with
    | none =>
      obtain rfl := hnone rfl
      refine ⟨_, _, ?_, .of_drop (show DropReason.nat ≠ .qfull by decide) hct⟩
      simp only [egress, heg, Exec.ok_bind, Exec.pure_eq]
    | some id =>
      obtain ⟨g₁, rfl, hrw⟩ := hsome id rfl
      refine egress_of_napted h heg (hrw.headerKept hl4) hct ?_ ?_
      · intro hno
        exact absurd hno (not_plain hnat hparse)
      · intro l4' _ hparse'
        rw [hparse] at hparse'
        cases hparse'
        exact ⟨id, by rw [hout], hrw⟩

/-- **Every run of egress starts with the NAPT stage**, and what that does to the table stays,
whatever the later stages do. -/
theorem ForwardingDevice.napt_of_egress [Ipv4PacketOps] {st' : FwdState} {out : Option Frame}
    {ready : Bool} (heg : dev.egress st frame now ready = .ok (st', out)) :
    ∃ n, dev.egressNapt st.ct frame now = .ok (st'.ct, n) := by
  rw [egress, Exec.bind_eq_ok] at heg
  obtain ⟨⟨ct', n⟩, hnapt, heg⟩ := heg
  refine ⟨n, hnapt.trans ?_⟩
  -- no stage behind NAPT writes the table
  suffices hct : st'.ct = ct' by rw [hct]
  cases n with
  | none =>
    cases heg
    rfl
  | some f =>
    simp only [Exec.bind_eq_ok] at heg
    obtain ⟨_ | ⟨f₃, dst⟩, -, heg⟩ := heg
    · cases heg
      rfl
    cases hnh : nexthop dst dev.cfg.subnet dev.cfg.gateway with
    | none =>
      simp only [hnh] at heg
      cases heg
      rfl
    | some nh =>
      simp only [hnh] at heg
      split at heg
      · cases heg
        rfl
      · rw [Exec.bind_eq_ok] at heg
        obtain ⟨f₂, -, heg⟩ := heg
        split_ifs at heg <;> cases heg <;> rfl

theorem ForwardingDevice.forwarded_of_egress [Ipv4PacketOps] [LawfulIpv4Packet] {st' : FwdState}
    {ready : Bool} (h : 34 ≤ frame.length)
    (heg : dev.egress st frame now ready = .ok (st', some g)) : Forwarded dev st frame now g := by
  obtain ⟨st₁, out, heg₁, hdone⟩ := dev.egress_cases st h now ready
  rw [heg] at heg₁
  cases heg₁
  exact (hdone.sent g rfl).1

/-- **Egress specification.**  For every configuration, tables and queued frame of at least 34
bytes, egress returns, so no byte outside the frame is touched, and counts either one frame sent,
or one dropped together with exactly one reason; and what it transmits is the queued frame
forwarded (`Forwarded`). -/
theorem egress_spec [Ipv4PacketOps] [LawfulIpv4Packet] (dev : ForwardingDevice κ)
    (st : FwdState) (frame : Frame) (now : ℤ) (ready : Bool) (h : 34 ≤ frame.length) :
    ∃ st' out, dev.egress st frame now ready = .ok (st', out) ∧
      ((∃ g, out = some g ∧ Forwarded dev st frame now g ∧
          st'.stats.sent = st.stats.sent + 1 ∧ st'.stats.drop = st.stats.drop ∧
          st'.stats.dropBy = st.stats.dropBy) ∨
        (out = none ∧ st'.stats.sent = st.stats.sent ∧ st'.stats.drop = st.stats.drop + 1 ∧
          ∃ reason, ∀ r, st'.stats.dropBy r =
            if r = reason then st.stats.dropBy r + 1 else st.stats.dropBy r)) := by
  obtain ⟨st', out, heg, hdone⟩ := dev.egress_cases st h now ready
  refine ⟨st', out, heg, ?_⟩
  cases out with
  | some g =>
    obtain ⟨hfwd, hstats⟩ := hdone.sent g rfl
    refine .inl ⟨g, rfl, hfwd, ?_⟩
    rw [hstats]
    cases dev.cfg.iface <;> exact ⟨rfl, rfl, rfl⟩
  | none =>
    obtain ⟨reason, -, hstats⟩ := hdone.dropped rfl
    refine .inr ⟨rfl, ?_⟩
    rw [hstats]
    refine ⟨rfl, rfl, reason, fun r => ?_⟩
    by_cases hr : r = reason
    · rw [if_pos hr, hr]
      exact Function.update_self _ _ _
    · rw [if_neg hr]
      exact Function.update_of_ne hr _ _

end Egress

/-! ### A frame for a LAN client -/

/-- The IPv4 header view, computed. -/
@[reducible] def headerOps : Ipv4PacketOps where
  newChecked b := decide (20 ≤ b.length) && decide (ipHeaderLen b ≤ (wordAt b 2).toNat) &&
    decide ((wordAt b 2).toNat ≤ b.length)
  hopLimit b := byteAt b 8
  setHopLimit b v := splice b 8 [v]
  fillChecksum b := splice b 10
    (toBeBytes (~~~fold 0 ((splice b 10 (toBeBytes 0)).take (ipHeaderLen b))))
  dstAddr b := ipAt b 16

theorem headerOps_lawful : @LawfulIpv4Packet headerOps :=
  let _ := headerOps
  { checked := fun b h => by
      simpa [Ipv4PacketOps.newChecked, Bool.and_eq_true, and_assoc] using h
    hopLimit_eq := fun _ _ => rfl
    setHopLimit_eq := fun _ _ _ => rfl
    fillChecksum_eq := fun _ _ _ => rfl
    dstAddr_eq := fun _ _ => rfl }

/-- The access point's device. -/
def lanDev : ForwardingDevice Ipv4Cidr where
  cfg :=
    { iface := .lan, ourMac := #v[2, 0, 0, 0, 0, 9], ourIp := ⟨192, 168, 4, 1⟩,
      subnet := ⟨⟨192, 168, 4, 1⟩, 24⟩, gateway := none, acceptDst := none }
  nat := false

/-- A client whose MAC is known. -/
def lanClientKnown : FwdState :=
  { FwdState.new with
    lanNeigh := NeighborTable.new.insert ⟨192, 168, 4, 10⟩ #v[2, 0, 0, 0, 0, 7] }

/-- A UDP frame for the client. -/
def forLanClient : Frame :=
  [2, 0, 0, 0, 0, 1, 2, 0, 0, 0, 0, 2, 8, 0, 0x45, 0, 0, 28, 0, 0, 0, 0, 64, 17, 0, 0, 8, 8, 8, 8,
    192, 168, 4, 10, 0, 53, 0x14, 0xe9, 0, 8, 0, 0]

/-- The frame is sent, to the client's MAC. -/
theorem egress_spec_client :
    ∃ st' g, @ForwardingDevice.egress _ _ headerOps lanDev lanClientKnown forLanClient 0 true =
        .ok (st', some g) ∧ Forwarded lanDev lanClientKnown forLanClient 0 g ∧
      st'.stats.sent = 1 ∧ st'.stats.drop = 0 := by
  obtain ⟨st', out, heg, hout⟩ := @egress_spec _ _ headerOps headerOps_lawful lanDev
    lanClientKnown forLanClient 0 true (by decide)
  rcases hout with ⟨g, rfl, hfwd, hsent, hdrop, -⟩ | ⟨rfl, -⟩
  · exact ⟨st', g, heg, hfwd, hsent, hdrop⟩
  · have hsome : (@ForwardingDevice.egress _ _ headerOps lanDev lanClientKnown forLanClient 0
        true).map (fun r => r.2.isSome) = .ok true := by decide +kernel
    rw [heg] at hsome
    cases hsome

end Pico10BaseT
