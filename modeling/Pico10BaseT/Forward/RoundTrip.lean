import Pico10BaseT.Conntrack.Invariant
import Pico10BaseT.Forward.Device

/-!
# NAPT round trip

A LAN frame leaves rewritten to the WAN side, other flows come and go, and a reply to the rewritten
frame is given back to the client that sent the first one.  What carries this over the operations
in between is `HoldsFlow`: slot `i` still holds the flow under the id the frame left with.
`napt_roundTrip` composes it with the byte-level specifications of the two rewriters.
-/

namespace Pico10BaseT

/-- `ev` creates a flow and puts it in slot `i`. -/
def Overwrites (i : ℕ) (s : CtState) (ev : CtEvent) : Prop :=
  ∃ t f now r, ev = .outbound t f now r ∧ (∀ j < ctCap, (s.ct.slot j).isFlow t = false) ∧
    s.ct.pickSlot now = i

/-- `ev` neither overwrites slot `i` nor finds its entry expired. -/
def Spares (i : ℕ) (s : CtState) (ev : CtEvent) : Prop :=
  ¬ Overwrites i s ev ∧ (s.ct.slot i).expired ev.time = false

namespace HoldsFlow

variable {s s' : CtState} {i : ℕ} {t : Tuple} {wid : UInt16} {ev : CtEvent}

/-- Writing a slot keeps the flow, if the slot is another one or keeps its flow and id. -/
theorem of_setSlot (h : HoldsFlow s i t wid) {k : ℕ} {e : Entry}
    (hslot : ∀ j, s'.ct.slot j = (s.ct.setSlot k e).slot j)
    (he : k = i → e.used = true ∧ e.tuple = (s.ct.slot i).tuple ∧ e.wanId = (s.ct.slot i).wanId) :
    HoldsFlow s' i t wid := by
  have hval : s'.ct.slot i = if k = i then e else s.ct.slot i := by
    rw [hslot, Conntrack.slot_setSlot]
    simp [h.lt]
  by_cases hki : k = i
  · obtain ⟨hu, htup, hw⟩ := he hki
    rw [if_pos hki] at hval
    exact ⟨h.lt, hval ▸ hu, hval ▸ htup.trans h.tuple, hval ▸ hw.trans h.wanId⟩
  · rw [if_neg hki] at hval
    exact ⟨h.lt, hval ▸ h.used, hval ▸ h.tuple, hval ▸ h.wanId⟩

/-- The packets of any flow, and a sweep, leave the flow in its slot. -/
theorem step (h : HoldsFlow s i t wid) (hI : s.Inv) (hC : Spares i s ev)
    (hst : ctStep s ev s') : HoldsFlow s' i t wid := by
  cases ev with
  | outbound t' f now r =>
    rcases CtState.outbound_cases hI.cursorRange.1 hst with
      ⟨k, hk, hu, -, -, rfl⟩ | ⟨hnew, id, c', -, -, -, -, rfl⟩
    · refine h.of_setSlot (k := k) (e := (s.ct.slot k).touch f now) (fun j => rfl) ?_
      rintro rfl
      exact ⟨hu, rfl, rfl⟩
    · refine h.of_setSlot (k := s.ct.pickSlot now) (e := CtState.newEntry t' id f now)
        (fun j => rfl) fun hk => ?_
      refine absurd ⟨t', f, now, r, rfl, fun j hj => ?_, hk⟩ hC.1
      rw [Bool.eq_false_iff, ne_eq, Entry.isFlow_iff]
      exact fun hf => hnew j hj hf.1 hf.2
  | inbound proto rip rid w f now r =>
    rcases CtState.inbound_cases hst with ⟨k, hk, hp, -, rfl⟩ | ⟨-, -, rfl⟩
    · refine h.of_setSlot (k := k) (e := (s.ct.slot k).touch f now) (fun j => rfl) ?_
      rintro rfl
      exact ⟨(Entry.isReply_iff.1 hp).1, rfl, rfl⟩
    · exact h
  | reap now =>
    obtain rfl : s.reap now = s' := hst
    have hu := CtState.used_reapEntry.2 ⟨h.used, hC.2⟩
    rw [← CtState.slot_reap] at hu
    have he := (CtState.slot_reap_of_used hu).2
    exact ⟨h.lt, hu, he ▸ h.tuple, he ▸ h.wanId⟩

/-- The flow stays in its slot while it is spared. -/
theorem path (h : HoldsFlow s i t wid) (hI : s.Inv) {tr : List CtEvent}
    (hp : (ctSystem.restrict (Spares i)).Path s tr s') : HoldsFlow s' i t wid ∧ s'.Inv :=
  hp.invariant (I := fun s => HoldsFlow s i t wid ∧ s.Inv) ⟨h, hI⟩
    fun _ _ _ hs hst => ⟨hs.1.step hs.2 hst.1 hst.2, hs.2.step hst.2⟩

/-- The table answers a reply to a live flow with the client of that flow. -/
theorem inbound (h : HoldsFlow s i t wid) (hI : s.Inv) {now : ℕ}
    (hlive : (s.ct.slot i).expired now = false) (f : UInt8) :
    ∃ s', s.inbound t.proto t.dstIp t.dstId wid f now = (s', some (t.srcIp, t.srcId)) := by
  obtain ⟨r, hr⟩ : ∃ r, s.inbound t.proto t.dstIp t.dstId wid f now = r := ⟨_, rfl⟩
  obtain ⟨s', r⟩ := r
  have hreply : (s.ct.slot i).isReply t.proto t.dstIp t.dstId wid now = true := by
    refine Entry.isReply_iff.2 ⟨h.used, h.wanId, ?_, Entry.not_expired_iff.1 hlive⟩
    rw [← h.tuple]
    rfl
  rcases CtState.inbound_cases hr with ⟨k, hk, hp, rfl, -⟩ | ⟨hno, -, -⟩
  · -- the slot found has the same id, so it is slot `i`
    obtain ⟨hu, hw, -, -⟩ := Entry.isReply_iff.1 hp
    obtain rfl : k = i := hI.idsDistinct k hk i h.lt hu h.used (hw.trans h.wanId.symm)
    refine ⟨s', hr.trans ?_⟩
    rw [← h.tuple]
    rfl
  · rw [hno i h.lt] at hreply
    exact Bool.noConfusion hreply

/-- The flow of an outbound packet is in a slot afterwards, under the id returned. -/
theorem of_outbound (hI : s.Inv) {f : UInt8} {now : ℕ} {r : Option UInt16}
    (hst : s.outbound t f now = (s', r)) : ∃ i wid, r = some wid ∧ HoldsFlow s' i t wid := by
  rcases CtState.outbound_cases hI.cursorRange.1 hst with
    ⟨i, hi, hu, rfl, rfl, rfl⟩ | ⟨-, id, c', -, -, -, rfl, rfl⟩
  · refine ⟨i, _, rfl, ?_⟩
    have hs : ((s.ct.setSlot i ((s.ct.slot i).touch f now)).slot i) = (s.ct.slot i).touch f now := by
      rw [Conntrack.slot_setSlot]
      simp [hi]
    exact ⟨hi, (congrArg Entry.used hs).trans hu, (congrArg Entry.tuple hs).trans rfl,
      (congrArg Entry.wanId hs).trans rfl⟩
  · have hi := Conntrack.pickSlot_lt s.ct now
    refine ⟨s.ct.pickSlot now, id, rfl, ?_⟩
    have hs : ((s.ct.setSlot (s.ct.pickSlot now) (CtState.newEntry t id f now)).slot
        (s.ct.pickSlot now)) = CtState.newEntry t id f now := by
      rw [Conntrack.slot_setSlot]
      simp [hi]
    exact ⟨hi, congrArg Entry.used hs, congrArg Entry.tuple hs, congrArg Entry.wanId hs⟩

end HoldsFlow

/-! ### The round trip of a frame -/

/-- The rewritten frame parses to the same header with the new source id. -/
theorem Rewritten.isL4_src {frame frame' : Frame} {l4 : L4} {ip : Ipv4Address} {id : UInt16}
    (h : Rewritten 26 0 frame l4 ip id frame') (hl4 : IsL4 frame l4) :
    IsL4 frame' { l4 with srcId := id } := by
  have hihl := hl4.ihl
  have hcs := hl4.csumOff
  have hother := h.other
  have hid := h.id
  -- the bytes that the parser reads besides the source id are not among the rewritten ones
  have hlow : ∀ j < 26, byteAt frame' j = byteAt frame j := by
    intro j hj
    exact hother j (by omega) (by omega) (by omega)
  have hword : wordAt frame' 12 = wordAt frame 12 := by
    rw [wordAt, wordAt, hlow 12 (by omega), hlow 13 (by omega)]
  obtain ⟨het, hoff, -, hnum, hfit, -, hsrc, hdst, hfl, hecho⟩ := hl4
  refine ⟨by rw [hword, het], by rw [hlow 14 (by omega), hoff], hihl,
    by rw [hlow 23 (by omega), hnum], by rw [h.length]; exact hfit, hcs, ?_, ?_, ?_, ?_⟩
  · rw [← hid]
    rfl
  · rw [hdst]
    split_ifs with hp
    · rfl
    · have hpos : l4.idPos 0 = 0 := if_neg hp
      have hcp : 6 ≤ l4.proto.csumPos := by cases hc : l4.proto <;> simp_all [Proto.csumPos]
      rw [hpos] at hother
      change wordAt frame (l4.l4Off + 2) = wordAt frame' (l4.l4Off + 2)
      rw [wordAt, wordAt, hother _ (by omega) (by omega) (by omega),
        hother _ (by omega) (by omega) (by omega)]
  · rw [hfl]
    split_ifs with hp
    · have hpos : l4.idPos 0 = 0 := by simp [L4.idPos, hp]
      have hcp : l4.proto.csumPos = 16 := by rw [hp]; rfl
      rw [hpos] at hother
      change byteAt frame (l4.l4Off + 13) = byteAt frame' (l4.l4Off + 13)
      rw [hother _ (by omega) (by omega) (by omega)]
    · rfl
  · intro hp
    have hpos : l4.idPos 0 = 4 := if_pos hp
    have hcp : l4.proto.csumPos = 2 := by rw [show l4.proto = .icmpEcho from hp]; rfl
    rw [hpos] at hother
    change byteAt frame' l4.l4Off = 0 ∨ byteAt frame' l4.l4Off = 8
    rw [hother _ (by omega) (by omega) (by omega)]
    exact hecho hp

/-- `reply`, parsed as `r4`, answers `sent`, parsed as `f4`: the ends are swapped, and an ICMP
reply is an echo reply with the same id. -/
structure RepliesTo (reply : Frame) (r4 : L4) (sent : Frame) (f4 : L4) : Prop where
  proto : r4.proto = f4.proto
  srcIp : ipAt reply 26 = ipAt sent 30
  dstIp : ipAt reply 30 = ipAt sent 26
  ports : r4.proto ≠ .icmpEcho → r4.srcId = f4.dstId ∧ r4.dstId = f4.srcId
  echo : r4.proto = .icmpEcho → byteAt reply r4.l4Off = 0 ∧ r4.srcId = f4.srcId

variable {κ : Type} [CidrOps κ]

/-- **NAPT round trip.**  Let `frame` leave the NAPT device from a reachable table.  After any
operations that spare the slot of its flow, a reply to our MAC, to the frame as it left, is
classified `transit` and rewritten to the source address and id of `frame`; nothing else but the
check word changes. -/
theorem napt_roundTrip {dev dev' : ForwardingDevice κ} (hnat : dev.nat = true)
    (hnat' : dev'.nat = true) (hip : dev'.cfg.ourIp = dev.cfg.ourIp)
    (hspec : dev.cfg.ourIp ≠ .unspecified) {s : CtState} (hs : ctSystem.Reachable s)
    {frame : Frame} {l4 : L4} (hl4 : parseL4 frame = .ok (some l4)) (ts : ℤ) :
    ∃ s₁ i wid sent f4,
      s.outbound (outTuple frame l4) l4.tcpFlags (nowMs ts) = (s₁, some wid) ∧
      HoldsFlow s₁ i (outTuple frame l4) wid ∧
      dev.egressNapt s frame ts = .ok (s₁, some sent) ∧
      ipAt sent 26 = dev.cfg.ourIp ∧ parseL4 sent = .ok (some f4) ∧ f4.srcId = wid ∧
      ∀ tr s₂, (ctSystem.restrict (Spares i)).Path s₁ tr s₂ →
        ∀ reply r4 ts', parseL4 reply = .ok (some r4) →
          reply.take 6 = dev'.cfg.ourMac.toList → RepliesTo reply r4 sent f4 →
          (s₂.ct.slot i).expired (nowMs ts') = false →
          ∃ reply' s₃, dev'.classifyFrame s₂ reply ts' = .ok (.transit, reply', s₃) ∧
            reply'.length = reply.length ∧ ipAt reply' 30 = ipAt frame 26 ∧
            wordAt reply' (r4.l4Off + r4.idPos 2) = l4.srcId ∧
            ∀ j, ¬(30 ≤ j ∧ j < 34) →
              ¬(r4.l4Off + r4.idPos 2 ≤ j ∧ j < r4.l4Off + r4.idPos 2 + 2) →
              ¬(r4.csumOff ≤ j ∧ j < r4.csumOff + 2) → byteAt reply' j = byteAt reply j := by
  have hI := ct_invariant hs
  rw [parseL4_eq_some_iff] at hl4
  obtain ⟨⟨s₁, r⟩, hout⟩ : ∃ p, s.outbound (outTuple frame l4) l4.tcpFlags (nowMs ts) = p :=
    ⟨_, rfl⟩
  obtain ⟨i, wid, rfl, hflow⟩ := HoldsFlow.of_outbound hI hout
  obtain ⟨sent, heg, hsent⟩ := ForwardingDevice.egressNapt_spec hnat hl4 hout
  refine ⟨s₁, i, wid, sent, { l4 with srcId := wid }, hout, hflow, heg, hsent.ip,
    parseL4_eq_some_iff.2 (hsent.isL4_src hl4), rfl, ?_⟩
  intro tr s₂ hpath reply r4 ts' hr4 hmac hrep hlive
  rw [parseL4_eq_some_iff] at hr4
  obtain ⟨hflow₂, hI₂⟩ := hflow.path (hI.outbound hout) hpath
  obtain ⟨s₃, hin⟩ := hflow₂.inbound hI₂ hlive r4.tcpFlags
  -- the address and the ids of the reply are the remote side and the id of the flow
  have hremote : ipAt reply 26 = ipAt frame 30 := by
    rw [hrep.srcIp]
    have hihl := hl4.ihl
    have hcs := hl4.csumOff
    simp only [ipAt]
    rw [hsent.other _ (by omega) (by omega) (by omega), hsent.other _ (by omega) (by omega)
      (by omega), hsent.other _ (by omega) (by omega) (by omega), hsent.other _ (by omega)
      (by omega) (by omega)]
  have hids : ForwardingDevice.replyIds r4 = ((outTuple frame l4).dstId, wid) := by
    have hp : r4.proto = l4.proto := hrep.proto
    unfold ForwardingDevice.replyIds outTuple
    by_cases he : r4.proto = .icmpEcho
    · rw [if_pos he, if_pos (hp ▸ he), (hrep.echo he).2]
    · rw [if_neg he, if_neg (hp ▸ he), (hrep.ports he).1, (hrep.ports he).2]
  have hin' : s₂.inbound r4.proto (ipAt reply 26) (ForwardingDevice.replyIds r4).1
      (ForwardingDevice.replyIds r4).2 r4.tcpFlags (nowMs ts') =
        (s₃, some (ipAt frame 26, l4.srcId)) := by
    rw [hids, hremote, show r4.proto = l4.proto from hrep.proto]
    exact hin
  have hunspec : dev'.cfg.ourIp.isUnspecified = false := by
    rw [hip]
    simpa [Ipv4Address.isUnspecified] using hspec
  obtain ⟨reply', hcl, hrw⟩ := ForwardingDevice.classifyFrame_reply hnat' hunspec hr4 hmac
    (by rw [hrep.dstIp, hsent.ip, hip]) hin'
  exact ⟨reply', s₃, hcl, hrw.length, hrw.ip, hrw.id, hrw.other⟩

/-! ### A DNS query and its reply -/

/-- A WAN device with the address `ip`. -/
def wanDev (ip : Ipv4Address) : ForwardingDevice Ipv4Cidr where
  cfg :=
    { iface := .wan, ourMac := #v[2, 0, 0, 0, 0, 1], ourIp := ip, subnet := ⟨ip, 24⟩,
      gateway := none, acceptDst := none }
  nat := true

/-- A UDP frame to our MAC without payload. -/
def udpHeaders (src : Ipv4Address) (srcPort : UInt16) (dst : Ipv4Address) (dstPort csum : UInt16) :
    Frame :=
  [2, 0, 0, 0, 0, 1, 2, 0, 0, 0, 0, 2, 8, 0, 0x45, 0, 0, 28, 0, 0, 0, 0, 64, 17, 0, 0] ++
    src.octets ++ dst.octets ++ toBeBytes srcPort ++ toBeBytes dstPort ++ [0, 8] ++ toBeBytes csum

section Headers

variable (src dst : Ipv4Address) (srcPort dstPort csum : UInt16)

theorem ipAt_udpHeaders_src : ipAt (udpHeaders src srcPort dst dstPort csum) 26 = src := rfl

theorem ipAt_udpHeaders_dst : ipAt (udpHeaders src srcPort dst dstPort csum) 30 = dst := rfl

end Headers

/-- The query of a LAN client. -/
def dnsQuery : Frame := udpHeaders ⟨192, 168, 4, 10⟩ 5353 ⟨8, 8, 8, 8⟩ 53 0

/-- The query as it leaves the WAN device. -/
def dnsSent (ip : Ipv4Address) : Frame := udpHeaders ip 49152 ⟨8, 8, 8, 8⟩ 53 0

/-- The reply of the server. -/
def dnsReply (ip : Ipv4Address) : Frame := udpHeaders ⟨8, 8, 8, 8⟩ 53 ip 49152 0

/-- A UDP header at its usual place. -/
def udpL4 (srcId dstId : UInt16) : L4 where
  proto := .udp
  l4Off := 34
  srcId := srcId
  dstId := dstId
  csumOff := 40
  tcpFlags := 0

theorem dnsReply_repliesTo (ip : Ipv4Address) :
    RepliesTo (dnsReply ip) (udpL4 53 49152) (dnsSent ip) (udpL4 49152 53) := by
  refine ⟨rfl, ?_, ?_, fun _ => ⟨rfl, rfl⟩, fun h => by cases h⟩
  · rw [dnsReply, dnsSent, ipAt_udpHeaders_src, ipAt_udpHeaders_dst]
  · rw [dnsReply, dnsSent, ipAt_udpHeaders_src, ipAt_udpHeaders_dst]

/-- The table after the query. -/
def dnsTable : CtState := (CtState.new.outbound (outTuple dnsQuery (udpL4 5353 53)) 0 0).1

/-- A query of another client. -/
def otherQuery : Frame := udpHeaders ⟨192, 168, 4, 11⟩ 5353 ⟨8, 8, 8, 8⟩ 53 0

/-- The table after both queries. -/
def queriesTable : CtState := (dnsTable.outbound (outTuple otherQuery (udpL4 5353 53)) 0 1).1

/-- The client gets the reply, although another client has asked the same server from the same port
since. -/
theorem napt_roundTrip_dns :
    ∃ reply' s₃,
      (wanDev ⟨203, 0, 113, 9⟩).classifyFrame queriesTable (dnsReply ⟨203, 0, 113, 9⟩) 5 =
        .ok (.transit, reply', s₃) ∧
      ipAt reply' 30 = ⟨192, 168, 4, 10⟩ ∧ wordAt reply' 36 = 5353 := by
  obtain ⟨s₁, i, wid, sent, f4, hout, hflow, heg, -, hf4, -, h⟩ :=
    napt_roundTrip (rfl : (wanDev ⟨203, 0, 113, 9⟩).nat = true)
      (rfl : (wanDev ⟨203, 0, 113, 9⟩).nat = true) rfl (by decide) (System.Reachable.init rfl)
      (by decide +kernel : parseL4 dnsQuery = .ok (some (udpL4 5353 53))) 0
  have hs₁ : s₁ = dnsTable := (congrArg Prod.fst hout).symm
  have hsent : sent = dnsSent ⟨203, 0, 113, 9⟩ := by
    have he : ((wanDev ⟨203, 0, 113, 9⟩).egressNapt CtState.new dnsQuery 0).map Prod.snd =
        .ok (some (dnsSent ⟨203, 0, 113, 9⟩)) := by decide +kernel
    rw [heg] at he
    simpa [Except.map] using he
  have hparse : parseL4 (dnsSent ⟨203, 0, 113, 9⟩) = .ok (some (udpL4 49152 53)) := by
    decide +kernel
  subst hs₁ hsent
  obtain rfl : f4 = udpL4 49152 53 := by
    rw [hparse] at hf4
    simpa using hf4.symm
  -- the other query takes a free slot
  have hlive : ∀ i < ctCap, (dnsTable.ct.slot i).used = true → dnsTable.ct.pickSlot 1 ≠ i ∧
      (dnsTable.ct.slot i).expired 1 = false ∧ (queriesTable.ct.slot i).expired 5 = false := by
    decide +kernel
  obtain ⟨hpick, hlive, hlive'⟩ := hlive i hflow.lt hflow.used
  have hspares : Spares i dnsTable
      (.outbound (outTuple otherQuery (udpL4 5353 53)) 0 1 (some 49153)) := by
    refine ⟨?_, hlive⟩
    rintro ⟨t, f, now, r, hev, -, hslot⟩
    cases hev
    exact hpick hslot
  have hpath : (ctSystem.restrict (Spares i)).Path dnsTable
      [.outbound (outTuple otherQuery (udpL4 5353 53)) 0 1 (some 49153)] queriesTable :=
    .one ⟨hspares, rfl⟩
  obtain ⟨reply', s₃, hcl, -, hip, hid, -⟩ := h _ _ hpath (dnsReply ⟨203, 0, 113, 9⟩)
    (udpL4 53 49152) 5 (by decide +kernel) (by decide +kernel) (dnsReply_repliesTo _) hlive'
  exact ⟨reply', s₃, hcl, hip, hid⟩
/-- Before a lease our address is `0.0.0.0`: the query leaves rewritten, and its reply is left to
the local stack. -/
theorem classifyFrame_unleased :
    parseL4 dnsQuery = .ok (some (udpL4 5353 53)) ∧
    ((wanDev .unspecified).egressNapt CtState.new dnsQuery 0).map Prod.snd =
      .ok (some (dnsSent .unspecified)) ∧
    parseL4 (dnsSent .unspecified) = .ok (some (udpL4 49152 53)) ∧
    parseL4 (dnsReply .unspecified) = .ok (some (udpL4 53 49152)) ∧
    (dnsReply .unspecified).take 6 = (wanDev .unspecified).cfg.ourMac.toList ∧
    RepliesTo (dnsReply .unspecified) (udpL4 53 49152) (dnsSent .unspecified) (udpL4 49152 53) ∧
    (∃ i < ctCap, HoldsFlow dnsTable i (outTuple dnsQuery (udpL4 5353 53)) 49152 ∧
      (dnsTable.ct.slot i).expired 5 = false) ∧
    ((wanDev .unspecified).classifyFrame dnsTable (dnsReply .unspecified) 5).map
      (fun r => (r.1, r.2.1)) = .ok (.local, dnsReply .unspecified) :=
  ⟨by decide +kernel, by decide +kernel, by decide +kernel, by decide +kernel, by decide +kernel,
    dnsReply_repliesTo _,
    ⟨0, by decide, ⟨by decide, by decide +kernel, by decide +kernel, by decide +kernel⟩,
      by decide +kernel⟩, by decide +kernel⟩

end Pico10BaseT
