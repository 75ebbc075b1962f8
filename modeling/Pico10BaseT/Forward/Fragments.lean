import Pico10BaseT.Forward.Checksum
import Pico10BaseT.Forward.Dropped
import Pico10BaseT.Forward.Ingress

/-!
# Fragments and cut headers

`parse_l4` looks at the EtherType, the IHL, the protocol and the length of the frame, and at
neither the fragment offset nor the total length.  What it takes for an L4 header is then payload
in a fragment that is not the first, and payload or Ethernet padding where the total length ends
early.

* `parses_iff` : the frames that `parse_l4` accepts.
* `napt_payload_iff` : NAPT keeps off the payload and the table exactly of the frames that are not
  misread so.
-/

namespace Pico10BaseT

/-- Fragment offset, in units of eight bytes. -/
def fragOffset (frame : Frame) : UInt16 := wordAt frame 20 &&& 0x1fff

/-- Header length of a protocol that NAPT rewrites. -/
def l4HdrLen (number : UInt8) : Option ℕ :=
  if number = ipprotoTcp then some 20
  else if number = ipprotoUdp ∨ number = ipprotoIcmp then some 8
  else none

theorem l4HdrLen_number (p : Proto) : l4HdrLen p.number = some p.hdrLen := by
  cases p <;> rfl

theorem exists_proto_of_l4HdrLen {number : UInt8} {n : ℕ} (h : l4HdrLen number = some n) :
    ∃ p : Proto, p.number = number ∧ p.hdrLen = n := by
  unfold l4HdrLen at h
  split_ifs at h with htcp hrest
  · exact ⟨.tcp, htcp.symm, Option.some.inj h⟩
  · rcases hrest with hudp | hicmp
    · exact ⟨.udp, hudp.symm, Option.some.inj h⟩
    · exact ⟨.icmpEcho, hicmp.symm, Option.some.inj h⟩

/-- The bytes at `l4` are an L4 header: nothing of the datagram comes before the frame, and the
total length covers the header. -/
structure Genuine (frame : Frame) (l4 : L4) : Prop where
  first : fragOffset frame = 0
  covered : l4.l4Off + l4.proto.hdrLen ≤ 14 + ipTotal frame

/-- An IPv4 frame without a whole L4 header: not the first fragment, or cut short by its total
length. -/
def NoL4Header (frame : Frame) : Prop :=
  wordAt frame 12 = ethertypeIpv4 ∧ (fragOffset frame ≠ 0 ∨
    ∃ n, l4HdrLen (byteAt frame 23) = some n ∧ 14 + ipTotal frame < l4Start frame + n)

/-- The frame has bytes behind its IP header that can be taken for an L4 header. -/
structure LooksLikeL4 (frame : Frame) : Prop where
  ihl : 34 ≤ l4Start frame
  fits : ∃ n, l4HdrLen (byteAt frame 23) = some n ∧ l4Start frame + n ≤ frame.length
  echo : byteAt frame 23 = ipprotoIcmp →
    byteAt frame (l4Start frame) = 0 ∨ byteAt frame (l4Start frame) = 8

/-- What `parse_l4` reads in the bytes behind the IP header. -/
def l4At (frame : Frame) (proto : Proto) : L4 where
  proto := proto
  l4Off := l4Start frame
  srcId := wordAt frame (l4Start frame + if proto = .icmpEcho then 4 else 0)
  dstId := if proto = .icmpEcho then 0 else wordAt frame (l4Start frame + 2)
  csumOff := l4Start frame + proto.csumPos
  tcpFlags := if proto = .tcp then byteAt frame (l4Start frame + 13) else 0

/-- **What `parse_l4` accepts**: any IPv4 frame with bytes that look like an L4 header. -/
theorem parses_iff {frame : Frame} : (∃ l4, parseL4 frame = .ok (some l4)) ↔
    wordAt frame 12 = ethertypeIpv4 ∧ LooksLikeL4 frame := by
  simp only [parseL4_eq_some_iff]
  constructor
  · rintro ⟨l4, h⟩
    have hoff : l4.l4Off = l4Start frame := h.l4Off
    refine ⟨h.etype, hoff ▸ h.ihl, ⟨l4.proto.hdrLen, ?_, hoff ▸ h.fits⟩, fun hicmp => ?_⟩
    · rw [h.number, l4HdrLen_number]
    · rw [h.number] at hicmp
      rw [← hoff]
      cases hp : l4.proto with
      | icmpEcho => exact h.echo hp
      | tcp => rw [hp] at hicmp; cases hicmp
      | udp => rw [hp] at hicmp; cases hicmp
  · rintro ⟨het, hihl, ⟨n, hn, hfit⟩, hecho⟩
    obtain ⟨p, hp, rfl⟩ := exists_proto_of_l4HdrLen hn
    refine ⟨l4At frame p, het, rfl, hihl, hp.symm, hfit, rfl, rfl, rfl, rfl, fun hicmp => ?_⟩
    obtain rfl : p = .icmpEcho := hicmp
    exact hecho hp.symm

variable {κ : Type} [CidrOps κ]

/-- NAPT keeps off the frame in both directions: behind the IP header no byte changes, and no
entry of the table does. -/
structure Untouched [Ipv4PacketOps] (dev : ForwardingDevice κ) (frame : Frame) : Prop where
  egress : ∀ st, ctSystem.Reachable st.ct → ∀ now ready st' out,
    dev.egress st frame now ready = .ok (st', out) →
      st'.ct.ct.slots = st.ct.ct.slots ∧ ∀ g, out = some g → g.drop 34 = frame.drop 34
  ingress : ∀ s, ctSystem.Reachable s → ∀ ts c frame' s',
    dev.classifyFrame s frame ts = .ok (c, frame', s') →
      s'.ct.slots = s.ct.slots ∧ frame'.drop 34 = frame.drop 34

theorem IsL4.genuine_iff {frame : Frame} {l4 : L4} (h : IsL4 frame l4) :
    Genuine frame l4 ↔ ¬NoL4Header frame := by
  have hoff : l4.l4Off = l4Start frame := h.l4Off
  have hn : l4HdrLen (byteAt frame 23) = some l4.proto.hdrLen := by
    rw [h.number, l4HdrLen_number]
  constructor
  · rintro ⟨hfirst, hcov⟩ ⟨-, hfrag | ⟨n, hn', hcut⟩⟩
    · exact hfrag hfirst
    · obtain rfl : l4.proto.hdrLen = n := Option.some.inj (hn.symm.trans hn')
      omega
  · intro hwhole
    refine ⟨by_contra fun hfrag => hwhole ⟨h.etype, .inl hfrag⟩, by_contra fun hcut => ?_⟩
    exact hwhole ⟨h.etype, .inr ⟨_, hn, by omega⟩⟩

section Untouched

variable [Ipv4PacketOps] [LawfulIpv4Packet] {dev : ForwardingDevice κ} {frame : Frame}

omit [CidrOps κ] in
theorem length_of_egressL3 {r : Frame × Ipv4Address}
    (h : ForwardingDevice.egressL3 frame = .ok (some r)) : 34 ≤ frame.length := by
  rw [ForwardingDevice.egressL3, Exec.bind_eq_ok] at h
  obtain ⟨ip, hip, h⟩ := h
  split_ifs at h with hchk
  · cases h
  · obtain ⟨hlen, -⟩ := LawfulIpv4Packet.checked _ (by simpa using hchk)
    unfold slice at hip
    split_ifs at hip with hle
    cases hip
    rw [List.length_take, List.length_drop] at hlen
    omega

/-- Egress transmits no frame shorter than an IPv4 header. -/
theorem length_of_egress {st st' : FwdState} {now : ℤ} {ready : Bool} {g : Frame}
    (hparse : parseL4 frame = .ok none)
    (heg : dev.egress st frame now ready = .ok (st', some g)) : 34 ≤ frame.length := by
  have hnapt : dev.egressNapt st.ct frame now = .ok (st.ct, some frame) := by
    rcases dev.egressNapt_cases st.ct frame now with ⟨-, hcase⟩ | ⟨l4, _, _, _, -, hl4, -⟩
    · exact hcase
    · rw [hl4.parseL4] at hparse
      cases hparse
  simp only [ForwardingDevice.egress, hnapt, Exec.ok_bind, Exec.bind_eq_ok] at heg
  obtain ⟨_ | r, hl3, heg⟩ := heg
  · cases heg
  · exact length_of_egressL3 hl3

/-- A frame that is not parsed is left alone. -/
theorem untouched_of_parse_none (hparse : parseL4 frame = .ok none) : Untouched dev frame := by
  constructor
  · intro st hr now ready st' out heg
    refine ⟨by rw [ct_of_egress_plain heg (.inr hparse)], ?_⟩
    rintro g rfl
    have hfwd := ForwardingDevice.forwarded_of_egress (length_of_egress hparse heg) heg
    exact drop_eq_of_byteAt hfwd.length fun j hj =>
      hfwd.plain (.inr hparse) j (by omega) (by omega) (by omega) (by omega)
  · intro s hr ts c frame' s' hcl
    rcases dev.classifyFrame_cases s frame ts with
      ⟨l4, _, _, _, _, hask, -⟩ | ⟨-, c', -, hcl'⟩
    · rw [hask.parsed.parseL4] at hparse
      cases hparse
    · rw [hcl] at hcl'
      cases hcl'
      exact ⟨rfl, rfl⟩

/-- **A parsed frame gets an entry** in an empty table, whatever its bytes are. -/
theorem not_untouched {l4 : L4} (hnat : dev.nat = true) (hl4 : IsL4 frame l4) :
    ¬Untouched dev frame := by
  intro h
  have hfit := hl4.fits
  have hihl := hl4.ihl
  obtain ⟨st', out, heg, -⟩ := dev.egress_cases FwdState.new (by omega : 34 ≤ frame.length) 0 true
  have hr : ctSystem.Reachable FwdState.new.ct := .init rfl
  obtain ⟨hslots, -⟩ := h.egress _ hr _ _ _ _ heg
  obtain ⟨k, hk⟩ := tracked_of_egress hr heg hnat hl4.parseL4
  have hfree : (st'.ct.ct.slot k).used = false := by
    rw [Conntrack.slot, hslots]
    exact CtState.used_slot_new k
  rcases hk.own with ⟨hflow, -⟩ | ⟨-, ⟨wid, -, hnew⟩, -⟩
  · exact absurd (Entry.isFlow_iff.1 hflow).1 (Bool.eq_false_iff.1 (CtState.used_slot_new k))
  · rw [hnew] at hfree
    cases hfree

end Untouched

/-- **NAPT keeps off the payload of every frame that it does not misread**, and of no other.  What
`parse_l4` finds is always an L4 header, and a frame without one passes in both directions with its
payload and the table unchanged, if and only if the frame does not both lack a whole L4 header and
have bytes that look like one. -/
theorem napt_payload_iff [Ipv4PacketOps] [LawfulIpv4Packet] {dev : ForwardingDevice κ}
    (hnat : dev.nat = true) (frame : Frame) :
    ((∀ l4, parseL4 frame = .ok (some l4) → Genuine frame l4) ↔
      ¬(NoL4Header frame ∧ LooksLikeL4 frame)) ∧
    ((NoL4Header frame → Untouched dev frame) ↔ ¬(NoL4Header frame ∧ LooksLikeL4 frame)) := by
  constructor
  · constructor
    · rintro h ⟨hno, hlooks⟩
      obtain ⟨l4, hl4⟩ := parses_iff.2 ⟨hno.1, hlooks⟩
      exact (parseL4_eq_some_iff.1 hl4).genuine_iff.1 (h l4 hl4) hno
    · intro h l4 hl4
      refine (parseL4_eq_some_iff.1 hl4).genuine_iff.2 fun hno => h ⟨hno, ?_⟩
      exact (parses_iff.1 ⟨l4, hl4⟩).2
  · constructor
    · rintro h ⟨hno, hlooks⟩
      obtain ⟨l4, hl4⟩ := parses_iff.2 ⟨hno.1, hlooks⟩
      exact not_untouched hnat (parseL4_eq_some_iff.1 hl4) (h hno)
    · intro h hno
      refine untouched_of_parse_none ?_
      obtain ⟨r, hr⟩ := parseL4_ok frame
      cases r with
      | none => exact hr
      | some l4 => exact absurd ⟨hno, (parses_iff.1 ⟨l4, hr⟩).2⟩ h

/-- A fragment of a UDP datagram, from the middle of it. -/
def laterFragment (payload : List UInt8) : Frame :=
  [2, 0, 0, 0, 0, 1, 2, 0, 0, 0, 0, 2, 8, 0, 0x45, 0, 0, 20 + .ofNat payload.length, 0, 7, 0, 0xb9,
    64, 17, 0, 0, 192, 168, 4, 10, 203, 0, 113, 1] ++ payload

/-- Four bytes are too few for a UDP header, and they pass. -/
theorem napt_payload_iff_tail :
    @Untouched _ _ headerOps (wanDev ⟨203, 0, 113, 9⟩) (laterFragment [1, 2, 3, 4]) := by
  refine (@napt_payload_iff _ _ headerOps headerOps_lawful _ rfl _).2.2 ?_
    ⟨by decide, .inl (by decide)⟩
  rintro ⟨-, -, ⟨n, hn, hfit⟩, -⟩
  obtain rfl : 8 = n := Option.some.inj ((by decide : l4HdrLen 17 = some 8).symm.trans hn)
  exact absurd hfit (by decide)

/-- A next hop whose MAC is known. -/
def wanHopKnown : FwdState :=
  { FwdState.new with
    wanNeigh := NeighborTable.new.insert ⟨203, 0, 113, 1⟩ #v[2, 0, 0, 0, 0, 3] }

/-- The first two bytes of a longer fragment are taken for a port and overwritten, and the fragment
gets an entry. -/
theorem laterFragment_rewritten : NoL4Header (laterFragment [1, 2, 3, 4, 5, 6, 0, 0, 9]) ∧
    ∃ st' g, @ForwardingDevice.egress _ _ headerOps (wanDev ⟨203, 0, 113, 9⟩) wanHopKnown
        (laterFragment [1, 2, 3, 4, 5, 6, 0, 0, 9]) 0 true = .ok (st', some g) ∧
      g.drop 34 = [0xc0, 0, 3, 4, 5, 6, 0, 0, 9] ∧ (st'.ct.ct.slot 0).used = true := by
  refine ⟨⟨by decide, .inl (by decide)⟩, ?_⟩
  have hrun : (@ForwardingDevice.egress _ _ headerOps (wanDev ⟨203, 0, 113, 9⟩) wanHopKnown
      (laterFragment [1, 2, 3, 4, 5, 6, 0, 0, 9]) 0 true).map (fun r =>
        (r.2.map (List.drop 34), (r.1.ct.ct.slot 0).used)) =
      .ok (some [0xc0, 0, 3, 4, 5, 6, 0, 0, 9], true) := by decide +kernel
  obtain ⟨⟨st', out⟩, heg, hr⟩ := Exec.map_eq_ok.1 hrun
  obtain ⟨hout, hused⟩ := Prod.mk.inj hr
  obtain ⟨g, rfl, hg⟩ := Option.map_eq_some_iff.1 hout
  exact ⟨st', g, heg, hg, hused⟩

end Pico10BaseT
