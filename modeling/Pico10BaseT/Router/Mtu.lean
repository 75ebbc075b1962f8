import Pico10BaseT.Router.Basic
import Pico10BaseT.Rx.MacSpec
import Pico10BaseT.Rx.RoundTrip

/-!
# A received frame on its way to the access point

A frame that `scan_runs` publishes ends with its FCS: `derive_frame_len` counts it and nothing cuts
it off.  `EthMac::receive` hands the frame to the WAN device as it is, `classify_frame` and `egress`
keep its length, so the TX token of the access point is asked for four bytes more than the frame has
there.

* `published_ipv4` : the length of a published IPv4 frame.
* `not_fitsLan` : no frame that goes this way is what the access point's device takes.
-/

namespace Pico10BaseT

/-- cyw43 frame MTU (L2, including the 14-byte Ethernet header). -/
def cyw43Mtu : ℕ := 1514

/-- What the TX token of the access point is to get for a received frame: as many bytes as it
accepts, and the FCS not among them. -/
structure FitsLan (received g : Frame) : Prop where
  mtu : g.length ≤ cyw43Mtu
  noFcs : g.length + 4 = received.length

/-! ### The length of a published frame -/

/-- **A published IPv4 frame** has its FCS: it is as long as its header says, or as the decoder
could read. -/
theorem published_ipv4 {ourMac bytes : List UInt8} {off len : ℕ} {dst frame p : List UInt8}
    (h : PublishedFrom ourMac bytes off len dst frame p) (hip : wordAt p 12 = ethertypeIpv4) :
    18 ≤ p.length ∧ p.length = min (max (14 + (wordAt p 16).toNat + 4) 64) frame.length := by
  obtain ⟨hlo, hhi⟩ := verifyFcs_bounds h.fcs
  have hword : ∀ i, i + 1 < 18 → wordAt p i = wordAt frame i := fun i hi => by
    refine wordAt_congr ?_ ?_ <;> rw [h.eq_take, byteAt_take (by omega)]
  rw [hword 12 (by omega)] at hip
  have hlen := deriveFrameLen_ipv4 (by omega) hip
  rw [h.frameLen] at hlen
  rw [hword 16 (by omega)]
  exact ⟨hlo, Except.ok.inj hlen⟩

/-- A frame that is received is published with its FCS. -/
theorem FrameReceived.publishes {image body run : List UInt8} {n off len : ℕ}
    (h : FrameReceived image n body off len run) {ourMac : List UInt8}
    (hmac : macAccept ((paddedBody body).take 6) ourMac = true) (stitchCl : Option ℕ)
    (acc : StatsDelta) (stitch : StitchCounters) :
    ∃ t, scanTurn ourMac image stitchCl 0 acc stitch = .ok (some t) ∧
      t.publish = some (wireFrame body) := by
  have hlen := length_wireFrame body
  obtain ⟨acc', hacc⟩ := acc.record_ok true (le_refl (wireFrame body).length)
  have hmin : min (max body.length 60 + 4) (wireFrame body).length = (wireFrame body).length := by
    rw [hlen, Nat.min_self]
  refine ⟨⟨off + len, acc', stitch.count stitchCl true, some (wireFrame body)⟩, ?_, rfl⟩
  have hdec := h.decoded
  have hderive := h.frameLen
  have hfcs := h.fcs
  rw [← wireFrame] at hdec hderive hfcs
  simp only [scanTurn, h.found, h.dstMac, hmac, h.slice, hdec, hderive, hfcs, hmin, hacc,
    Exec.ok_bind, Exec.pure_eq, List.take_length, if_true, Bool.true_eq_false, if_false]

/-! ### The two devices keep the length -/

section Path

variable {κ : Type} [CidrOps κ]

open ForwardingDevice

/-- A transit frame has the length of the received one, and the bytes after the L4 header. -/
theorem transit_trailer {wan : ForwardingDevice κ} {ct ct' : CtState} {frame q : Frame} {ts : ℤ}
    (h : wan.classifyFrame ct frame ts = .ok (.transit, q, ct')) :
    q.length = frame.length ∧ ∀ j,
      (∀ l4, parseL4 frame = .ok (some l4) → l4.l4Off + l4.proto.hdrLen ≤ j) →
      byteAt q j = byteAt frame j := by
  rcases wan.classifyFrame_cases ct frame ts with
    ⟨l4, _, _, _, _, hask, -, hcl, hrw⟩ | ⟨-, c, -, hcl⟩
  · rw [h] at hcl
    cases hcl
    refine ⟨hrw.length, fun j hl4 => ?_⟩
    have hend := hl4 l4 hask.parsed.parseL4
    have hihl := hask.parsed.ihl
    have hcsum := hask.parsed.csumOff
    obtain ⟨hid, hsum, -⟩ := l4.positions (le_refl 2)
    exact hrw.other j (by omega) (by omega) (by omega)
  · rw [h] at hcl
    cases hcl
    exact ⟨rfl, fun _ _ => rfl⟩

/-- **No frame that goes to the access point is what its device takes.**  For every IPv4 frame with a
total length of at most 1500 that a turn of `scan_runs` publishes, every WAN device that classes it
as transit and every device that then transmits it, the frame passed to the TX token is as long as
the received one, FCS included.  So it never comes without the FCS; where the received frame is as
long as its header says it exceeds the MTU as soon as the total length exceeds 1496; and on the LAN
device, which does no NAPT, its last four bytes are the FCS of the received frame. -/
theorem not_fitsLan [Ipv4PacketOps] [LawfulIpv4Packet] {ourMac bytes p : List UInt8}
    {stitchCl : Option ℕ} {cursor : ℕ} {acc : StatsDelta} {stitch : StitchCounters} {t : Turn}
    (hturn : scanTurn ourMac bytes stitchCl cursor acc stitch = .ok (some t))
    (hpub : t.publish = some p) (hip : wordAt p 12 = ethertypeIpv4)
    (htotal : (wordAt p 16).toNat ≤ 1500) {wan lan : ForwardingDevice κ} {ct ct' : CtState}
    {q : Frame} {ts : ℤ}
    (hwan : wan.classifyFrame ct (capture p) ts = .ok (.transit, q, ct'))
    {st st' : FwdState} {now : ℤ} {ready : Bool} {g : Frame}
    (hlan : lan.egress st q now ready = .ok (st', some g)) :
    ¬ FitsLan p g ∧ g.length = p.length ∧
      (p.length = 14 + (wordAt p 16).toNat + 4 →
        (g.length ≤ cyw43Mtu ↔ (wordAt p 16).toNat ≤ 1496)) ∧
      (lan.nat = false →
        (∀ l4, parseL4 p = .ok (some l4) → l4.l4Off + l4.proto.hdrLen ≤ p.length - 4) →
        ∀ j, p.length - 4 ≤ j → byteAt g j = byteAt p j) := by
  obtain ⟨off, len, -, hscan⟩ := scanTurn_scanned hturn
  obtain ⟨dst, frame, hp⟩ := hscan.publishedFrom hpub
  obtain ⟨hlo, hlen⟩ := published_ipv4 hp hip
  -- the copy into a forward frame is not cut
  have hcap : capture p = p := by
    rw [capture, ForwardingDevice.frameCap]
    exact List.take_of_length_le (by omega)
  rw [hcap] at hwan
  obtain ⟨hq, htrailer⟩ := transit_trailer hwan
  have h34 := length_of_classifyFrame hwan (by decide)
  have hfwd := forwarded_of_egress h34 hlan
  have hg : g.length = p.length := hfwd.length.trans hq
  refine ⟨fun h => ?_, hg, fun hfull => ?_, fun hnat hl4 j hj => ?_⟩
  · have := h.noFcs
    omega
  · rw [hg, hfull, cyw43Mtu]
    omega
  · rw [hfwd.plain (.inl hnat) j (by omega) (by omega) (by omega) (by omega)]
    exact htrailer j fun l4 h => (hl4 l4 h).trans hj

end Path

/-! ### A full-size download -/

open ForwardingDevice

/-- The WAN device with an address. -/
def leasedDev : ForwardingDevice Ipv4Cidr := unleasedDev.setLease ⟨⟨203, 0, 113, 9⟩, 24⟩ none

/-- Headers of a packet of 1500 bytes for the client. -/
def fullHeaders : Frame :=
  [2, 0, 0, 0, 0, 1, 2, 0, 0, 0, 0, 2, 8, 0, 0x45, 0, 0x05, 0xdc, 0, 0, 0, 0, 64, 6, 0, 0, 8, 8, 8, 8,
    192, 168, 4, 10]

def fullBody : List UInt8 := fullHeaders ++ List.replicate 1480 0

theorem length_fullBody : fullBody.length = 1514 := by
  rw [fullBody, List.length_append, List.length_replicate]
  rfl

theorem paddedBody_fullBody : paddedBody fullBody = fullBody := by
  rw [paddedBody, length_fullBody]
  exact List.append_nil _

/-- The frame on the wire starts with the headers. -/
theorem byteAt_fullFrame {i : ℕ} (hi : i < 34) :
    byteAt (wireFrame fullBody) i = byteAt fullHeaders i := by
  have hlen := length_fullBody
  rw [wireFrame, paddedBody_fullBody, byteAt_append_left _ (by omega), fullBody,
    byteAt_append_left _ hi]

theorem wordAt_fullFrame {i : ℕ} (hi : i + 1 < 34) :
    wordAt (wireFrame fullBody) i = wordAt fullHeaders i :=
  wordAt_congr (byteAt_fullFrame (by omega)) (byteAt_fullFrame hi)

theorem ipAt_fullFrame {i : ℕ} (hi : i + 3 < 34) :
    ipAt (wireFrame fullBody) i = ipAt fullHeaders i :=
  ipAt_congr fun _ _ hj => byteAt_fullFrame (by omega)

theorem length_fullFrame : (wireFrame fullBody).length = 1518 := by
  rw [length_wireFrame, length_fullBody]
  rfl

theorem capture_fullFrame : capture (wireFrame fullBody) = wireFrame fullBody := by
  have hlen := length_fullFrame
  rw [capture, ForwardingDevice.frameCap]
  exact List.take_of_length_le (by omega)

theorem headerAgrees_fullBody : HeaderAgrees fullBody := by
  have hword : ∀ i, i + 1 < 34 → wordAt (paddedBody fullBody) i = wordAt fullHeaders i :=
    fun i hi => (wordAt_wireFrame fullBody (by omega)).symm.trans (wordAt_fullFrame hi)
  rw [HeaderAgrees, hword 12 (by omega), hword 16 (by omega), length_fullBody]
  decide

/-- It is published as it is on the wire. -/
theorem fullFrame_published :
    ∃ t, scanTurn unleasedDev.cfg.ourMac.toList (capturedImage 5 true fullBody []) none 0 .new
        ⟨0, 0⟩ = .ok (some t) ∧ t.publish = some (wireFrame fullBody) := by
  obtain ⟨off, len, run, h⟩ := received_capturedImage 5 true fullBody []
    (by rw [length_fullBody]; decide) headerAgrees_fullBody
  refine h.publishes ?_ none .new ⟨0, 0⟩
  rw [paddedBody_fullBody, fullBody, List.take_append_of_le_length (by decide)]
  decide

/-- It is for a LAN client. -/
theorem fullFrame_transit :
    leasedDev.classifyFrame .new (capture (wireFrame fullBody)) 0 =
      .ok (.transit, wireFrame fullBody, .new) := by
  have hlen := length_fullFrame
  rw [capture_fullFrame]
  rcases leasedDev.classifyFrame_cases .new (wireFrame fullBody) 0 with
    ⟨l4, _, _, _, _, hask, -⟩ | ⟨-, c, hc, hcl⟩
  · have hdst := hask.toUs.dst
    rw [ipAt_fullFrame (by omega)] at hdst
    exact absurd hdst (by decide)
  · rw [hcl]
    have hmac : (wireFrame fullBody).take 6 = fullHeaders.take 6 := by
      rw [wireFrame, paddedBody_fullBody, fullBody, List.append_assoc,
        List.take_append_of_le_length (by decide)]
    rw [classify_eq, wordAt_fullFrame (by omega), ipAt_fullFrame (by omega), hmac, hlen] at hc
    obtain rfl : c = .transit := Except.ok.inj (hc.symm.trans (by decide +kernel))
    rfl

/-- The access point's device transmits it. -/
theorem fullFrame_transmitted :
    ∃ st' g, @ForwardingDevice.egress _ _ headerOps lanDev lanClientKnown (wireFrame fullBody) 0
      true = .ok (st', some g) := by
  have hlen := length_fullFrame
  refine @ForwardingDevice.egress_transmits _ _ lanDev lanClientKnown _ 0 headerOps
    headerOps_lawful ⟨192, 168, 4, 10⟩ #v[2, 0, 0, 0, 0, 7] rfl ?_ ?_ ?_ ?_
  · have hhl : ipHeaderLen ((wireFrame fullBody).drop 14) = 20 := by
      rw [ipHeaderLen, byteAt_drop, byteAt_fullFrame (by omega)]
      decide
    have htotal : wordAt ((wireFrame fullBody).drop 14) 2 = 1500 := by
      rw [wordAt, byteAt_drop, byteAt_drop, byteAt_fullFrame (by omega),
        byteAt_fullFrame (by omega)]
      decide
    change (decide _ && decide _ && decide _) = true
    rw [hhl, htotal, List.length_drop, hlen]
    decide
  · rw [byteAt_fullFrame (by omega)]
    decide
  · rw [ipAt_fullFrame (by omega)]
    decide +kernel
  · decide +kernel

/-- **A packet of 1500 bytes** reaches the TX token of the access point as 1518 bytes. -/
theorem not_fitsLan_fullFrame :
    ∃ t p q ct' st' g,
      scanTurn unleasedDev.cfg.ourMac.toList (capturedImage 5 true fullBody []) none 0 .new ⟨0, 0⟩ =
        .ok (some t) ∧ t.publish = some p ∧ wordAt p 12 = ethertypeIpv4 ∧ wordAt p 16 = 1500 ∧
      leasedDev.classifyFrame .new (capture p) 0 = .ok (.transit, q, ct') ∧
      @ForwardingDevice.egress _ _ headerOps lanDev lanClientKnown q 0 true = .ok (st', some g) ∧
      cyw43Mtu < g.length ∧ g.length + 4 ≠ p.length := by
  have hlen := length_fullFrame
  obtain ⟨t, hturn, hpub⟩ := fullFrame_published
  obtain ⟨st', g, heg⟩ := fullFrame_transmitted
  have hg : g.length = 1518 :=
    (@forwarded_of_egress _ _ _ _ _ _ _ headerOps headerOps_lawful _ _ (by omega) heg).length.trans
      hlen
  refine ⟨t, wireFrame fullBody, wireFrame fullBody, .new, st', g, hturn, hpub, ?_, ?_,
    fullFrame_transit, heg, ?_, ?_⟩
  · rw [wordAt_fullFrame (by omega)]
    decide
  · rw [wordAt_fullFrame (by omega)]
    decide
  · rw [hg]
    decide
  · omega

theorem not_fitsLan_full :
    ∃ st' g, @ForwardingDevice.egress _ _ headerOps lanDev lanClientKnown (wireFrame fullBody) 0
        true = .ok (st', some g) ∧
      ¬ FitsLan (wireFrame fullBody) g ∧ g.length = (wireFrame fullBody).length := by
  obtain ⟨t, hturn, hpub⟩ := fullFrame_published
  obtain ⟨st', g, heg⟩ := fullFrame_transmitted
  have hip : wordAt (wireFrame fullBody) 12 = ethertypeIpv4 := by
    rw [wordAt_fullFrame (by omega)]
    decide
  have htotal : wordAt (wireFrame fullBody) 16 = 1500 := by
    rw [wordAt_fullFrame (by omega)]
    decide
  obtain ⟨hnot, hlen, -⟩ := @not_fitsLan _ _ headerOps headerOps_lawful _ _ _ _ _ _ _ _ hturn hpub
    hip (by rw [htotal]; decide) _ _ _ _ _ _ fullFrame_transit _ _ _ _ _ heg
  exact ⟨st', g, heg, hnot, hlen⟩

end Pico10BaseT
