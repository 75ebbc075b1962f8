import Pico10BaseT.Forward.Checksum

/-!
# Rewrites that meet the other zero

One's-complement words have two zeros, and the rewriters do not choose between them: the check word
is whatever `checksum_incr` returns.  In a UDP header a check word of zero means that there is none;
in an ICMP message, which has no pseudo-header, nothing keeps the whole message from being zero.

* `udp_checksum_kept_iff` : when a rewrite leaves a UDP checksum in place.
* `icmp_checksum_kept_iff` : when a rewrite keeps an ICMP checksum valid.
-/

namespace Pico10BaseT

open OnesComplement

/-! ### UDP -/

/-- The check word, the address words and the id of the frame make up the new address words and the
new id by themselves, and these are not all zero with all of the old words `0xffff`. -/
def Balances (ipOff portOff : ℕ) (frame : Frame) (l4 : L4) (newIp : Ipv4Address)
    (newId : UInt16) : Prop :=
  let old := (wordAt frame l4.csumOff).toNat + ((wordAt frame ipOff).toNat +
    ((wordAt frame (ipOff + 2)).toNat + (wordAt frame (l4.l4Off + portOff)).toNat))
  let new := (addrWords newIp).1.toNat + ((addrWords newIp).2.toNat + newId.toNat)
  old ≡ new [MOD 65535] ∧ old < 4 * 65535 + new

/-- A UDP checksum stays, and a disabled one stays disabled. -/
structure UdpChecksumKept (frame : Frame) (l4 : L4) (frame' : Frame) : Prop where
  nonzero : wordAt frame l4.csumOff ≠ 0 → wordAt frame' l4.csumOff ≠ 0
  zero_iff : wordAt frame' l4.csumOff = 0 ↔ wordAt frame l4.csumOff = 0

variable {ipOff portOff : ℕ} {frame frame' : Frame} {l4 : L4} {newIp : Ipv4Address}
  {newId : UInt16}

theorem Rewritten.udp_csum_eq_zero (h : Rewritten ipOff portOff frame l4 newIp newId frame')
    (hudp : l4.proto = .udp) :
    wordAt frame' l4.csumOff = 0 ↔
      (wordAt frame l4.csumOff ≠ 0 → Balances ipOff portOff frame l4 newIp newId) := by
  have hid : l4.idPos portOff = portOff := by simp [L4.idPos, hudp]
  rw [h.csum]
  by_cases h0 : wordAt frame l4.csumOff = 0
  · simp [newCsum, hudp, h0]
  · have hz := checksumIncr_eq_zero_iff (wordAt frame l4.csumOff)
      [((addrWords (ipAt frame ipOff)).1, (addrWords newIp).1),
        ((addrWords (ipAt frame ipOff)).2, (addrWords newIp).2),
        (wordAt frame (l4.l4Off + portOff), newId)]
    simp only [List.map_cons, List.map_nil, List.sum_cons, List.sum_nil, Nat.add_zero,
      List.length_cons, List.length_nil] at hz
    simp only [newCsum, hudp, h0, hid, and_false, if_false, ne_eq, not_false_eq_true, true_imp_iff]
    rw [hz, Balances, Nat.mul_comm]
    rfl

theorem Rewritten.udp_kept_iff (h : Rewritten ipOff portOff frame l4 newIp newId frame')
    (hudp : l4.proto = .udp) :
    UdpChecksumKept frame l4 frame' ↔
      (wordAt frame l4.csumOff ≠ 0 → ¬ Balances ipOff portOff frame l4 newIp newId) := by
  have hz := h.udp_csum_eq_zero hudp
  constructor
  · intro hk h0 hb
    exact hk.nonzero h0 (hz.2 fun _ => hb)
  · intro hnot
    refine ⟨fun h0 h0' => hnot h0 (hz.1 h0' h0), fun h0' => ?_, fun h0 => hz.2 fun hne => ?_⟩
    · by_contra h0
      exact hnot h0 (hz.1 h0' h0)
    · exact absurd h0 hne

/-- **When NAPT keeps a UDP checksum.**  For every parsed UDP frame and every new address and port,
both rewriters return; a nonzero check word stays nonzero, and the check word is zero exactly if it
was, if and only if the old words with the check word do not make up the new ones by themselves. -/
theorem udp_checksum_kept_iff {frame : Frame} {l4 : L4} (hparse : parseL4 frame = .ok (some l4))
    (hudp : l4.proto = .udp) (newIp : Ipv4Address) (newId : UInt16) :
    (∃ frame', naptRewriteSrc frame l4 newIp newId = .ok frame' ∧
      (UdpChecksumKept frame l4 frame' ↔
        (wordAt frame l4.csumOff ≠ 0 → ¬ Balances 26 0 frame l4 newIp newId))) ∧
    (∃ frame', naptRewriteDst frame l4 newIp newId = .ok frame' ∧
      (UdpChecksumKept frame l4 frame' ↔
        (wordAt frame l4.csumOff ≠ 0 → ¬ Balances 30 2 frame l4 newIp newId))) := by
  have hl4 := parseL4_eq_some_iff.1 hparse
  obtain ⟨fs, hs, hrs⟩ := naptRewrite_spec 26 0 hl4 (by omega) (by omega) newIp newId
  obtain ⟨fd, hd, hrd⟩ := naptRewrite_spec 30 2 hl4 (by omega) (by omega) newIp newId
  exact ⟨⟨fs, hs, hrs.udp_kept_iff hudp⟩, ⟨fd, hd, hrd.udp_kept_iff hudp⟩⟩

/-- The query of `udpFrame` keeps its checksum. -/
theorem udp_checksum_kept_query : ∃ frame',
    naptRewriteSrc udpFrame ⟨.udp, 34, 51000, 53, 40, 0⟩ ⟨192, 168, 37, 129⟩ 50000 = .ok frame' ∧
      UdpChecksumKept udpFrame ⟨.udp, 34, 51000, 53, 40, 0⟩ frame' := by
  obtain ⟨⟨frame', h, hk⟩, -⟩ := udp_checksum_kept_iff
    (rfl : parseL4 udpFrame = .ok (some ⟨.udp, 34, 51000, 53, 40, 0⟩)) rfl ⟨192, 168, 37, 129⟩ 50000
  refine ⟨frame', h, hk.2 fun _ hb => ?_⟩
  exact absurd hb.1 (by decide)

/-- A query from `192.168.4.10:51000` with a checksum that verifies. -/
def vanishingQuery : Frame :=
  [0, 1, 2, 3, 4, 5, 6, 7, 8, 9, 10, 11, 0x08, 0x00,
    0x45, 0x00, 0x00, 0x1f, 0x00, 0x00, 0x40, 0x00, 0x40, 0x11, 0x00, 0x00,
    192, 168, 4, 10, 8, 8, 8, 8,
    0xc7, 0x38, 0x00, 0x35, 0x00, 0x0b, 0x1d, 0x8f, 0x7a, 0x18, 0xcc]

/-- Rewritten to `192.168.37.129:50000` it has the check word zero: no checksum. -/
theorem udp_checksum_vanishes :
    ¬ ∀ (frame : Frame) (l4 : L4) (newIp : Ipv4Address) (newId : UInt16) (frame' : Frame),
      parseL4 frame = .ok (some l4) → l4.proto = .udp → wordAt frame l4.csumOff ≠ 0 →
      naptRewriteSrc frame l4 newIp newId = .ok frame' → wordAt frame' l4.csumOff ≠ 0 := by
  intro hclaim
  refine hclaim vanishingQuery ⟨.udp, 34, 51000, 53, 40, 0⟩ ⟨192, 168, 37, 129⟩ 50000 _ rfl rfl
    (by decide) rfl ?_
  decide

/-! ### ICMP echo -/

/-- The checksum of an ICMP message verifies. -/
def icmpValid (frame : Frame) : Prop := fold 0 (segment frame) = 0xffff

instance (frame : Frame) : Decidable (icmpValid frame) :=
  inferInstanceAs (Decidable (fold 0 (segment frame) = 0xffff))

/-- Every byte of the message but its checksum and identifier is zero: an echo reply with sequence
number zero and no data, or data of zeros. -/
def OtherBytesZero (frame : Frame) : Prop :=
  ∀ i < l4Len frame, ¬(2 ≤ i ∧ i < 6) → byteAt frame (l4Start frame + i) = 0

/-- The rewrite clears the identifier of a message that is otherwise zero. -/
def ClearsMessage (frame : Frame) (l4 : L4) (newId : UInt16) : Prop :=
  newId = 0 ∧ OtherBytesZero frame ∧
    ¬(wordAt frame l4.csumOff = 0xffff ∧ wordAt frame (l4.l4Off + 4) = 0xffff)

theorem wordAt_eq_zero {b : List UInt8} {i : ℕ} :
    wordAt b i = 0 ↔ byteAt b i = 0 ∧ byteAt b (i + 1) = 0 := by
  have hhi := (byteAt b i).toNat_lt
  have hlo := (byteAt b (i + 1)).toNat_lt
  rw [← UInt16.toNat_inj, ← UInt8.toNat_inj, ← UInt8.toNat_inj, wordAt, toNat_fromBeBytes,
    UInt16.toNat_zero, UInt8.toNat_zero]
  omega

/-- A sum of words is its second and third word and a rest that is zero only with all the others. -/
theorem wordSum_split {data : List UInt8} (h : 6 ≤ data.length) :
    ∃ rest, wordSum data = (wordAt data 2).toNat + (wordAt data 4).toNat + rest ∧
      (rest = 0 ↔ ∀ i, ¬(2 ≤ i ∧ i < 6) → byteAt data i = 0) := by
  let f : ℕ → ℕ := fun k => (wordAt data (2 * k)).toNat
  let g : ℕ → ℕ := fun k => if k = 1 ∨ k = 2 then 0 else f k
  have hpair := sum_range_add_of_eq_off_pair (f := f) (g := g) (a := 1) (b := 2)
    (n := (data.length + 1) / 2) (by omega) (by omega) (by omega)
    fun k _ h1 h2 => by simp [g, h1, h2]
  refine ⟨((List.range ((data.length + 1) / 2)).map g).sum, ?_, ?_⟩
  · rw [wordSum_eq]
    have hg : g 1 = 0 ∧ g 2 = 0 := ⟨rfl, rfl⟩
    have hf : f 1 = (wordAt data 2).toNat ∧ f 2 = (wordAt data 4).toNat := ⟨rfl, rfl⟩
    rw [hg.1, hg.2, hf.1, hf.2] at hpair
    show ((List.range ((data.length + 1) / 2)).map f).sum = _
    omega
  · rw [List.sum_eq_zero_iff]
    constructor
    · intro hz i hi
      by_cases hlen : i < data.length
      · have hk := hz (g (i / 2)) (List.mem_map.2 ⟨i / 2, List.mem_range.2 (by omega), rfl⟩)
        simp only [g, if_neg (show ¬(i / 2 = 1 ∨ i / 2 = 2) by omega), f] at hk
        obtain ⟨hhi, hlo⟩ := wordAt_eq_zero.1 (UInt16.toNat_inj.1 (hk.trans UInt16.toNat_zero.symm))
        rcases Nat.even_or_odd' i with ⟨k, rfl | rfl⟩
        · rwa [show 2 * k / 2 = k by omega] at hhi
        · rwa [show (2 * k + 1) / 2 = k by omega] at hlo
      · rw [byteAt, List.getD_eq_getElem?_getD, List.getElem?_eq_none (Nat.le_of_not_lt hlen),
          Option.getD_none]
    · intro hz x hx
      obtain ⟨k, -, rfl⟩ := List.mem_map.1 hx
      by_cases hk : k = 1 ∨ k = 2
      · exact if_pos hk
      · simp only [g, if_neg hk, f]
        rw [wordAt_eq_zero.2 ⟨hz _ (by omega), hz _ (by omega)⟩]
        rfl

/-- The other bytes of the message are those of the segment. -/
theorem otherBytesZero_iff (frame : Frame) :
    OtherBytesZero frame ↔ ∀ i, ¬(2 ≤ i ∧ i < 6) → byteAt (segment frame) i = 0 := by
  simp only [OtherBytesZero, byteAt_segment]
  constructor
  · intro hz i hi
    split_ifs with hlt
    · exact hz i hlt hi
    · rfl
  · intro hz i hlt hi
    have hi' := hz i hi
    rwa [if_pos hlt] at hi'

theorem icmpValid_iff (frame : Frame) :
    icmpValid frame ↔ 0 < wordSum (segment frame) ∧ wordSum (segment frame) ≡ 0 [MOD 65535] := by
  rw [icmpValid, ← UInt16.toNat_inj, toNat_fold_zero]
  exact norm_eq_self_iff (by omega)

/-- A message that verifies still sums to a multiple of `65535` when one of its words is replaced;
`rest` is the sum of the words but this one and the checksum. -/
theorem checksumIncr_word_modEq {check word : UInt16} {rest : ℕ}
    (h0 : check.toNat + word.toNat + rest ≡ 0 [MOD 65535]) (new : UInt16) :
    (checksumIncr check [(word, new)]).toNat + new.toNat + rest ≡ 0 [MOD 65535] := by
  have hmod := checksumIncr_modEq check [(word, new)]
  simp only [List.map_cons, List.map_nil, List.sum_cons, List.sum_nil, Nat.add_zero] at hmod
  exact (hmod.add_right rest).trans h0

/-- It becomes zero if the new word and the rest are, unless two words of all ones made up the
message. -/
theorem checksumIncr_word_eq_zero {rest : ℕ} {check word new : UInt16}
    (hpos : 0 < check.toNat + word.toNat + rest)
    (h0 : check.toNat + word.toNat + rest ≡ 0 [MOD 65535]) :
    (checksumIncr check [(word, new)]).toNat + new.toNat + rest = 0 ↔
      new = 0 ∧ rest = 0 ∧ ¬(check = 0xffff ∧ word = 0xffff) := by
  have hzero := checksumIncr_eq_zero_iff check [(word, new)]
  simp only [List.map_cons, List.map_nil, List.sum_cons, List.sum_nil, Nat.add_zero,
    List.length_cons, List.length_nil] at hzero
  have hc := toNat_le check
  have hi := toNat_le word
  have hones : (0xffff : UInt16).toNat = 65535 := rfl
  simp only [← UInt16.toNat_inj, UInt16.toNat_zero, hones] at hzero ⊢
  constructor
  · intro hsum
    have hlt := (hzero.1 (by omega)).2
    omega
  · rintro ⟨hnew, rfl, hnot⟩
    rw [hnew] at hzero
    have hcheck := hzero.2 ⟨h0, by omega⟩
    omega

/-- **A rewrite keeps an ICMP message valid** unless it clears it. -/
theorem Rewritten.icmp_kept_iff (h : Rewritten ipOff portOff frame l4 newIp newId frame')
    (hl4 : IsL4 frame l4) (hicmp : l4.proto = .icmpEcho)
    (hhdr : l4.l4Off + 8 ≤ 14 + ipTotal frame) (htot : 14 + ipTotal frame ≤ frame.length)
    (hip : ipOff = 26 ∨ ipOff = 30) (hport : portOff = 0 ∨ portOff = 2)
    (hvalid : icmpValid frame) :
    icmpValid frame' ↔ ¬ ClearsMessage frame l4 newId := by
  have hlen : l4.proto.hdrLen = 8 := by simp [hicmp, Proto.hdrLen]
  have hid : l4.idPos portOff = 4 := by simp [L4.idPos, hicmp]
  have hhdr' : l4.l4Off + l4.proto.hdrLen ≤ 14 + ipTotal frame := by rwa [hlen]
  obtain ⟨hn, hfit⟩ := segment_bounds hl4 hhdr' htot
  have hsum := wordSum_segment_rewritten h hl4 hhdr' htot hip hport
  have hnew := h.id
  have hcs := h.csum
  rw [hid] at hsum hnew
  simp only [newCsum, hicmp, hid] at hcs
  rw [hnew, hcs] at hsum
  -- the segment is its two rewritten words and the rest
  obtain ⟨rest, hW, hrest⟩ := wordSum_split (show 6 ≤ (segment frame).length by
    rw [length_segment hfit]
    omega)
  have hoff : l4Start frame = l4.l4Off := hl4.l4Off.symm
  have hcso : l4.csumOff = l4.l4Off + 2 := by rw [hl4.csumOff, hicmp]; rfl
  rw [wordAt_segment (by omega), wordAt_segment (by omega), hoff, ← hcso] at hW
  have hW' : wordSum (segment frame') = (checksumIncr (wordAt frame l4.csumOff)
      [(wordAt frame (l4.l4Off + 4), newId)]).toNat + newId.toNat + rest := by omega
  obtain ⟨hpos, h0⟩ := (icmpValid_iff frame).1 hvalid
  rw [hW] at hpos h0
  rw [icmpValid_iff, hW', and_iff_left (checksumIncr_word_modEq h0 newId),
    Nat.pos_iff_ne_zero, Ne, checksumIncr_word_eq_zero hpos h0, hrest, ← otherBytesZero_iff]
  rfl

/-- What a rewrite of an ICMP echo frame does. -/
structure IcmpRewritten (ipOff : ℕ) (frame : Frame) (l4 : L4) (newIp : Ipv4Address)
    (newId : UInt16) (frame' : Frame) : Prop where
  ip : ipAt frame' ipOff = newIp
  id : wordAt frame' (l4.l4Off + 4) = newId
  length : frame'.length = frame.length
  /-- No byte outside the address, the identifier and the ICMP checksum changes. -/
  other : ∀ j, ¬(ipOff ≤ j ∧ j < ipOff + 4) → ¬(l4.l4Off + 4 ≤ j ∧ j < l4.l4Off + 6) →
    ¬(l4.csumOff ≤ j ∧ j < l4.csumOff + 2) → byteAt frame' j = byteAt frame j
  valid_iff : icmpValid frame' ↔ ¬ ClearsMessage frame l4 newId

/-- **When NAPT keeps an ICMP echo message valid.**  For every parsed echo request or reply that
lies within the IP total length and verifies, every new address and every new identifier, both
rewriters return, change nothing but the address, the identifier and the checksum, and the message
verifies again if and only if the rewrite does not clear the identifier of a message that is zero
otherwise. -/
theorem icmp_checksum_kept_iff {frame : Frame} {l4 : L4} (hparse : parseL4 frame = .ok (some l4))
    (hicmp : l4.proto = .icmpEcho) (hhdr : l4.l4Off + 8 ≤ 14 + ipTotal frame)
    (htot : 14 + ipTotal frame ≤ frame.length) (hvalid : icmpValid frame) (newIp : Ipv4Address)
    (newId : UInt16) :
    (∃ frame', naptRewriteSrc frame l4 newIp newId = .ok frame' ∧
      IcmpRewritten 26 frame l4 newIp newId frame') ∧
    (∃ frame', naptRewriteDst frame l4 newIp newId = .ok frame' ∧
      IcmpRewritten 30 frame l4 newIp newId frame') := by
  have hl4 := parseL4_eq_some_iff.1 hparse
  have hid : ∀ portOff, l4.idPos portOff = 4 := fun _ => by simp [L4.idPos, hicmp]
  have key : ∀ {ipOff portOff : ℕ} {frame' : Frame}, (ipOff = 26 ∨ ipOff = 30) →
      (portOff = 0 ∨ portOff = 2) → Rewritten ipOff portOff frame l4 newIp newId frame' →
      IcmpRewritten ipOff frame l4 newIp newId frame' := by
    intro ipOff portOff frame' hip hport h
    have hnew := h.id
    have hother := h.other
    rw [hid] at hnew hother
    exact ⟨h.ip, hnew, h.length, hother,
      h.icmp_kept_iff hl4 hicmp hhdr htot hip hport hvalid⟩
  obtain ⟨fs, hs, hrs⟩ := naptRewrite_spec 26 0 hl4 (by omega) (by omega) newIp newId
  obtain ⟨fd, hd, hrd⟩ := naptRewrite_spec 30 2 hl4 (by omega) (by omega) newIp newId
  exact ⟨⟨fs, hs, key (.inl rfl) (.inl rfl) hrs⟩, ⟨fd, hd, key (.inr rfl) (.inr rfl) hrd⟩⟩

/-- An echo reply to identifier 50000, with sequence number 0 and no data. -/
def bareReply : Frame :=
  [0, 1, 2, 3, 4, 5, 6, 7, 8, 9, 10, 11, 0x08, 0x00,
    0x45, 0x00, 0x00, 0x1c, 0x00, 0x00, 0x40, 0x00, 0x40, 0x01, 0x00, 0x00,
    8, 8, 8, 8, 192, 168, 37, 129,
    0x00, 0x00, 0x3c, 0xaf, 0xc3, 0x50, 0x00, 0x00]

/-- A client that asked with identifier 7 gets a valid reply. -/
theorem icmp_checksum_kept_seven : ∃ frame',
    naptRewriteDst bareReply ⟨.icmpEcho, 34, 50000, 0, 36, 0⟩ ⟨192, 168, 4, 10⟩ 7 = .ok frame' ∧
      icmpValid frame' := by
  obtain ⟨-, frame', h, hk⟩ := icmp_checksum_kept_iff
    (rfl : parseL4 bareReply = .ok (some ⟨.icmpEcho, 34, 50000, 0, 36, 0⟩)) rfl (by decide)
    (by decide) (by decide) ⟨192, 168, 4, 10⟩ 7
  exact ⟨frame', h, hk.valid_iff.2 fun hz => absurd hz.1 (by decide)⟩

/-- One that asked with identifier 0 gets a message of zeros, whose fold is zero. -/
theorem icmp_checksum_cleared :
    ¬ ∀ (frame : Frame) (l4 : L4) (newIp : Ipv4Address) (newId : UInt16) (frame' : Frame),
      parseL4 frame = .ok (some l4) → l4.proto = .icmpEcho →
      l4.l4Off + 8 ≤ 14 + ipTotal frame → 14 + ipTotal frame ≤ frame.length → icmpValid frame →
      naptRewriteDst frame l4 newIp newId = .ok frame' → icmpValid frame' := by
  intro hclaim
  have hvalid := hclaim bareReply ⟨.icmpEcho, 34, 50000, 0, 36, 0⟩ ⟨192, 168, 4, 10⟩ 0 _ rfl rfl
    (by decide) (by decide) (by decide) rfl
  exact absurd hvalid (by decide)

end Pico10BaseT
