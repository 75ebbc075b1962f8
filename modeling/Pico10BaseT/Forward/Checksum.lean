import Pico10BaseT.Forward.Basic

/-!
# NAPT rewrites keep the L4 checksum

The reference is the fold of the host self-test: the one's-complement sum of the pseudo-header
and the segment, checksum field included.  A rewrite changes two address words, one port word and
the check word; `checksumIncr_modEq` says that these changes balance modulo `65535`
(`l4Sum_rewritten`), and a pseudo-header is never all zero, so the folds agree as words and not only
modulo `65535` (`l4Fold_rewritten`).
-/

namespace Pico10BaseT

open OnesComplement

/-! ### The reference fold -/

/-- Offset of the L4 header. -/
def l4Start (frame : Frame) : ℕ := 14 + (byteAt frame 14 &&& 0x0f).toNat * 4

/-- The IPv4 total length. -/
def ipTotal (frame : Frame) : ℕ := (wordAt frame 16).toNat

/-- Length of the L4 segment. -/
def l4Len (frame : Frame) : ℕ := ipTotal frame - (byteAt frame 14 &&& 0x0f).toNat * 4

/-- The L4 segment. -/
def segment (frame : Frame) : List UInt8 := (frame.drop (l4Start frame)).take (l4Len frame)

/-- The folded pseudo-header: addresses, protocol and segment length. -/
def pseudoAcc (frame : Frame) : UInt16 :=
  let acc := [26, 28, 30, 32].foldl (fun acc off => add1c acc (wordAt frame off)) 0
  let acc := add1c acc (byteAt frame 23).toUInt16
  add1c acc (UInt16.ofNat (l4Len frame))

/-- The fold of pseudo-header and segment. -/
def l4Fold (frame : Frame) : UInt16 := fold (pseudoAcc frame) (segment frame)

/-- The internet checksum of a TCP or UDP segment verifies. -/
def l4Valid (frame : Frame) : Prop := l4Fold frame = 0xffff

/-- The sum that `l4Fold` represents. -/
def l4Sum (frame : Frame) : ℕ :=
  (wordAt frame 26).toNat + (wordAt frame 28).toNat + (wordAt frame 30).toNat +
    (wordAt frame 32).toNat + (byteAt frame 23).toNat + (UInt16.ofNat (l4Len frame)).toNat +
    wordSum (segment frame)

theorem toNat_l4Fold (frame : Frame) : (l4Fold frame).toNat = norm 65535 (l4Sum frame) := by
  have h0 : (0 : UInt16).toNat = norm 65535 0 := rfl
  have h := toNat_fold (segment frame)
    (toNat_add1c_norm (UInt16.ofNat (l4Len frame))
      (toNat_add1c_norm (byteAt frame 23).toUInt16
        (toNat_add1c_norm (wordAt frame 32)
          (toNat_add1c_norm (wordAt frame 30)
            (toNat_add1c_norm (wordAt frame 28)
              (toNat_add1c_norm (wordAt frame 26) h0))))))
  rw [UInt8.toNat_toUInt16, Nat.zero_add] at h
  exact h

/-! ### Sums with one changed term -/

/-- Two sums whose terms agree off `a` differ by the term at `a`. -/
theorem sum_range_add_of_eq_off {f g : ℕ → ℕ} {a n : ℕ} (ha : a < n)
    (h : ∀ k < n, k ≠ a → f k = g k) :
    ((List.range n).map f).sum + g a = ((List.range n).map g).sum + f a := by
  induction n with
  | zero => omega
  | succ n ih =>
    simp only [List.range_succ, List.map_append, List.sum_append, List.map_cons, List.map_nil,
      List.sum_singleton]
    by_cases han : a = n
    · subst han
      have hmap : (List.range a).map f = (List.range a).map g :=
        List.map_congr_left fun k hk =>
          h k (by have := List.mem_range.1 hk; omega) (by have := List.mem_range.1 hk; omega)
      rw [hmap]
      omega
    · have := ih (by omega) fun k hk => h k (by omega)
      have := h n (by omega) (Ne.symm han)
      omega

/-- Two sums whose terms agree off `a` and `b`. -/
theorem sum_range_add_of_eq_off_pair {f g : ℕ → ℕ} {a b n : ℕ} (ha : a < n) (hb : b < n)
    (hab : a ≠ b) (h : ∀ k < n, k ≠ a → k ≠ b → f k = g k) :
    ((List.range n).map f).sum + (g a + g b) = ((List.range n).map g).sum + (f a + f b) := by
  -- change the term at `a` first
  let m : ℕ → ℕ := fun k => if k = a then g a else f k
  have h1 : ((List.range n).map f).sum + m a = ((List.range n).map m).sum + f a :=
    sum_range_add_of_eq_off ha fun k _ hk => by simp [m, hk]
  have h2 : ((List.range n).map m).sum + g b = ((List.range n).map g).sum + m b :=
    sum_range_add_of_eq_off hb fun k hk hkb => by
      by_cases hka : k = a
      · simp [m, hka]
      · simp [m, hka, h k hk hka hkb]
  have hma : m a = g a := by simp [m]
  have hmb : m b = f b := by simp [m, hab.symm]
  omega

/-! ### The segment of a rewritten frame -/

theorem byteAt_segment (frame : Frame) (i : ℕ) :
    byteAt (segment frame) i =
      if i < l4Len frame then byteAt frame (l4Start frame + i) else 0 := by
  simp only [byteAt, segment, List.getD_eq_getElem?_getD]
  split_ifs with hi
  · rw [List.getElem?_take_of_lt hi, List.getElem?_drop]
  · rw [List.getElem?_eq_none]
    · rfl
    · rw [List.length_take]
      omega

theorem length_segment {frame : Frame} (h : l4Start frame + l4Len frame ≤ frame.length) :
    (segment frame).length = l4Len frame := by
  rw [segment, List.length_take, List.length_drop]
  omega

/-- A word inside the segment is a word of the frame. -/
theorem wordAt_segment {frame : Frame} {i : ℕ} (hi : i + 2 ≤ l4Len frame) :
    wordAt (segment frame) i = wordAt frame (l4Start frame + i) := by
  rw [wordAt, wordAt, byteAt_segment, byteAt_segment, if_pos (by omega), if_pos (by omega)]
  rfl

section Rewrite

variable {ipOff portOff : ℕ} {frame frame' : Frame} {l4 : L4} {newIp : Ipv4Address}
  {newId : UInt16}

/-- A rewrite leaves the header fields the fold is computed from. -/
theorem Rewritten.header (h : Rewritten ipOff portOff frame l4 newIp newId frame')
    (hl4 : IsL4 frame l4) (hip : ipOff = 26 ∨ ipOff = 30) :
    (∀ j < 26, byteAt frame' j = byteAt frame j) ∧ l4Start frame' = l4Start frame ∧
      l4Len frame' = l4Len frame := by
  have hihl := hl4.ihl
  have hcs := hl4.csumOff
  have hb : ∀ j < 26, byteAt frame' j = byteAt frame j := fun j hj =>
    h.other j (by omega) (by omega) (by omega)
  refine ⟨hb, ?_, ?_⟩
  · rw [l4Start, l4Start, hb 14 (by omega)]
  · rw [l4Len, l4Len, ipTotal, ipTotal, wordAt, wordAt, hb 14 (by omega), hb 16 (by omega),
      hb 17 (by omega)]

/-- The other address is not touched. -/
theorem Rewritten.wordAt_other (h : Rewritten ipOff portOff frame l4 newIp newId frame')
    (hl4 : IsL4 frame l4) {i : ℕ} (hi : i + 2 ≤ 34) (hd : i + 2 ≤ ipOff ∨ ipOff + 4 ≤ i) :
    wordAt frame' i = wordAt frame i := by
  have hihl := hl4.ihl
  have hcso := hl4.csumOff
  rw [wordAt, wordAt, h.other i (by omega) (by omega) (by omega),
    h.other (i + 1) (by omega) (by omega) (by omega)]

/-- The check word is updated by the three changed words. -/
theorem Rewritten.csum_modEq (h : Rewritten ipOff portOff frame l4 newIp newId frame')
    (hproto : l4.proto = .tcp ∨ l4.proto = .udp ∧ wordAt frame l4.csumOff ≠ 0) :
    (wordAt frame' l4.csumOff).toNat +
        ((wordAt frame' ipOff).toNat + ((wordAt frame' (ipOff + 2)).toNat +
          (wordAt frame' (l4.l4Off + l4.idPos portOff)).toNat)) ≡
      (wordAt frame l4.csumOff).toNat +
        ((wordAt frame ipOff).toNat + ((wordAt frame (ipOff + 2)).toNat +
          (wordAt frame (l4.l4Off + l4.idPos portOff)).toNat)) [MOD 65535] := by
  have hmod := checksumIncr_modEq (wordAt frame l4.csumOff)
    [(wordAt frame ipOff, wordAt frame' ipOff),
      (wordAt frame (ipOff + 2), wordAt frame' (ipOff + 2)),
      (wordAt frame (l4.l4Off + l4.idPos portOff),
        wordAt frame' (l4.l4Off + l4.idPos portOff))]
  have hw : (addrWords newIp).1 = wordAt frame' ipOff ∧
      (addrWords newIp).2 = wordAt frame' (ipOff + 2) := by
    rw [← h.ip]
    exact ⟨rfl, rfl⟩
  have hcs : wordAt frame' l4.csumOff = checksumIncr (wordAt frame l4.csumOff)
      [(wordAt frame ipOff, wordAt frame' ipOff),
        (wordAt frame (ipOff + 2), wordAt frame' (ipOff + 2)),
        (wordAt frame (l4.l4Off + l4.idPos portOff),
          wordAt frame' (l4.l4Off + l4.idPos portOff))] := by
    rw [h.csum, h.id]
    rcases hproto with hp | ⟨hp, h0⟩
    · simp only [newCsum, hp, reduceCtorEq, false_and, if_false, hw]
      rfl
    · simp only [newCsum, hp, h0, and_false, if_false, hw]
      rfl
  rw [← hcs] at hmod
  simpa only [List.map_cons, List.map_nil, List.sum_cons, List.sum_nil, Nat.add_zero] using hmod

variable (h : Rewritten ipOff portOff frame l4 newIp newId frame') (hl4 : IsL4 frame l4)
  (hhdr : l4.l4Off + l4.proto.hdrLen ≤ 14 + ipTotal frame)
  (htot : 14 + ipTotal frame ≤ frame.length)

include h hl4 hhdr htot

omit h in
/-- The segment holds the L4 header and lies in the frame. -/
theorem segment_bounds :
    l4.proto.hdrLen ≤ l4Len frame ∧ l4Start frame + l4Len frame ≤ frame.length := by
  have hoff : l4.l4Off = l4Start frame := hl4.l4Off
  have hihl := hl4.ihl
  rw [hoff] at hhdr
  unfold l4Len l4Start at *
  constructor <;> omega

/-- The segment sums differ by the check word and the rewritten id. -/
theorem wordSum_segment_rewritten (hip : ipOff = 26 ∨ ipOff = 30)
    (hport : portOff = 0 ∨ portOff = 2) :
    wordSum (segment frame') +
        ((wordAt frame l4.csumOff).toNat + (wordAt frame (l4.l4Off + l4.idPos portOff)).toNat) =
      wordSum (segment frame) +
        ((wordAt frame' l4.csumOff).toNat +
          (wordAt frame' (l4.l4Off + l4.idPos portOff)).toNat) := by
  obtain ⟨-, hstart, hlen⟩ := h.header hl4 hip
  have hoff : l4.l4Off = l4Start frame := hl4.l4Off
  have hcso := hl4.csumOff
  have hihl := hl4.ihl
  obtain ⟨hn, hfit⟩ := segment_bounds hl4 hhdr htot
  have hfit' : l4Start frame' + l4Len frame' ≤ frame'.length := by
    rw [hstart, hlen, h.length]
    exact hfit
  -- the two changed words are at even positions `2 * a` and `2 * b` of the header
  obtain ⟨a, b, ha, hb, hab, ha2, hb2, hev⟩ : ∃ a b, 2 * a = l4.proto.csumPos ∧
      2 * b = l4.idPos portOff ∧ a ≠ b ∧ 2 * a + 2 ≤ l4.proto.hdrLen ∧
      2 * b + 2 ≤ l4.proto.hdrLen ∧ l4.proto.hdrLen % 2 = 0 := by
    refine ⟨l4.proto.csumPos / 2, l4.idPos portOff / 2, ?_⟩
    unfold L4.idPos
    cases l4.proto <;> rcases hport with rfl | rfl <;> decide
  rw [wordSum_eq, wordSum_eq, length_segment hfit, length_segment hfit', hlen]
  have hword : ∀ k, 2 * k + 2 ≤ l4Len frame →
      wordAt (segment frame) (2 * k) = wordAt frame (l4.l4Off + 2 * k) ∧
        wordAt (segment frame') (2 * k) = wordAt frame' (l4.l4Off + 2 * k) := by
    intro k hk
    rw [wordAt_segment hk, wordAt_segment (by omega), hstart, hoff]
    exact ⟨rfl, rfl⟩
  have hpair := sum_range_add_of_eq_off_pair (a := a) (b := b) (n := (l4Len frame + 1) / 2)
    (f := fun k => (wordAt (segment frame') (2 * k)).toNat)
    (g := fun k => (wordAt (segment frame) (2 * k)).toNat) (by omega) (by omega) hab
    (by
      intro k _ hka hkb
      -- any other word has no changed byte
      have hbyte : ∀ i, i / 2 = k → byteAt (segment frame') i = byteAt (segment frame) i := by
        intro i hi
        rw [byteAt_segment, byteAt_segment, hstart, hlen]
        split_ifs
        · exact h.other _ (by omega) (by omega) (by omega)
        · rfl
      simp only [wordAt]
      rw [hbyte (2 * k) (by omega), hbyte (2 * k + 1) (by omega)])
  obtain ⟨hwa, hwa'⟩ := hword a (by omega)
  obtain ⟨hwb, hwb'⟩ := hword b (by omega)
  rw [hwa, hwa', hwb, hwb', ha, hb, ← hcso] at hpair
  exact hpair

/-- **A rewrite balances**: the sums of the two frames agree modulo `65535`. -/
theorem l4Sum_rewritten (hip : ipOff = 26 ∨ ipOff = 30) (hport : portOff = 0 ∨ portOff = 2)
    (hproto : l4.proto = .tcp ∨ l4.proto = .udp ∧ wordAt frame l4.csumOff ≠ 0) :
    l4Sum frame' ≡ l4Sum frame [MOD 65535] := by
  obtain ⟨hb, -, hlen⟩ := h.header hl4 hip
  have hseg := wordSum_segment_rewritten h hl4 hhdr htot hip hport
  have hsum : l4Sum frame' + ((wordAt frame l4.csumOff).toNat +
      ((wordAt frame ipOff).toNat + ((wordAt frame (ipOff + 2)).toNat +
        (wordAt frame (l4.l4Off + l4.idPos portOff)).toNat))) =
      l4Sum frame + ((wordAt frame' l4.csumOff).toNat +
        ((wordAt frame' ipOff).toNat + ((wordAt frame' (ipOff + 2)).toNat +
          (wordAt frame' (l4.l4Off + l4.idPos portOff)).toNat))) := by
    unfold l4Sum
    rw [hb 23 (by omega), hlen]
    rcases hip with rfl | rfl
    · rw [h.wordAt_other hl4 (i := 30) (by omega) (by omega),
        h.wordAt_other hl4 (i := 32) (by omega) (by omega)]
      simp only [Nat.reduceAdd]
      omega
    · rw [h.wordAt_other hl4 (i := 26) (by omega) (by omega),
        h.wordAt_other hl4 (i := 28) (by omega) (by omega)]
      simp only [Nat.reduceAdd]
      omega
  refine Nat.ModEq.add_right_cancel' ((wordAt frame l4.csumOff).toNat +
    ((wordAt frame ipOff).toNat + ((wordAt frame (ipOff + 2)).toNat +
      (wordAt frame (l4.l4Off + l4.idPos portOff)).toNat))) ?_
  rw [hsum]
  exact (h.csum_modEq hproto).add_left _

/-- **A rewrite keeps the fold**, as a word. -/
theorem l4Fold_rewritten (hip : ipOff = 26 ∨ ipOff = 30) (hport : portOff = 0 ∨ portOff = 2)
    (hproto : l4.proto = .tcp ∨ l4.proto = .udp ∧ wordAt frame l4.csumOff ≠ 0) :
    l4Fold frame' = l4Fold frame := by
  have hpos : ∀ f : Frame, byteAt f 23 = byteAt frame 23 → 0 < l4Sum f := by
    intro f hf
    have hnum : 0 < (byteAt f 23).toNat := by
      rw [hf, hl4.number]
      cases l4.proto <;> decide
    unfold l4Sum
    omega
  apply UInt16.toNat_inj.1
  rw [toNat_l4Fold, toNat_l4Fold, norm_eq_norm_iff (hpos _ ((h.header hl4 hip).1 23 (by omega)))
    (hpos _ rfl)]
  exact l4Sum_rewritten h hl4 hhdr htot hip hport hproto

end Rewrite

/-- `frame'` is `frame` with another address at `ipOff` and another port at `portOff` of the L4
header, under the same L4 checksum. -/
structure ChecksumKept (ipOff portOff : ℕ) (frame : Frame) (l4 : L4) (newIp : Ipv4Address)
    (newId : UInt16) (frame' : Frame) : Prop where
  ip : ipAt frame' ipOff = newIp
  port : wordAt frame' (l4.l4Off + portOff) = newId
  /-- The fold of pseudo-header and segment is the same word. -/
  fold : (l4.proto = .udp → wordAt frame l4.csumOff ≠ 0) → l4Fold frame' = l4Fold frame
  valid : (l4.proto = .udp → wordAt frame l4.csumOff ≠ 0) → (l4Valid frame' ↔ l4Valid frame)
  /-- A disabled UDP checksum stays disabled. -/
  zero : l4.proto = .udp → wordAt frame l4.csumOff = 0 → wordAt frame' l4.csumOff = 0
  length : frame'.length = frame.length
  other : ∀ j, ¬(ipOff ≤ j ∧ j < ipOff + 4) →
    ¬(l4.l4Off + portOff ≤ j ∧ j < l4.l4Off + portOff + 2) →
    ¬(l4.csumOff ≤ j ∧ j < l4.csumOff + 2) → byteAt frame' j = byteAt frame j

theorem Rewritten.checksumKept {ipOff portOff : ℕ} {frame frame' : Frame} {l4 : L4}
    {newIp : Ipv4Address} {newId : UInt16}
    (h : Rewritten ipOff portOff frame l4 newIp newId frame') (hl4 : IsL4 frame l4)
    (hproto : l4.proto = .tcp ∨ l4.proto = .udp)
    (hhdr : l4.l4Off + l4.proto.hdrLen ≤ 14 + ipTotal frame)
    (htot : 14 + ipTotal frame ≤ frame.length) (hip : ipOff = 26 ∨ ipOff = 30)
    (hport : portOff = 0 ∨ portOff = 2) : ChecksumKept ipOff portOff frame l4 newIp newId frame' := by
  have hid : l4.idPos portOff = portOff := by
    rcases hproto with hp | hp <;> simp [L4.idPos, hp]
  have hfold : (l4.proto = .udp → wordAt frame l4.csumOff ≠ 0) →
      l4Fold frame' = l4Fold frame := by
    intro h0
    refine l4Fold_rewritten h hl4 hhdr htot hip hport ?_
    rcases hproto with hp | hp
    · exact .inl hp
    · exact .inr ⟨hp, h0 hp⟩
  have hw := h.id
  have ho := h.other
  rw [hid] at hw ho
  refine ⟨h.ip, hw, hfold, fun h0 => ?_, fun hp h0 => ?_, h.length, ho⟩
  · rw [l4Valid, l4Valid, hfold h0]
  · rw [h.csum]
    simp [newCsum, hp, h0]

/-- **TCP and UDP rewrites keep the L4 checksum exactly.**  For every parsed TCP or UDP frame whose
L4 header lies inside the IP total length and whose IP total length lies inside the frame, and for
every new address and port, both rewriters return a frame with the same fold of pseudo-header and
segment, so valid stays valid and invalid stays invalid; a UDP checksum of zero stays zero, and no
byte outside the address, the port and the checksum changes. -/
theorem naptRewrite_checksum {frame : Frame} {l4 : L4} (hparse : parseL4 frame = .ok (some l4))
    (hproto : l4.proto = .tcp ∨ l4.proto = .udp)
    (hhdr : l4.l4Off + l4.proto.hdrLen ≤ 14 + ipTotal frame)
    (htot : 14 + ipTotal frame ≤ frame.length) (newIp : Ipv4Address) (newId : UInt16) :
    (∃ frame', naptRewriteSrc frame l4 newIp newId = .ok frame' ∧
      ChecksumKept 26 0 frame l4 newIp newId frame') ∧
    (∃ frame', naptRewriteDst frame l4 newIp newId = .ok frame' ∧
      ChecksumKept 30 2 frame l4 newIp newId frame') := by
  have hl4 := parseL4_eq_some_iff.1 hparse
  obtain ⟨fs, hs, hrs⟩ := naptRewrite_spec 26 0 hl4 (by omega) (by omega)
    newIp newId
  obtain ⟨fd, hd, hrd⟩ := naptRewrite_spec 30 2 hl4 (by omega) (by omega)
    newIp newId
  exact ⟨⟨fs, hs, hrs.checksumKept hl4 hproto hhdr htot (.inl rfl) (.inl rfl)⟩,
    ⟨fd, hd, hrd.checksumKept hl4 hproto hhdr htot (.inr rfl) (.inr rfl)⟩⟩

/-- A DNS query from `192.168.4.10:51000` with a 3-byte payload and a checksum that verifies. -/
def udpFrame : Frame :=
  [0, 1, 2, 3, 4, 5, 6, 7, 8, 9, 10, 11, 0x08, 0x00,
    0x45, 0x00, 0x00, 0x1f, 0x00, 0x00, 0x40, 0x00, 0x40, 0x11, 0x00, 0x00,
    192, 168, 4, 10, 8, 8, 8, 8,
    0xc7, 0x38, 0x00, 0x35, 0x00, 0x0b, 0xec, 0xeb, 0xaa, 0xbb, 0xcc]

/-- The rewritten query verifies. -/
theorem naptRewrite_checksum_udp : ∃ frame',
    naptRewriteSrc udpFrame ⟨.udp, 34, 51000, 53, 40, 0⟩ ⟨192, 168, 37, 129⟩ 50000 = .ok frame' ∧
      l4Valid frame' := by
  obtain ⟨⟨frame', h, hk⟩, -⟩ :=
    naptRewrite_checksum
      (rfl : parseL4 udpFrame = .ok (some ⟨.udp, 34, 51000, 53, 40, 0⟩)) (.inr rfl)
      (by decide) (by decide) ⟨192, 168, 37, 129⟩ 50000
  exact ⟨frame', h, (hk.valid fun _ => by decide).2 (by decide +kernel : l4Fold udpFrame = 0xffff)⟩

end Pico10BaseT
