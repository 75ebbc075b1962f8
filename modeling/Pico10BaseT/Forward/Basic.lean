import Pico10BaseT.Conntrack.Checksum

/-!
# Parsing and rewriting forwarded frames

`parse_l4` and the two NAPT rewriters of `forward.rs`, on frames as byte lists.  Every indexing of
the source is an `index` here, so a result `.ok` also says that no byte was read or written
outside the frame.

* `IsL4` : what `parseL4` accepts, field by field (`parseL4_eq_some_iff`).
* `Rewritten` : what a NAPT rewrite does to a frame, byte by byte (`naptRewrite_spec`).
-/

namespace Pico10BaseT

/-- A captured L2 frame. -/
abbrev Frame := List UInt8

/-- `b[i..i + 2].copy_from_slice(&v.to_be_bytes())`. -/
def wr16 (b : List UInt8) (i : ℕ) (v : UInt16) : Exec (List UInt8) :=
  copyFromSlice b i (toBeBytes v)

/-- `Ipv4Address::new(b[i], b[i + 1], b[i + 2], b[i + 3])`. -/
def rdIp (b : List UInt8) (i : ℕ) : Exec Ipv4Address := do
  let o₀ ← index b i
  let o₁ ← index b (i + 1)
  let o₂ ← index b (i + 2)
  let o₃ ← index b (i + 3)
  return ⟨o₀, o₁, o₂, o₃⟩

/-- The address at offset `i`. -/
def ipAt (b : List UInt8) (i : ℕ) : Ipv4Address :=
  ⟨byteAt b i, byteAt b (i + 1), byteAt b (i + 2), byteAt b (i + 3)⟩

theorem ipAt_congr {a b : List UInt8} {i : ℕ}
    (h : ∀ j, i ≤ j → j < i + 4 → byteAt a j = byteAt b j) : ipAt a i = ipAt b i := by
  rw [ipAt, ipAt, h i (by omega) (by omega), h (i + 1) (by omega) (by omega),
    h (i + 2) (by omega) (by omega), h (i + 3) (by omega) (by omega)]

theorem rdIp_ok {b : List UInt8} {i : ℕ} (h : i + 3 < b.length) : rdIp b i = .ok (ipAt b i) := by
  simp only [rdIp, index_eq_byteAt (show i < b.length by omega),
    index_eq_byteAt (show i + 1 < b.length by omega),
    index_eq_byteAt (show i + 2 < b.length by omega), index_eq_byteAt h,
    Exec.ok_bind, Exec.pure_eq, ipAt]

theorem wr16_ok {b : List UInt8} {i : ℕ} (v : UInt16) (h : i + 1 < b.length) :
    wr16 b i v = .ok (splice b i (toBeBytes v)) :=
  copyFromSlice_ok (by simp; omega)

/-! ### L4 headers -/

def ethertypeIpv4 : UInt16 := 0x0800
def ethertypeArp : UInt16 := 0x0806
def ipprotoIcmp : UInt8 := 1
def ipprotoTcp : UInt8 := 6
def ipprotoUdp : UInt8 := 17

/-- L4 offsets (IHL-aware), ids, and TCP flags.  Ids are ports or the ICMP echo id. -/
structure L4 where
  proto : Proto
  l4Off : ℕ
  srcId : UInt16
  dstId : UInt16
  csumOff : ℕ
  tcpFlags : UInt8
  deriving DecidableEq, Repr

def parseL4 (frame : Frame) : Exec (Option L4) := do
  if frame.length < 14 + 20 then return none
  else
    let etype ← rd16 frame 12
    if etype ≠ ethertypeIpv4 then return none
    else
      let verIhl ← index frame 14
      let ihl := (verIhl &&& 0x0f).toNat * 4
      if ihl < 20 then return none
      else
        let l4 := 14 + ihl
        let proto ← index frame (14 + 9)
        if proto = ipprotoTcp ∧ l4 + 20 ≤ frame.length then
          let srcId ← rd16 frame l4
          let dstId ← rd16 frame (l4 + 2)
          let tcpFlags ← index frame (l4 + 13)
          return some
            { proto := .tcp, l4Off := l4, srcId, dstId, csumOff := l4 + 16, tcpFlags }
        else if proto = ipprotoUdp ∧ l4 + 8 ≤ frame.length then
          let srcId ← rd16 frame l4
          let dstId ← rd16 frame (l4 + 2)
          return some
            { proto := .udp, l4Off := l4, srcId, dstId, csumOff := l4 + 6, tcpFlags := 0 }
        else if proto = ipprotoIcmp ∧ l4 + 8 ≤ frame.length then
          -- echo reply (0) or request (8): the identifier is the "port"
          let type ← index frame l4
          if type = 0 ∨ type = 8 then
            let srcId ← rd16 frame (l4 + 4)
            return some
              { proto := .icmpEcho, l4Off := l4, srcId, dstId := 0, csumOff := l4 + 2,
                tcpFlags := 0 }
          else return none
        else return none

/-- Header length that `parseL4` asks for. -/
def Proto.hdrLen : Proto → ℕ
  | .tcp => 20
  | .udp => 8
  | .icmpEcho => 8

/-- Protocol number. -/
def Proto.number : Proto → UInt8
  | .tcp => ipprotoTcp
  | .udp => ipprotoUdp
  | .icmpEcho => ipprotoIcmp

/-- Offset of the checksum in the L4 header. -/
def Proto.csumPos : Proto → ℕ
  | .tcp => 16
  | .udp => 6
  | .icmpEcho => 2

/-- `l4` describes the L4 header that `parseL4` finds in `frame`. -/
structure IsL4 (frame : Frame) (l4 : L4) : Prop where
  etype : wordAt frame 12 = ethertypeIpv4
  l4Off : l4.l4Off = 14 + (byteAt frame 14 &&& 0x0f).toNat * 4
  ihl : 34 ≤ l4.l4Off
  number : byteAt frame 23 = l4.proto.number
  fits : l4.l4Off + l4.proto.hdrLen ≤ frame.length
  csumOff : l4.csumOff = l4.l4Off + l4.proto.csumPos
  srcId : l4.srcId = wordAt frame (l4.l4Off + if l4.proto = .icmpEcho then 4 else 0)
  dstId : l4.dstId = if l4.proto = .icmpEcho then 0 else wordAt frame (l4.l4Off + 2)
  tcpFlags : l4.tcpFlags = if l4.proto = .tcp then byteAt frame (l4.l4Off + 13) else 0
  echo : l4.proto = .icmpEcho → byteAt frame l4.l4Off = 0 ∨ byteAt frame l4.l4Off = 8

/-- A frame of 34 bytes has the fields that `parseL4` looks at first. -/
theorem headerReads {frame : Frame} (hlen : 34 ≤ frame.length) :
    rd16 frame 12 = .ok (wordAt frame 12) ∧ index frame 14 = .ok (byteAt frame 14) ∧
      index frame (14 + 9) = .ok (byteAt frame 23) :=
  ⟨rd16_ok (by omega), index_eq_byteAt (by omega), index_eq_byteAt (by omega)⟩

theorem isL4_of_parseL4 {frame : Frame} {l4 : L4} (h : parseL4 frame = .ok (some l4)) :
    IsL4 frame l4 := by
  by_cases hlen : frame.length < 34
  · simp [parseL4, hlen] at h
  obtain ⟨e12, e14, e23⟩ := headerReads (Nat.le_of_not_lt hlen)
  simp only [parseL4, hlen, if_false, e12, e14, e23, Exec.ok_bind] at h
  generalize hoff : 14 + (byteAt frame 14 &&& 0x0f).toNat * 4 = off at h
  split_ifs at h with het hihl htcp hudp hicmp
  · simp at h
  · simp at h
  · rw [rd16_ok (by omega), rd16_ok (by omega), index_eq_byteAt (by omega)] at h
    simp only [Exec.ok_bind, Exec.pure_eq, Except.ok.injEq, Option.some.injEq] at h
    subst h
    constructor <;> simp_all [Proto.number, Proto.hdrLen, Proto.csumPos]
    omega
  · rw [rd16_ok (by omega), rd16_ok (by omega)] at h
    simp only [Exec.ok_bind, Exec.pure_eq, Except.ok.injEq, Option.some.injEq] at h
    subst h
    constructor <;> simp_all [Proto.number, Proto.hdrLen, Proto.csumPos]
    omega
  · rw [index_eq_byteAt (by omega), rd16_ok (by omega)] at h
    simp only [Exec.ok_bind, Exec.pure_eq] at h
    split_ifs at h with hty
    · simp only [Except.ok.injEq, Option.some.injEq] at h
      subst h
      constructor <;> simp_all [Proto.number, Proto.hdrLen, Proto.csumPos]
      omega
    · simp at h
  · simp at h

theorem IsL4.parseL4 {frame : Frame} {l4 : L4} (h : IsL4 frame l4) :
    parseL4 frame = .ok (some l4) := by
  obtain ⟨het, hl4, hihl, hnum, hfit, hcs, hsrc, hdst, hfl, hecho⟩ := h
  have hlen : 34 ≤ frame.length := by omega
  obtain ⟨e12, e14, e23⟩ := headerReads hlen
  simp only [Pico10BaseT.parseL4, if_neg (Nat.not_lt.2 hlen), e12, e14, e23, Exec.ok_bind]
  obtain ⟨proto, off, src, dst, cs, fl⟩ := l4
  simp only at *
  rw [← hl4, if_neg (by simpa using het), if_neg (by omega)]
  cases proto with
  | tcp =>
    simp only [Proto.hdrLen, Proto.number, Proto.csumPos] at *
    rw [if_pos ⟨hnum, hfit⟩, rd16_ok (by omega), rd16_ok (by omega), index_eq_byteAt (by omega)]
    simp_all
  | udp =>
    simp only [Proto.hdrLen, Proto.number, Proto.csumPos] at *
    rw [if_neg (by simp [hnum, ipprotoUdp, ipprotoTcp]), if_pos ⟨hnum, hfit⟩, rd16_ok (by omega),
      rd16_ok (by omega)]
    simp_all
  | icmpEcho =>
    simp only [Proto.hdrLen, Proto.number, Proto.csumPos] at *
    rw [if_neg (by simp [hnum, ipprotoIcmp, ipprotoTcp]),
      if_neg (by simp [hnum, ipprotoIcmp, ipprotoUdp]), if_pos ⟨hnum, hfit⟩, rd16_ok (by omega),
      index_eq_byteAt (by omega)]
    simp_all

/-- `parseL4` returns for every frame. -/
theorem parseL4_ok (frame : Frame) : ∃ r, parseL4 frame = .ok r := by
  by_cases hlen : frame.length < 34
  · exact ⟨none, by simp [Pico10BaseT.parseL4, hlen]⟩
  obtain ⟨e12, e14, e23⟩ := headerReads (Nat.le_of_not_lt hlen)
  simp only [Pico10BaseT.parseL4, hlen, if_false, e12, e14, e23, Exec.ok_bind]
  split_ifs with het hihl htcp hudp hicmp
  · exact ⟨_, rfl⟩
  · exact ⟨_, rfl⟩
  · rw [rd16_ok (by omega), rd16_ok (by omega), index_eq_byteAt (by omega)]
    exact ⟨_, rfl⟩
  · rw [rd16_ok (by omega), rd16_ok (by omega)]
    exact ⟨_, rfl⟩
  · rw [index_eq_byteAt (by omega), rd16_ok (by omega)]
    simp only [Exec.ok_bind, Exec.pure_eq]
    split_ifs <;> exact ⟨_, rfl⟩
  · exact ⟨_, rfl⟩

/-- **What `parseL4` accepts.** -/
theorem parseL4_eq_some_iff {frame : Frame} {l4 : L4} :
    parseL4 frame = .ok (some l4) ↔ IsL4 frame l4 :=
  ⟨isL4_of_parseL4, IsL4.parseL4⟩

/-! ### NAPT rewriting -/

/-- Rewrite the address at `ipOff` and the port at `portOff` of the L4 header, or the echo id,
fixing the L4 checksum.  The source has this body twice, for the two directions. -/
def naptRewrite (ipOff portOff : ℕ) (frame : Frame) (l4 : L4) (newIp : Ipv4Address)
    (newId : UInt16) : Exec Frame := do
  let oldIp ← rdIp frame ipOff
  let frame ←
    match l4.proto with
    | .tcp | .udp => do
      let oldPort ← rd16 frame (l4.l4Off + portOff)
      let oldCsum ← rd16 frame l4.csumOff
      -- UDP checksum 0 means "none": leave it disabled
      let frame ←
        if l4.proto = .udp ∧ oldCsum = 0 then pure frame
        else
          let (oh, ol) := addrWords oldIp
          let (nh, nl) := addrWords newIp
          wr16 frame l4.csumOff (checksumIncr oldCsum [(oh, nh), (ol, nl), (oldPort, newId)])
      wr16 frame (l4.l4Off + portOff) newId
    | .icmpEcho => do
      let oldId ← rd16 frame (l4.l4Off + 4)
      let oldCsum ← rd16 frame l4.csumOff
      let frame ← wr16 frame l4.csumOff (checksumIncr oldCsum [(oldId, newId)])
      wr16 frame (l4.l4Off + 4) newId
  copyFromSlice frame ipOff newIp.octets

/-- Rewrite source IP and port/id. -/
def naptRewriteSrc : Frame → L4 → Ipv4Address → UInt16 → Exec Frame := naptRewrite 26 0

/-- Rewrite destination IP and port/id. -/
def naptRewriteDst : Frame → L4 → Ipv4Address → UInt16 → Exec Frame := naptRewrite 30 2

/-- Position of the rewritten id in the L4 header. -/
def L4.idPos (l4 : L4) (portOff : ℕ) : ℕ := if l4.proto = .icmpEcho then 4 else portOff

/-- The check word after a rewrite. -/
def newCsum (ipOff portOff : ℕ) (frame : Frame) (l4 : L4) (newIp : Ipv4Address)
    (newId : UInt16) : UInt16 :=
  let old := wordAt frame l4.csumOff
  let oldId := wordAt frame (l4.l4Off + l4.idPos portOff)
  match l4.proto with
  | .icmpEcho => checksumIncr old [(oldId, newId)]
  | .tcp | .udp =>
    if l4.proto = .udp ∧ old = 0 then 0
    else checksumIncr old
      [((addrWords (ipAt frame ipOff)).1, (addrWords newIp).1),
        ((addrWords (ipAt frame ipOff)).2, (addrWords newIp).2), (oldId, newId)]

/-- `frame'` is `frame` with the address at `ipOff`, the id and the check word replaced, and no
other byte changed. -/
structure Rewritten (ipOff portOff : ℕ) (frame : Frame) (l4 : L4) (newIp : Ipv4Address)
    (newId : UInt16) (frame' : Frame) : Prop where
  length : frame'.length = frame.length
  ip : ipAt frame' ipOff = newIp
  id : wordAt frame' (l4.l4Off + l4.idPos portOff) = newId
  csum : wordAt frame' l4.csumOff = newCsum ipOff portOff frame l4 newIp newId
  other : ∀ j, ¬(ipOff ≤ j ∧ j < ipOff + 4) →
    ¬(l4.l4Off + l4.idPos portOff ≤ j ∧ j < l4.l4Off + l4.idPos portOff + 2) →
    ¬(l4.csumOff ≤ j ∧ j < l4.csumOff + 2) → byteAt frame' j = byteAt frame j

theorem wordAt_splice_self {b : List UInt8} {i : ℕ} (v : UInt16) (h : i + 1 < b.length) :
    wordAt (splice b i (toBeBytes v)) i = v := by
  have hs : i + (toBeBytes v).length ≤ b.length := by simp; omega
  rw [wordAt, byteAt_splice hs, byteAt_splice hs, if_pos (by simp), if_pos (by simp)]
  simpa [toBeBytes, byteAt] using fromBeBytes_toBeBytes v

theorem wordAt_splice_of_disjoint {b src : List UInt8} {i j : ℕ} (h : i + src.length ≤ b.length)
    (hd : j + 2 ≤ i ∨ i + src.length ≤ j) : wordAt (splice b i src) j = wordAt b j := by
  rw [wordAt, wordAt, byteAt_splice h, byteAt_splice h, if_neg (by omega), if_neg (by omega)]

theorem ipAt_splice_octets {b : List UInt8} {i : ℕ} (ip : Ipv4Address) (h : i + 4 ≤ b.length) :
    ipAt (splice b i ip.octets) i = ip := by
  have hs : i + ip.octets.length ≤ b.length := h
  simp only [ipAt, byteAt_splice hs]
  simp [Ipv4Address.octets, byteAt]

/-- The id and the check word lie in the L4 header and do not overlap. -/
theorem L4.positions (l4 : L4) {portOff : ℕ} (hport : portOff ≤ 2) :
    l4.idPos portOff + 2 ≤ l4.proto.hdrLen ∧ l4.proto.csumPos + 2 ≤ l4.proto.hdrLen ∧
      (l4.idPos portOff + 2 ≤ l4.proto.csumPos ∨ l4.proto.csumPos + 2 ≤ l4.idPos portOff) := by
  unfold idPos
  cases l4.proto <;> simp [Proto.hdrLen, Proto.csumPos] <;> omega

section Rewrite

variable {ipOff portOff : ℕ} {frame : Frame} {l4 : L4} (hl4 : IsL4 frame l4) (hip : ipOff + 4 ≤ 34)
  (hport : portOff ≤ 2) (newIp : Ipv4Address) (newId : UInt16)

include hl4 hip hport

/-- What remains after the check word: write the id, then the address. -/
theorem naptRewrite_rest (frame₁ : Frame) (hlen : frame₁.length = frame.length) :
    (wr16 frame₁ (l4.l4Off + l4.idPos portOff) newId >>= fun f =>
        copyFromSlice f ipOff newIp.octets) =
      .ok (splice (splice frame₁ (l4.l4Off + l4.idPos portOff) (toBeBytes newId)) ipOff
        newIp.octets) := by
  have hfit := hl4.fits
  have hihl := hl4.ihl
  obtain ⟨hid, -⟩ := l4.positions hport
  rw [wr16_ok _ (by omega), Exec.ok_bind, copyFromSlice_ok]
  rw [length_splice (by simp only [length_toBeBytes]; omega)]
  simp only [Ipv4Address.octets, List.length_cons, List.length_nil]
  omega

/-- Writing the check word, the id and the address rewrites the frame. -/
theorem rewritten_splice (frame₁ : Frame) (hlen : frame₁.length = frame.length)
    (hcs : wordAt frame₁ l4.csumOff = newCsum ipOff portOff frame l4 newIp newId)
    (hother : ∀ j, ¬(l4.csumOff ≤ j ∧ j < l4.csumOff + 2) → byteAt frame₁ j = byteAt frame j) :
    Rewritten ipOff portOff frame l4 newIp newId
      (splice (splice frame₁ (l4.l4Off + l4.idPos portOff) (toBeBytes newId)) ipOff
        newIp.octets) := by
  have hfit := hl4.fits
  have hihl := hl4.ihl
  have hcso := hl4.csumOff
  obtain ⟨hid, hcsum, hdisjoint⟩ := l4.positions hport
  have h1 : l4.l4Off + l4.idPos portOff + (toBeBytes newId).length ≤ frame₁.length := by
    simp only [length_toBeBytes]
    omega
  have hl1 := length_splice h1
  have h2 : ipOff + newIp.octets.length ≤
      (splice frame₁ (l4.l4Off + l4.idPos portOff) (toBeBytes newId)).length := by
    simp only [Ipv4Address.octets, List.length_cons, List.length_nil]
    omega
  have h2l : newIp.octets.length = 4 := rfl
  refine ⟨?_, ?_, ?_, ?_, ?_⟩
  · rw [length_splice h2, hl1, hlen]
  · exact ipAt_splice_octets _ h2
  · rw [wordAt_splice_of_disjoint h2 (by omega), wordAt_splice_self _ (by omega)]
  · rw [wordAt_splice_of_disjoint h2 (by omega), wordAt_splice_of_disjoint h1 ?_, hcs]
    simp only [length_toBeBytes]
    omega
  · intro j hj1 hj2 hj3
    rw [byteAt_splice h2, if_neg (by omega), byteAt_splice h1, if_neg (by simpa using hj2),
      hother j hj3]

/-- The frame with the check word written. -/
theorem rewritten_csum {c : UInt16} (hc : c = newCsum ipOff portOff frame l4 newIp newId) :
    Rewritten ipOff portOff frame l4 newIp newId
      (splice (splice (splice frame l4.csumOff (toBeBytes c)) (l4.l4Off + l4.idPos portOff)
        (toBeBytes newId)) ipOff newIp.octets) := by
  have hfit := hl4.fits
  have hcso := hl4.csumOff
  obtain ⟨-, hcsum, -⟩ := l4.positions hport
  have hspl : l4.csumOff + (toBeBytes c).length ≤ frame.length := by
    simp only [length_toBeBytes]
    omega
  refine rewritten_splice hl4 hip hport _ _ _ (length_splice hspl) ?_ fun j hj => ?_
  · rw [wordAt_splice_self _ (by omega), hc]
  · rw [byteAt_splice hspl, if_neg (by simpa using hj)]

variable (ipOff portOff) in
/-- **A NAPT rewrite** of a parsed frame returns, and replaces the address, the id and the check
word only. -/
theorem naptRewrite_spec :
    ∃ frame', naptRewrite ipOff portOff frame l4 newIp newId = .ok frame' ∧
      Rewritten ipOff portOff frame l4 newIp newId frame' := by
  have hfit := hl4.fits
  have hihl := hl4.ihl
  have hcso := hl4.csumOff
  obtain ⟨hpos, hcsum, -⟩ := l4.positions hport
  have hrdip : rdIp frame ipOff = .ok (ipAt frame ipOff) := rdIp_ok (by omega)
  have hrdcs : rd16 frame l4.csumOff = .ok (wordAt frame l4.csumOff) := rd16_ok (by omega)
  have hrdid : rd16 frame (l4.l4Off + l4.idPos portOff) =
      .ok (wordAt frame (l4.l4Off + l4.idPos portOff)) := rd16_ok (by omega)
  have hwr : ∀ c : UInt16, wr16 frame l4.csumOff c = .ok (splice frame l4.csumOff (toBeBytes c)) :=
    fun c => wr16_ok c (by omega)
  have hlen : ∀ c : UInt16, (splice frame l4.csumOff (toBeBytes c)).length = frame.length :=
    fun c => length_splice (by simp only [length_toBeBytes]; omega)
  have hrest := naptRewrite_rest hl4 hip hport newIp newId
  have hwritten := @rewritten_csum ipOff portOff frame l4 hl4 hip hport newIp newId
  unfold naptRewrite
  rw [hrdip, Exec.ok_bind]
  cases hp : l4.proto with
  | icmpEcho =>
    have hid : l4.idPos portOff = 4 := by simp [L4.idPos, hp]
    rw [hid] at hrdid hrest hwritten
    simp only [hrdid, hrdcs, hwr, Exec.ok_bind]
    rw [hrest _ (hlen _)]
    exact ⟨_, rfl, hwritten (by simp [newCsum, hp, hid])⟩
  | tcp =>
    have hid : l4.idPos portOff = portOff := by simp [L4.idPos, hp]
    rw [hid] at hrdid hrest hwritten
    simp only [hrdid, hrdcs, hwr, Exec.ok_bind, reduceCtorEq, false_and, if_false]
    rw [hrest _ (hlen _)]
    exact ⟨_, rfl, hwritten (by simp [newCsum, hp, hid])⟩
  | udp =>
    have hid : l4.idPos portOff = portOff := by simp [L4.idPos, hp]
    by_cases h0 : wordAt frame l4.csumOff = 0
    · have hnone := rewritten_splice hl4 hip hport newIp newId frame rfl
        (by simp [newCsum, hp, h0]) fun _ _ => rfl
      rw [hid] at hrdid hrest hnone
      simp only [hrdid, hrdcs, Exec.ok_bind, h0, and_self, if_true, Exec.pure_eq]
      rw [hrest _ rfl]
      exact ⟨_, rfl, hnone⟩
    · rw [hid] at hrdid hrest hwritten
      simp only [hrdid, hrdcs, hwr, Exec.ok_bind, h0, and_false, if_false]
      rw [hrest _ (hlen _)]
      exact ⟨_, rfl, hwritten (by simp [newCsum, hp, hid, h0])⟩

end Rewrite

end Pico10BaseT
