import Pico10BaseT.Conntrack.Checksum
import Pico10BaseT.Tx.RawFrame

/-!
# Broadcasting a UDP packet

`build_eth_ipv4_udp_frame`, which writes a whole frame with preamble and FCS into a buffer, and
`send_udp_broadcast`, which puts the buffer on the line.

* `buildEthIpv4UdpFrame_eq` : the bytes the builder writes.
* `buildEthIpv4UdpFrame_correct` : its headers are read back, its header folds to `0xffff`, and a
  receiver accepts it.
* `sendUdpBroadcast_eq_sendRawFrame_iff` : the builder does not pad, `send_raw_frame` does: the two
  put the same frame on the wire when the payload has 18 bytes or more.
-/

namespace Pico10BaseT

open OnesComplement

/-- IPv4/UDP socket parameters that don't change frame-to-frame. -/
structure UdpEndpoint where
  srcMac : Vector UInt8 6
  dstMac : Vector UInt8 6
  srcIp : Vector UInt8 4
  dstIp : Vector UInt8 4
  srcPort : UInt16
  dstPort : UInt16
  deriving DecidableEq, Repr

/-- Maximum on-wire frame the UDP builder can produce. -/
def maxTxFrame : ℕ := 1526

/-- `while (sum >> 16) != 0 { sum = (sum & 0xffff) + (sum >> 16) }`. -/
def foldCarries : ℕ → UInt32 → Exec UInt32
  | 0, _ => .error .noFuel
  | fuel + 1, sum =>
    if sum >>> (16 : UInt32) ≠ 0 then
      foldCarries fuel ((sum &&& (0xffff : UInt32)) + (sum >>> (16 : UInt32)))
    else .ok sum

/-- IPv4 one's-complement checksum over big-endian 16-bit words. -/
def ipv4Checksum (words : List UInt16) : Exec UInt16 := do
  let sum := words.foldl (fun sum w => sum + w.toUInt32) 0
  -- two turns leave no carry
  let sum ← foldCarries 3 sum
  return ~~~sum.toUInt16

/-- Build the raw on-wire frame bytes into `out`, and their number. -/
def buildEthIpv4UdpFrame (ep : UdpEndpoint) (payload out : List UInt8) (ipId : UInt16) :
    Exec (List UInt8 × ℕ) := do
  -- preamble + SFD
  let out ← (List.range 7).foldlM (fun out i => setIndex out i 0x55) out
  let i := 7
  let out ← setIndex out i 0xD5
  let i := i + 1
  let frameStart := i
  -- Ethernet header
  let out ← copyFromSlice out i ep.dstMac.toList
  let i := i + 6
  let out ← copyFromSlice out i ep.srcMac.toList
  let i := i + 6
  let out ← copyFromSlice out i [0x08, 0x00]
  let i := i + 2
  -- IPv4 header
  let udpLen := UInt16.ofNat (payload.length + 8)
  let ipTotalLen := 20 + udpLen
  let ipHeaderStart := i
  let out ← setIndex out i 0x45
  let out ← setIndex out (i + 1) 0x00
  let out ← copyFromSlice out (i + 2) (toBeBytes ipTotalLen)
  let out ← copyFromSlice out (i + 4) (toBeBytes ipId)
  let out ← setIndex out (i + 6) 0x40
  let out ← setIndex out (i + 7) 0x00
  let out ← setIndex out (i + 8) 0x40
  let out ← setIndex out (i + 9) 0x11
  let out ← setIndex out (i + 10) 0
  let out ← setIndex out (i + 11) 0
  let out ← copyFromSlice out (i + 12) ep.srcIp.toList
  let out ← copyFromSlice out (i + 16) ep.dstIp.toList
  let words ← (List.range 10).mapM fun k => rd16 out (ipHeaderStart + 2 * k)
  let cksum ← ipv4Checksum words
  let out ← copyFromSlice out (i + 10) (toBeBytes cksum)
  let i := i + 20
  -- UDP header, its checksum zero
  let out ← copyFromSlice out i (toBeBytes ep.srcPort)
  let i := i + 2
  let out ← copyFromSlice out i (toBeBytes ep.dstPort)
  let i := i + 2
  let out ← copyFromSlice out i (toBeBytes udpLen)
  let i := i + 2
  let out ← setIndex out i 0
  let out ← setIndex out (i + 1) 0
  let i := i + 2
  -- payload
  let out ← copyFromSlice out i payload
  let i := i + payload.length
  -- FCS over dst MAC .. end of payload
  let data ← slice out frameStart i
  let out ← copyFromSlice out i (toLeBytes (crc32 data))
  let i := i + 4
  return (out, i)

/-- What the UDP path reads and changes of `EthTx`. -/
structure EthTx where
  ipIdentifier : UInt16
  /-- Scratch buffer for the UDP frame builder. -/
  rawFrame : Bytes maxTxFrame

/-- The words that `send_udp_broadcast` writes for a payload. -/
def sendUdpBroadcast (tx : EthTx) (ep : UdpEndpoint) (payload : List UInt8) :
    Exec (List UInt32 × EthTx) := do
  let (rawFrame, totalBytes) ←
    tx.rawFrame.modify fun out => buildEthIpv4UdpFrame ep payload out tx.ipIdentifier
  let bytes ← slice rawFrame.data 0 totalBytes
  -- TP_IDL, then 12 idle words
  return (bytes.map manchesterWord ++ [0x00000AAA] ++ List.replicate 12 0,
    { ipIdentifier := tx.ipIdentifier + 1, rawFrame })

/-! ### The header checksum -/

theorem toNat_carryTurn (sum : UInt32) :
    ((sum &&& (0xffff : UInt32)) + (sum >>> (16 : UInt32))).toNat =
      sum.toNat % 65536 + sum.toNat / 65536 := by
  have hsum := sum.toNat_lt
  have hmask : sum.toNat &&& 65535 = sum.toNat % 65536 := Nat.and_two_pow_sub_one_eq_mod _ 16
  simp only [UInt32.toNat_add, UInt32.toNat_and, UInt32.toNat_shiftRight, UInt32.reduceToNat]
  rw [hmask, Nat.shiftRight_eq_div_pow, show 2 ^ (16 % 32) = 65536 by norm_num]
  omega

theorem shiftRight_16_ne_zero (sum : UInt32) : sum >>> (16 : UInt32) ≠ 0 ↔ 65536 ≤ sum.toNat := by
  rw [Ne, ← UInt32.toNat_inj, UInt32.toNat_shiftRight, UInt32.toNat_zero,
    show (16 : UInt32).toNat % 32 = 16 from rfl, Nat.shiftRight_eq_div_pow]
  omega

/-- The folded sum is the representative of the sum. -/
theorem foldCarries_spec (fuel : ℕ) (sum : UInt32)
    (h : sum.toNat < 65536 ∨ (sum.toNat ≤ 131070 ∧ 1 ≤ fuel) ∨ 2 ≤ fuel) :
    ∃ s, foldCarries (fuel + 1) sum = .ok s ∧ s.toNat = norm 65535 sum.toNat := by
  induction fuel generalizing sum with
  | zero =>
    have hlt : sum.toNat < 65536 := by omega
    refine ⟨sum, ?_, (norm_of_le (by omega)).symm⟩
    rw [foldCarries, if_neg (by rw [shiftRight_16_ne_zero]; omega)]
  | succ fuel ih =>
    have hsum := sum.toNat_lt
    have hturn := toNat_carryTurn sum
    rw [foldCarries]
    split_ifs with hc
    · rw [shiftRight_16_ne_zero] at hc
      obtain ⟨s, hs, hn⟩ := ih ((sum &&& (0xffff : UInt32)) + (sum >>> (16 : UInt32))) (by omega)
      refine ⟨s, hs, hn.trans ?_⟩
      rw [hturn, norm_eq_norm_iff (by omega) (by omega)]
      exact (Nat.modEq_iff_dvd' (by omega)).2 ⟨sum.toNat / 65536, by omega⟩
    · rw [shiftRight_16_ne_zero] at hc
      exact ⟨sum, rfl, (norm_of_le (by omega)).symm⟩

theorem toNat_foldl_words (words : List UInt16) (sum : UInt32)
    (h : sum.toNat + 65535 * words.length < 2 ^ 32) :
    (words.foldl (fun sum w => sum + w.toUInt32) sum).toNat =
      sum.toNat + (words.map UInt16.toNat).sum := by
  induction words generalizing sum with
  | nil => rfl
  | cons w words ih =>
    have hw := toNat_le w
    have hadd : (sum + w.toUInt32).toNat = sum.toNat + w.toNat := by
      rw [UInt32.toNat_add, UInt16.toNat_toUInt32]
      rw [List.length_cons] at h
      omega
    rw [List.length_cons] at h
    rw [List.foldl_cons, ih _ (by omega), hadd, List.map_cons, List.sum_cons, Nat.add_assoc]

/-- **The checksum** of the words of a string is the complement of its fold. -/
theorem ipv4Checksum_eq {data : List UInt8} {n : ℕ} (h : data.length = 2 * n) (hn : n ≤ 65536) :
    ipv4Checksum ((List.range n).map fun k => wordAt data (2 * k)) = .ok (~~~fold 0 data) := by
  have hsum : (((List.range n).map fun k => wordAt data (2 * k)).foldl
      (fun (sum : UInt32) w => sum + w.toUInt32) 0).toNat = wordSum data := by
    rw [toNat_foldl_words _ _ (by simp; omega), List.map_map, wordSum_eq, h,
      show (2 * n + 1) / 2 = n by omega]
    simp [Function.comp_def]
  obtain ⟨s, hs, hs'⟩ := foldCarries_spec 2
    (((List.range n).map fun k => wordAt data (2 * k)).foldl
      (fun sum w => sum + w.toUInt32) 0) (by omega)
  have hfold : s.toUInt16 = fold 0 data := by
    have hle := norm_le (m := 65535) (by omega) (wordSum data)
    apply UInt16.toNat_inj.1
    rw [UInt32.toNat_toUInt16, hs', toNat_fold_zero, hsum]
    omega
  rw [ipv4Checksum, hs, Exec.ok_bind, hfold, Exec.pure_eq]

/-! ### The bytes of a frame -/

namespace UdpEndpoint

variable (ep : UdpEndpoint)

def etherHeader : List UInt8 := ep.dstMac.toList ++ ep.srcMac.toList ++ [0x08, 0x00]

/-- The IPv4 header over `n` bytes of payload, with a given check word. -/
def ipv4Header (n : ℕ) (ipId cksum : UInt16) : List UInt8 :=
  [0x45, 0x00] ++ toBeBytes (20 + UInt16.ofNat (n + 8)) ++ toBeBytes ipId ++
    [0x40, 0x00, 0x40, 0x11] ++ toBeBytes cksum ++ ep.srcIp.toList ++ ep.dstIp.toList

def udpHeader (n : ℕ) : List UInt8 :=
  toBeBytes ep.srcPort ++ toBeBytes ep.dstPort ++ toBeBytes (UInt16.ofNat (n + 8)) ++ [0, 0]

/-- Destination MAC through payload. -/
def body (payload : List UInt8) (ipId : UInt16) : List UInt8 :=
  ep.etherHeader ++
    ep.ipv4Header payload.length ipId (~~~fold 0 (ep.ipv4Header payload.length ipId 0)) ++
    ep.udpHeader payload.length ++ payload

@[simp] theorem length_etherHeader : ep.etherHeader.length = 14 := by simp [etherHeader]

@[simp] theorem length_ipv4Header (n : ℕ) (ipId cksum : UInt16) :
    (ep.ipv4Header n ipId cksum).length = 20 := by simp [ipv4Header]

@[simp] theorem length_udpHeader (n : ℕ) : (ep.udpHeader n).length = 8 := by simp [udpHeader]

@[simp] theorem length_body (payload : List UInt8) (ipId : UInt16) :
    (ep.body payload ipId).length = 42 + payload.length := by
  simp [body]
  omega

end UdpEndpoint

namespace UdpEndpoint

variable (ep : UdpEndpoint) (n : ℕ) (ipId cksum : UInt16)

/-- What stands in front of the UDP header. -/
def head : List UInt8 := preambleBytes ++ ep.etherHeader ++ ep.ipv4Header n ipId cksum

theorem head_eq : ep.head n ipId 0 = List.replicate 7 0x55 ++ [0xD5] ++ ep.dstMac.toList ++
    ep.srcMac.toList ++ [0x08, 0x00] ++ [0x45] ++ [0x00] ++ toBeBytes (20 + UInt16.ofNat (n + 8)) ++
    toBeBytes ipId ++ [0x40] ++ [0x00] ++ [0x40] ++ [0x11] ++ [0] ++ [0] ++ ep.srcIp.toList ++
    ep.dstIp.toList := by
  simp [head, preambleBytes, etherHeader, ipv4Header, toBeBytes]

@[simp] theorem length_head : (ep.head n ipId cksum).length = 42 := by
  simp [head, preambleBytes]

/-- The check word is written into the header. -/
theorem splice_head (c : UInt16) :
    splice (ep.head n ipId c) 32 (toBeBytes cksum) = ep.head n ipId cksum := by
  have hsplit : ∀ c, ep.head n ipId c =
      (preambleBytes ++ ep.etherHeader ++ [0x45, 0x00] ++ toBeBytes (20 + UInt16.ofNat (n + 8)) ++
        toBeBytes ipId ++ [0x40, 0x00, 0x40, 0x11]) ++ toBeBytes c ++
        (ep.srcIp.toList ++ ep.dstIp.toList) := by
    intro c
    simp only [head, ipv4Header, List.append_assoc]
  rw [hsplit, hsplit, splice_middle (by simp [preambleBytes]) (by simp)]

theorem head_append_udp (payload : List UInt8) :
    ep.head payload.length ipId (~~~fold 0 (ep.ipv4Header payload.length ipId 0)) ++
      (toBeBytes ep.srcPort ++ toBeBytes ep.dstPort ++
        toBeBytes (UInt16.ofNat (payload.length + 8)) ++ [0] ++ [0] ++ payload) =
      preambleBytes ++ ep.body payload ipId := by
  simp [head, body, udpHeader]

end UdpEndpoint

/-- **The bytes the builder writes**: preamble, body and FCS. -/
theorem buildEthIpv4UdpFrame_eq (ep : UdpEndpoint) {payload out : List UInt8} (ipId : UInt16)
    (h : 54 + payload.length ≤ out.length) :
    buildEthIpv4UdpFrame ep payload out ipId =
      .ok (splice out 0 (preambleBytes ++ ep.body payload ipId ++
        toLeBytes (crc32 (ep.body payload ipId))), 54 + payload.length) := by
  have hhead : ∀ cksum, (ep.head payload.length ipId cksum).length ≤ out.length := by
    intro cksum
    rw [ep.length_head]
    omega
  have hlen : ∀ cksum, (splice out 0 (ep.head payload.length ipId cksum)).length = out.length :=
    fun cksum => length_splice (by rw [Nat.zero_add]; exact hhead cksum)
  have hwords : (List.range 10).mapM (fun k =>
      rd16 (splice out 0 (ep.head payload.length ipId 0)) (7 + 1 + 6 + 6 + 2 + 2 * k)) =
        .ok ((List.range 10).map fun k => wordAt (ep.ipv4Header payload.length ipId 0) (2 * k)) :=
    Exec.mapM_ok fun k hk => by
      have hk10 := List.mem_range.1 hk
      exact rd16_splice_append (hhead 0) (by simp; omega) (by simp [preambleBytes])
  have hcksum : ∀ cksum, splice (splice out 0 (ep.head payload.length ipId 0))
      (7 + 1 + 6 + 6 + 2 + 10) (toBeBytes cksum) =
        splice out 0 (ep.head payload.length ipId cksum) := by
    intro cksum
    rw [← ep.splice_head payload.length ipId cksum 0]
    exact splice_inside (j := 32) (Nat.zero_le _) (by simp)
  have hudp : ∀ cksum tail, splice (splice out 0 (ep.head payload.length ipId cksum))
      (7 + 1 + 6 + 6 + 2 + 20) tail = splice out 0 (ep.head payload.length ipId cksum ++ tail) := by
    intro cksum tail
    rw [← splice_splice (by rw [Nat.zero_add]; exact hhead cksum), ep.length_head]
  have hbody : (preambleBytes ++ ep.body payload ipId).length = 50 + payload.length := by
    simp [preambleBytes]
    omega
  rw [buildEthIpv4UdpFrame, foldlM_setIndex]
  simp only [setIndex_eq]
  -- up to the check word, which is read off what was written
  iterate 16 rw [copyFromSlice_bind (by simp)]
  rw [← ep.head_eq, copyFromSlice_ok (by have := hhead 0; omega), Exec.ok_bind, hwords,
    Exec.ok_bind, ipv4Checksum_eq (by simp) (by omega), Exec.ok_bind,
    copyFromSlice_ok (by rw [hlen]; simp; omega), Exec.ok_bind, hcksum]
  -- the UDP header and the payload
  iterate 5 rw [copyFromSlice_bind (by simp)]
  rw [copyFromSlice_ok (by rw [hlen]; simp; omega), Exec.ok_bind, hudp, ep.head_append_udp]
  -- the FCS
  rw [slice_splice_append (by omega) (by rfl) (by simp; omega), Exec.ok_bind,
    copyFromSlice_ok (by rw [length_splice (by omega)]; simp [toLeBytes]; omega), Exec.ok_bind,
    show 7 + 1 + 6 + 6 + 2 + 20 + 2 + 2 + 2 + 2 + payload.length =
      0 + (preambleBytes ++ ep.body payload ipId).length by omega, splice_splice (by omega),
    Exec.pure_eq, hbody]
  congr 2
  omega

/-! ### Reading a frame back -/

/-- A received UDP packet. -/
structure UdpPacket where
  endpoint : UdpEndpoint
  ipId : UInt16
  payload : List UInt8
  deriving DecidableEq, Repr

/-- The `n` bytes at offset `i`. -/
def bytesAt (n : ℕ) (frame : List UInt8) (i : ℕ) : Option (Vector UInt8 n) :=
  if h : ((frame.drop i).take n).length = n then
    some ⟨((frame.drop i).take n).toArray, by simpa using h⟩
  else none

/-- A UDP packet in an Ethernet frame without its FCS: an IPv4 header without options that folds to
`0xffff`, a total length within the frame, and a UDP length that fills it. -/
def UdpPacket.parse (frame : List UInt8) : Option UdpPacket := do
  let dstMac ← bytesAt 6 frame 0
  let srcMac ← bytesAt 6 frame 6
  let srcIp ← bytesAt 4 frame 26
  let dstIp ← bytesAt 4 frame 30
  let totalLen := (wordAt frame 16).toNat
  let udpLen := (wordAt frame 38).toNat
  if wordAt frame 12 = 0x0800 ∧ byteAt frame 14 = 0x45 ∧ byteAt frame 23 = 17 ∧
      fold 0 ((frame.drop 14).take 20) = 0xffff ∧ 14 + totalLen ≤ frame.length ∧
      totalLen = 20 + udpLen ∧ 8 ≤ udpLen then
    return {
      endpoint := {
        srcMac, dstMac, srcIp, dstIp
        srcPort := wordAt frame 34
        dstPort := wordAt frame 36 }
      ipId := wordAt frame 18
      payload := (frame.drop 42).take (udpLen - 8) }
  else none

theorem bytesAt_append_right {n i : ℕ} {a : List UInt8} (b : List UInt8) (h : a.length ≤ i) :
    bytesAt n (a ++ b) i = bytesAt n b (i - a.length) := by
  have hdrop : (a ++ b).drop i = b.drop (i - a.length) := by
    rw [List.drop_append, List.drop_eq_nil_of_le h, List.nil_append]
  simp only [bytesAt, hdrop]

theorem bytesAt_toList {n : ℕ} (v : Vector UInt8 n) (b : List UInt8) :
    bytesAt n (v.toList ++ b) 0 = some v := by
  have htake : ((v.toList ++ b).drop 0).take n = v.toList := by
    rw [List.drop_zero, List.take_left' (by simp)]
  simp only [bytesAt, htake, Vector.length_toList, dite_true]
  exact congrArg some (Vector.toArray_inj.1 (Array.toArray_toList))

theorem wordAt_append_right {i : ℕ} {a : List UInt8} (b : List UInt8) (h : a.length ≤ i) :
    wordAt (a ++ b) i = wordAt b (i - a.length) := by
  obtain ⟨k, rfl⟩ := Nat.exists_eq_add_of_le h
  rw [Nat.add_sub_cancel_left, wordAt, Nat.add_assoc, byteAt_append_right, byteAt_append_right]
  rfl

theorem wordAt_toBeBytes (v : UInt16) (b : List UInt8) : wordAt (toBeBytes v ++ b) 0 = v :=
  fromBeBytes_toBeBytes v

theorem byteAt_append_ge {i : ℕ} {a : List UInt8} (b : List UInt8) (h : a.length ≤ i) :
    byteAt (a ++ b) i = byteAt b (i - a.length) := by
  obtain ⟨k, rfl⟩ := Nat.exists_eq_add_of_le h
  rw [Nat.add_sub_cancel_left, byteAt_append_right]

theorem UdpEndpoint.take_drop_body (ep : UdpEndpoint) (payload fcs : List UInt8) (ipId : UInt16) :
    ((ep.body payload ipId ++ fcs).drop 14).take 20 =
      ep.ipv4Header payload.length ipId (~~~fold 0 (ep.ipv4Header payload.length ipId 0)) := by
  rw [UdpEndpoint.body, List.append_assoc, List.append_assoc, List.append_assoc,
    List.drop_left' (by simp), List.take_left' (by simp)]

/-- The header with its check word folds to `0xffff`. -/
theorem UdpEndpoint.fold_ipv4Header (ep : UdpEndpoint) (n : ℕ) (ipId : UInt16) :
    fold 0 (ep.ipv4Header n ipId (~~~fold 0 (ep.ipv4Header n ipId 0))) = 0xffff := by
  have hsplice : ∀ cksum,
      splice (ep.ipv4Header n ipId 0) 10 (toBeBytes cksum) = ep.ipv4Header n ipId cksum :=
    fun cksum => rfl
  have h := fold_splice_compl (b := ep.ipv4Header n ipId 0) (i := 10) (by decide) (by simp)
  rwa [hsplice, hsplice] at h

namespace UdpEndpoint

variable (ep : UdpEndpoint) {payload : List UInt8} (ipId : UInt16) (fcs : List UInt8)

theorem body_fields (payload : List UInt8) : ∃ cksum, ep.body payload ipId ++ fcs =
    ep.dstMac.toList ++ (ep.srcMac.toList ++ (toBeBytes 0x0800 ++ ([0x45, 0x00] ++
      (toBeBytes (20 + UInt16.ofNat (payload.length + 8)) ++ (toBeBytes ipId ++
        ([0x40, 0x00, 0x40, 0x11] ++ (toBeBytes cksum ++ (ep.srcIp.toList ++
          (ep.dstIp.toList ++ (toBeBytes ep.srcPort ++ (toBeBytes ep.dstPort ++
            (toBeBytes (UInt16.ofNat (payload.length + 8)) ++
              ([0, 0] ++ (payload ++ fcs)))))))))))))) := by
  have htype : toBeBytes 0x0800 = [0x08, 0x00] := by decide
  refine ⟨~~~fold 0 (ep.ipv4Header payload.length ipId 0), ?_⟩
  simp only [body, etherHeader, ipv4Header, udpHeader, List.append_assoc, htype]

theorem toNat_udpLen (h : payload.length ≤ 1472) :
    (UInt16.ofNat (payload.length + 8)).toNat = payload.length + 8 := by
  rw [UInt16.toNat_ofNat']
  omega

theorem toNat_ipTotalLen (h : payload.length ≤ 1472) :
    (20 + UInt16.ofNat (payload.length + 8)).toNat = payload.length + 28 := by
  rw [UInt16.toNat_add, toNat_udpLen h]
  simp
  omega

/-- A receiver derives the length the frame has. -/
theorem deriveFrameLen_body (hfcs : fcs.length = 4) (h : payload.length ≤ 1472) :
    deriveFrameLen (ep.body payload ipId ++ fcs) = .ok (payload.length + 46) := by
  have hlen : (ep.body payload ipId ++ fcs).length = payload.length + 46 := by
    rw [List.length_append, ep.length_body, hfcs]
    omega
  have hwords : wordAt (ep.body payload ipId ++ fcs) 12 = 0x0800 ∧
      wordAt (ep.body payload ipId ++ fcs) 16 = 20 + UInt16.ofNat (payload.length + 8) := by
    obtain ⟨cksum, hfields⟩ := ep.body_fields ipId fcs payload
    rw [hfields]
    simp (disch := simp) only [wordAt_append_right, wordAt_toBeBytes, Vector.length_toList,
      length_toBeBytes, List.length_cons, List.length_nil, Nat.reduceAdd, Nat.reduceSub]
    exact ⟨trivial, trivial⟩
  rw [deriveFrameLen_ipv4 (by omega) hwords.1, hwords.2, toNat_ipTotalLen h, hlen]
  congr 1
  omega

end UdpEndpoint

/-- **The headers are read back.** -/
theorem UdpPacket.parse_body (ep : UdpEndpoint) {payload : List UInt8} (ipId : UInt16)
    (fcs : List UInt8) (h : payload.length ≤ 1472) :
    UdpPacket.parse (ep.body payload ipId ++ fcs) = some ⟨ep, ipId, payload⟩ := by
  have hpayload : (ep.body payload ipId ++ fcs).drop 42 = payload ++ fcs := by
    rw [UdpEndpoint.body, List.append_assoc, List.drop_left' (by simp)]
  have hlen : (ep.body payload ipId ++ fcs).length = 42 + payload.length + fcs.length := by
    rw [List.length_append, ep.length_body]
  obtain ⟨cksum, hfields⟩ := ep.body_fields ipId fcs payload
  rw [UdpPacket.parse, ep.take_drop_body, ep.fold_ipv4Header, hpayload, hlen, hfields]
  simp (disch := simp) only [bytesAt_append_right, bytesAt_toList, wordAt_append_right,
    wordAt_toBeBytes, byteAt_append_ge, Vector.length_toList, length_toBeBytes, List.length_cons,
    List.length_nil, Nat.reduceAdd, Nat.reduceSub]
  rw [UdpEndpoint.toNat_udpLen h, UdpEndpoint.toNat_ipTotalLen h, Nat.add_sub_cancel,
    List.take_left]
  exact if_pos ⟨trivial, rfl, rfl, trivial, by omega, by omega, by omega⟩

/-- The frame on the wire as the builder leaves it: preamble, body and FCS. -/
def UdpEndpoint.wireBytes (ep : UdpEndpoint) (payload : List UInt8) (ipId : UInt16) : List UInt8 :=
  preambleBytes ++ (ep.body payload ipId ++ toLeBytes (crc32 (ep.body payload ipId)))

@[simp] theorem UdpEndpoint.length_wireBytes (ep : UdpEndpoint) (payload : List UInt8)
    (ipId : UInt16) : (ep.wireBytes payload ipId).length = 54 + payload.length := by
  simp [wireBytes, preambleBytes, toLeBytes]
  omega

theorem buildEthIpv4UdpFrame_spec (ep : UdpEndpoint) {payload : List UInt8} (ipId : UInt16)
    (out : Bytes maxTxFrame) (h : payload.length ≤ 1472) :
    ∃ rest, buildEthIpv4UdpFrame ep payload out.data ipId =
        .ok (ep.wireBytes payload ipId ++ rest, 54 + payload.length) ∧
      (ep.wireBytes payload ipId ++ rest).length = maxTxFrame := by
  have hsize : out.data.length = 1526 := out.size
  refine ⟨out.data.drop (54 + payload.length), ?_, ?_⟩
  · have hwire : preambleBytes ++ ep.body payload ipId ++
        toLeBytes (crc32 (ep.body payload ipId)) = ep.wireBytes payload ipId :=
      List.append_assoc _ _ _
    rw [buildEthIpv4UdpFrame_eq ep ipId (by omega), hwire, splice, List.take_zero,
      List.nil_append, Nat.zero_add, ep.length_wireBytes]
  · rw [List.length_append, ep.length_wireBytes, List.length_drop, hsize, maxTxFrame]
    omega

/-- **The builder is correct.**  In a buffer of `MAX_TX_FRAME` bytes it writes `54` bytes and the
payload.  Behind the preamble stands a frame whose headers give back what was sent, whose IPv4 header
folds to `0xffff`, and which a receiver accepts. -/
theorem buildEthIpv4UdpFrame_correct (ep : UdpEndpoint) {payload : List UInt8} (ipId : UInt16)
    (out : Bytes maxTxFrame) (h : payload.length ≤ 1472) :
    ∃ built, buildEthIpv4UdpFrame ep payload out.data ipId = .ok (built, 54 + payload.length) ∧
      built.length = maxTxFrame ∧ built.take 8 = preambleBytes ∧
      ∃ frame, frame = (built.take (54 + payload.length)).drop 8 ∧
        UdpPacket.parse frame = some ⟨ep, ipId, payload⟩ ∧
        fold 0 ((frame.drop 14).take 20) = 0xffff ∧
        ∃ n, deriveFrameLen frame = .ok n ∧ verifyFcs frame n = .ok true := by
  obtain ⟨rest, hbuilt, hlen⟩ := buildEthIpv4UdpFrame_spec ep ipId out h
  refine ⟨_, hbuilt, hlen, ?_, _, rfl, ?_⟩
  · rw [UdpEndpoint.wireBytes, List.append_assoc]
    exact List.take_left' rfl
  · rw [List.take_left' (ep.length_wireBytes payload ipId), UdpEndpoint.wireBytes,
      List.drop_left' (show preambleBytes.length = 8 from rfl)]
    refine ⟨UdpPacket.parse_body ep ipId _ h, ?_, _, ep.deriveFrameLen_body ipId _ rfl h, ?_⟩
    · rw [ep.take_drop_body, ep.fold_ipv4Header]
    · have hlen : payload.length + 46 = (ep.body payload ipId).length + 4 := by
        rw [ep.length_body]
        omega
      rw [hlen]
      exact verifyFcs_append (by simp; omega)

/-- The endpoint of the periodic broadcast. -/
def broadcastEndpoint : UdpEndpoint where
  srcMac := #v[0x12, 0x34, 0x56, 0x78, 0x9A, 0xBC]
  dstMac := #v[0xFF, 0xFF, 0xFF, 0xFF, 0xFF, 0xFF]
  srcIp := #v[192, 168, 37, 24]
  dstIp := #v[192, 168, 37, 19]
  srcPort := 1234
  dstPort := 1234

theorem buildEthIpv4UdpFrame_correct_runt : ∃ built,
    buildEthIpv4UdpFrame broadcastEndpoint [0x68, 0x69] (Bytes.zero maxTxFrame).data 7 =
      .ok (built, 56) ∧
    built.length = maxTxFrame ∧ built.take 8 = preambleBytes ∧
    ∃ frame, frame = (built.take 56).drop 8 ∧
      UdpPacket.parse frame = some ⟨broadcastEndpoint, 7, [0x68, 0x69]⟩ ∧
      fold 0 ((frame.drop 14).take 20) = 0xffff ∧
      ∃ n, deriveFrameLen frame = .ok n ∧ verifyFcs frame n = .ok true :=
  buildEthIpv4UdpFrame_correct broadcastEndpoint 7 (Bytes.zero maxTxFrame) (by decide)

/-! ### The two transmit paths -/

/-- dst MAC..payload of a built frame. -/
def builtBody (built : List UInt8) (total : ℕ) : List UInt8 := (built.take (total - 4)).drop 8

theorem builtBody_wireBytes (ep : UdpEndpoint) (payload : List UInt8) (ipId : UInt16)
    (rest : List UInt8) :
    builtBody (ep.wireBytes payload ipId ++ rest) (54 + payload.length) = ep.body payload ipId := by
  have hlen : (preambleBytes ++ ep.body payload ipId).length = 54 + payload.length - 4 := by
    simp [preambleBytes]
    omega
  rw [builtBody, UdpEndpoint.wireBytes, ← List.append_assoc, List.append_assoc,
    List.take_left' hlen]
  exact List.drop_left' rfl

theorem sendUdpBroadcast_eq (tx : EthTx) (ep : UdpEndpoint) {payload : List UInt8}
    (h : payload.length ≤ 1472) : ∃ tx', sendUdpBroadcast tx ep payload =
      .ok ((ep.wireBytes payload tx.ipIdentifier).map manchesterWord ++
        0x00000AAA :: List.replicate 12 0, tx') := by
  obtain ⟨rest, hbuilt, hlen⟩ := buildEthIpv4UdpFrame_spec ep tx.ipIdentifier tx.rawFrame h
  have hle : 54 + payload.length ≤ (ep.wireBytes payload tx.ipIdentifier ++ rest).length := by
    rw [List.length_append, ep.length_wireBytes]
    exact Nat.le_add_right _ _
  rw [sendUdpBroadcast, Bytes.modify_ok hbuilt hlen, Exec.ok_bind]
  simp only [slice_zero hle, Exec.ok_bind, List.append_assoc]
  rw [List.take_left' (ep.length_wireBytes payload tx.ipIdentifier)]
  exact ⟨_, rfl⟩

/-- The two paths write the same words when there is nothing to pad. -/
theorem wireBytes_words_eq_iff (ep : UdpEndpoint) (payload : List UInt8) (ipId : UInt16) :
    (ep.wireBytes payload ipId).map manchesterWord ++ 0x00000AAA :: List.replicate 12 0 =
      sendRawFrame (ep.body payload ipId) ↔ 18 ≤ payload.length := by
  rw [sendRawFrame_eq]
  constructor
  · intro heq
    have hlen := congrArg List.length heq
    rw [List.length_append, List.length_append, List.length_map, List.length_map,
      ep.length_wireBytes, List.length_append, length_wireFrame, ep.length_body,
      show preambleBytes.length = 8 from rfl] at hlen
    omega
  · intro hle
    have hpad : paddedBody (ep.body payload ipId) = ep.body payload ipId := by
      rw [paddedBody, ep.length_body, show 60 - (42 + payload.length) = 0 by omega]
      exact List.append_nil _
    rw [UdpEndpoint.wireBytes, wireFrame, hpad]

/-- **The two transmit paths** put the same frame on the wire, and it has the 64 bytes an Ethernet
frame must have, exactly when the payload has 18 bytes or more: only `send_raw_frame` pads. -/
theorem sendUdpBroadcast_eq_sendRawFrame_iff (tx : EthTx) (ep : UdpEndpoint)
    {payload : List UInt8} (h : payload.length ≤ 1472) :
    ∃ built total words tx',
      buildEthIpv4UdpFrame ep payload tx.rawFrame.data tx.ipIdentifier = .ok (built, total) ∧
      sendUdpBroadcast tx ep payload = .ok (words, tx') ∧
      ((words = sendRawFrame (builtBody built total) ∧ 64 ≤ total - preambleBytes.length ∧
          64 ≤ (wireFrame (builtBody built total)).length) ↔
        18 ≤ payload.length) := by
  obtain ⟨rest, hbuilt, -⟩ := buildEthIpv4UdpFrame_spec ep tx.ipIdentifier tx.rawFrame h
  obtain ⟨tx', hsend⟩ := sendUdpBroadcast_eq tx ep h
  refine ⟨_, _, _, tx', hbuilt, hsend, ?_⟩
  rw [builtBody_wireBytes, wireBytes_words_eq_iff, length_wireFrame,
    show preambleBytes.length = 8 from rfl]
  omega

theorem sendUdpBroadcast_eq_sendRawFrame_18 : ∃ built total words tx',
    buildEthIpv4UdpFrame broadcastEndpoint (List.replicate 18 0) (Bytes.zero maxTxFrame).data 0 =
      .ok (built, total) ∧
    sendUdpBroadcast ⟨0, Bytes.zero maxTxFrame⟩ broadcastEndpoint (List.replicate 18 0) =
      .ok (words, tx') ∧
    ((words = sendRawFrame (builtBody built total) ∧ 64 ≤ total - preambleBytes.length ∧
        64 ≤ (wireFrame (builtBody built total)).length) ↔
      18 ≤ (List.replicate 18 (0 : UInt8)).length) :=
  sendUdpBroadcast_eq_sendRawFrame_iff ⟨0, Bytes.zero maxTxFrame⟩ broadcastEndpoint (by decide)

/-- An empty payload leaves a runt of 46 bytes on the wire, where `send_raw_frame` pads to 64. -/
theorem sendUdpBroadcast_ne_sendRawFrame_empty : ¬ ∃ built total words tx',
    buildEthIpv4UdpFrame broadcastEndpoint [] (Bytes.zero maxTxFrame).data 0 = .ok (built, total) ∧
    sendUdpBroadcast ⟨0, Bytes.zero maxTxFrame⟩ broadcastEndpoint [] = .ok (words, tx') ∧
    words = sendRawFrame (builtBody built total) := by
  rintro ⟨built, total, words, tx', hbuilt, hsend, heq⟩
  have hempty : ([] : List UInt8).length ≤ 1472 := by decide
  obtain ⟨rest, hbuilt', -⟩ :=
    buildEthIpv4UdpFrame_spec broadcastEndpoint 0 (Bytes.zero maxTxFrame) hempty
  obtain ⟨tx'', hsend'⟩ :=
    sendUdpBroadcast_eq ⟨0, Bytes.zero maxTxFrame⟩ broadcastEndpoint hempty
  cases hbuilt.symm.trans hbuilt'
  cases hsend.symm.trans hsend'
  rw [builtBody_wireBytes, wireBytes_words_eq_iff] at heq
  exact absurd heq (by decide)

end Pico10BaseT
