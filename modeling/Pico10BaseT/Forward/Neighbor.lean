import Pico10BaseT.Forward.Device

/-!
# The neighbor tables

Next-hop MACs are learned passively: `learn` snoops the source of every received ARP and IPv4
frame, and a table of `NEIGH_CAP` entries keeps the on-subnet ones, overwriting round robin when it
is full.

* `NeighborTable.insert`, `NeighborTable.lookup` : the table.
* `learn_ok` : learning never faults, and does nothing before the interface has an address.
-/

namespace Pico10BaseT

/-- Entries of a neighbor table. -/
def neighCap : ℕ := 8

/-- A tiny fixed `IPv4 → MAC` map.  The first `used` entries are in use, and `next` is the one to
overwrite when all are. -/
structure NeighborTable where
  ip : Vector Ipv4Address neighCap
  mac : Vector (Vector UInt8 6) neighCap
  used : ℕ
  next : ℕ
  used_le : used ≤ neighCap
  next_lt : next < neighCap

namespace NeighborTable

def new : NeighborTable where
  ip := .replicate _ .unspecified
  mac := .replicate _ (.replicate _ 0)
  used := 0
  next := 0
  used_le := Nat.zero_le _
  next_lt := by decide

variable (t : NeighborTable)

/-- The first entry in use that holds `ip`. -/
def position (ip : Ipv4Address) : Option (Fin neighCap) :=
  (List.finRange neighCap).find? fun i => i < t.used && t.ip[i] = ip

def insert (ip : Ipv4Address) (mac : Vector UInt8 6) : NeighborTable :=
  match t.position ip with
  | some i => { t with mac := t.mac.set i mac }
  | none =>
    if h : t.used < neighCap then
      { t with
        ip := t.ip.set t.used ip
        mac := t.mac.set t.used mac
        used := t.used + 1
        used_le := h }
    else
      { t with
        ip := t.ip.set t.next ip t.next_lt
        mac := t.mac.set t.next mac t.next_lt
        next := (t.next + 1) % neighCap
        next_lt := Nat.mod_lt _ (by decide) }

def lookup (ip : Ipv4Address) : Option (Vector UInt8 6) := (t.position ip).map (t.mac[·])

/-- The entry in a slot. -/
def slot (i : Fin neighCap) : Ipv4Address × Vector UInt8 6 := (t.ip[i], t.mac[i])

variable {t}

theorem lookup_new (ip : Ipv4Address) : NeighborTable.new.lookup ip = none := by
  have h : NeighborTable.new.position ip = none := by
    rw [position, List.find?_eq_none]
    intro i _
    simp [new]
  rw [lookup, h, Option.map_none]

end NeighborTable

/-! ### Learning -/

/-- Ethernet/IPv4 ARP header prefix. -/
def arpEthIpv4Prefix : List UInt8 := [0x00, 0x01, 0x08, 0x00, 0x06, 0x04]

/-- `frame[i..i + 6].try_into().unwrap()`. -/
def rdMac (frame : Frame) (i : ℕ) : Exec (Vector UInt8 6) := do
  let o₀ ← index frame i
  let o₁ ← index frame (i + 1)
  let o₂ ← index frame (i + 2)
  let o₃ ← index frame (i + 3)
  let o₄ ← index frame (i + 4)
  let o₅ ← index frame (i + 5)
  return #v[o₀, o₁, o₂, o₃, o₄, o₅]

/-- The source address and MAC of an ARP or IPv4 frame. -/
def learnSource (frame : Frame) : Exec (Option (Ipv4Address × Vector UInt8 6)) := do
  let etype ← rd16 frame 12
  let isArp ←
    if etype = ethertypeArp ∧ 14 + 28 ≤ frame.length then do
      let head ← slice frame 14 20
      pure (decide (head = arpEthIpv4Prefix))
    else pure false
  if isArp then
    -- sha = frame[22..28], spa = frame[28..32]
    let ip ← rdIp frame 28
    let mac ← rdMac frame 22
    return some (ip, mac)
  else if etype = ethertypeIpv4 ∧ 14 + 20 ≤ frame.length then
    let ip ← rdIp frame 26
    let mac ← rdMac frame 6
    return some (ip, mac)
  else return none

variable {κ : Type} [CidrOps κ]

/-- Learn IP → MAC from ARP and IPv4 sources on this subnet only.  Off-subnet sources carry the
gateway's MAC and would poison the table. -/
def learn (cfg : IfaceCfg κ) (t : NeighborTable) (frame : Frame) : Exec NeighborTable := do
  if frame.length < 14 ∨ cfg.ourIp.isUnspecified then return t
  else
    match ← learnSource frame with
    | none => return t
    | some (ip, mac) =>
      return if CidrOps.containsAddr cfg.subnet ip then t.insert ip mac else t

/-- The MAC in six bytes of the frame. -/
def macAt (frame : Frame) (i : ℕ) : Vector UInt8 6 :=
  #v[byteAt frame i, byteAt frame (i + 1), byteAt frame (i + 2), byteAt frame (i + 3),
    byteAt frame (i + 4), byteAt frame (i + 5)]

theorem rdMac_eq {frame : Frame} {i : ℕ} (h : i + 5 < frame.length) :
    rdMac frame i = .ok (macAt frame i) := by
  simp only [rdMac, index_eq_byteAt (show i < frame.length by omega),
    index_eq_byteAt (show i + 1 < frame.length by omega),
    index_eq_byteAt (show i + 2 < frame.length by omega),
    index_eq_byteAt (show i + 3 < frame.length by omega),
    index_eq_byteAt (show i + 4 < frame.length by omega), index_eq_byteAt h, Exec.ok_bind,
    Exec.pure_eq, macAt]

/-- The frame is an ARP frame over Ethernet. -/
def IsArp (frame : Frame) : Prop :=
  wordAt frame 12 = ethertypeArp ∧ 14 + 28 ≤ frame.length ∧
    (frame.drop 14).take 6 = arpEthIpv4Prefix

instance : DecidablePred IsArp := fun _ => inferInstanceAs (Decidable (_ ∧ _ ∧ _))

/-- What a frame with an Ethernet header names as its source; nothing is read outside the frame. -/
theorem learnSource_eq {frame : Frame} (h : 14 ≤ frame.length) :
    learnSource frame = .ok
      (if IsArp frame then some (ipAt frame 28, macAt frame 22)
      else if wordAt frame 12 = ethertypeIpv4 ∧ 14 + 20 ≤ frame.length then
        some (ipAt frame 26, macAt frame 6)
      else none) := by
  rw [learnSource, rd16_ok (by omega), Exec.ok_bind]
  by_cases harp : wordAt frame 12 = ethertypeArp ∧ 14 + 28 ≤ frame.length
  · obtain ⟨htype, hlen⟩ := id harp
    have hhead : slice frame 14 20 = .ok ((frame.drop 14).take 6) := if_pos ⟨by omega, by omega⟩
    have hip : ¬(wordAt frame 12 = ethertypeIpv4 ∧ 14 + 20 ≤ frame.length) := by
      rw [htype]
      exact fun hip => absurd hip.1 (by decide)
    simp only [if_pos harp, hhead, Exec.ok_bind, Exec.pure_eq, decide_eq_true_eq]
    by_cases hprefix : (frame.drop 14).take 6 = arpEthIpv4Prefix
    · rw [if_pos hprefix, rdIp_ok (by omega), Exec.ok_bind, rdMac_eq (by omega), Exec.ok_bind,
        if_pos ⟨htype, hlen, hprefix⟩]
    · rw [if_neg hprefix, if_neg hip, if_neg fun hisArp => hprefix hisArp.2.2, if_neg hip]
  · have hnot : ¬IsArp frame := fun hisArp => harp ⟨hisArp.1, hisArp.2.1⟩
    simp only [if_neg harp, Exec.pure_eq, Exec.ok_bind, Bool.false_eq_true, if_false, if_neg hnot]
    split_ifs with hip
    · rw [rdIp_ok (by omega), Exec.ok_bind, rdMac_eq (by omega), Exec.ok_bind]
    · rfl

theorem learnSource_ok {frame : Frame} (h : 14 ≤ frame.length) :
    ∃ src, learnSource frame = .ok src := ⟨_, learnSource_eq h⟩

/-- Learning returns for every frame, and does nothing without an address. -/
theorem learn_ok (cfg : IfaceCfg κ) (t : NeighborTable) (frame : Frame) :
    ∃ t', learn cfg t frame = .ok t' ∧ (cfg.ourIp.isUnspecified = true → t' = t) := by
  unfold learn
  split_ifs with hguard
  · exact ⟨t, rfl, fun _ => rfl⟩
  · push Not at hguard
    obtain ⟨src, hsrc⟩ := learnSource_ok hguard.1
    rw [hsrc, Exec.ok_bind]
    cases src <;> exact ⟨_, rfl, fun h => absurd h hguard.2⟩

end Pico10BaseT
