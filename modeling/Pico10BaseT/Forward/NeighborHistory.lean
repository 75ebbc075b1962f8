import Mathlib.Data.Vector.Basic
import Pico10BaseT.Forward.Neighbor
import Pico10BaseT.Queue.BoundedMap

/-!
# What the neighbor tables hold

Two cursors fill a table: `used` until it is full, `next` from then on.  Read from `next` on, the
entries in use are a bounded map, oldest address first (`Represents`), and `insert` is the insertion
of that map.  What the tables hold after any calls of `learn` follows from the history of insertions
alone.

* `neighborTable_correct` : the addresses are the last eight that were absent when learned, each with
  the MAC of the latest frame it was learned from.
-/

namespace Pico10BaseT

namespace NeighborTable

variable (t : NeighborTable)

/-- The addresses in use. -/
def ips : List Ipv4Address :=
  ((List.finRange neighCap).filter fun i => i.val < t.used).map fun i => (t.slot i).1

/-- The slot `i` places after the slot `next`. -/
def aged (next i : ℕ) : Fin neighCap := ⟨(next + i) % neighCap, Nat.mod_lt _ (by decide)⟩

/-- The entries in use are those of a map, in the order in which they will be overwritten; the second
cursor moves only once all are in use. -/
structure Represents (m : BoundedMap neighCap Ipv4Address (Vector UInt8 6)) : Prop where
  entries : m.entries = (List.range t.used).map fun i => t.slot (aged t.next i)
  cursor : t.used = neighCap ∨ t.next = 0

variable {t} {m : BoundedMap neighCap Ipv4Address (Vector UInt8 6)}

theorem represents_new : NeighborTable.new.Represents .empty := ⟨rfl, .inr rfl⟩

theorem position_eq_some {ip : Ipv4Address} {i : Fin neighCap} (h : t.position ip = some i) :
    i.val < t.used ∧ (t.slot i).1 = ip := by
  have hfound := List.find?_some h
  simpa [slot] using hfound

theorem position_eq_none {ip : Ipv4Address} (h : t.position ip = none) (i : Fin neighCap)
    (hi : i.val < t.used) : (t.slot i).1 ≠ ip := by
  have hnone := List.find?_eq_none.1 h i (List.mem_finRange i)
  simpa [slot, hi] using hnone

/-- What `insert` does: one slot takes the entry, and the cursors move by at most one. -/
theorem insert_cases (t : NeighborTable) (ip : Ipv4Address) (mac : Vector UInt8 6) :
    ∃ i : Fin neighCap,
      (∀ j, (t.insert ip mac).slot j = if j = i then (ip, mac) else t.slot j) ∧
      ((i.val < t.used ∧ (t.slot i).1 = ip ∧ (t.insert ip mac).used = t.used ∧
          (t.insert ip mac).next = t.next) ∨
        ((∀ j : Fin neighCap, j.val < t.used → (t.slot j).1 ≠ ip) ∧ i.val = t.used ∧
          (t.insert ip mac).used = t.used + 1 ∧ (t.insert ip mac).next = t.next) ∨
        ((∀ j : Fin neighCap, j.val < t.used → (t.slot j).1 ≠ ip) ∧ i.val = t.next ∧
          t.used = neighCap ∧ (t.insert ip mac).used = neighCap ∧
          (t.insert ip mac).next = (t.next + 1) % neighCap)) := by
  cases hpos : t.position ip with
  | some i =>
    obtain ⟨hi, hip⟩ := position_eq_some hpos
    refine ⟨i, fun j => ?_, .inl ⟨hi, hip, by simp [insert, hpos], by simp [insert, hpos]⟩⟩
    by_cases hj : j = i
    · subst hj
      simpa [insert, hpos, slot] using hip
    · have hne : i.val ≠ j.val := fun heq => hj (Fin.ext heq.symm)
      simp [insert, hpos, slot, hj, Vector.getElem_set_ne _ _ hne]
  | none =>
    have hnone := position_eq_none hpos
    by_cases hroom : t.used < neighCap
    · refine ⟨⟨t.used, hroom⟩, fun j => ?_, .inr (.inl ⟨hnone, rfl, ?_, ?_⟩)⟩
      · by_cases hj : j = ⟨t.used, hroom⟩
        · subst hj
          simp [insert, hpos, slot, hroom]
        · have hne : t.used ≠ j.val := fun heq => hj (Fin.ext heq.symm)
          simp [insert, hpos, slot, hroom, hj, Vector.getElem_set_ne _ _ hne]
      · simp [insert, hpos, hroom]
      · simp [insert, hpos, hroom]
    · have hfull : t.used = neighCap := le_antisymm t.used_le (Nat.le_of_not_lt hroom)
      refine ⟨⟨t.next, t.next_lt⟩, fun j => ?_, .inr (.inr ⟨hnone, rfl, hfull, ?_, ?_⟩)⟩
      · by_cases hj : j = ⟨t.next, t.next_lt⟩
        · subst hj
          simp [insert, hpos, slot, hroom]
        · have hne : t.next ≠ j.val := fun heq => hj (Fin.ext heq.symm)
          simp [insert, hpos, slot, hroom, hj, Vector.getElem_set_ne _ _ hne]
      · simp [insert, hpos, hfull]
      · simp [insert, hpos, hroom]

theorem mem_ips {ip : Ipv4Address} :
    ip ∈ t.ips ↔ ∃ i : Fin neighCap, i.val < t.used ∧ (t.slot i).1 = ip := by
  simp [ips]

/-- Refreshing an address that is held changes no address. -/
theorem ips_insert_of_mem {ip : Ipv4Address} (h : ip ∈ t.ips) (mac : Vector UInt8 6) :
    (t.insert ip mac).ips = t.ips := by
  obtain ⟨i, hi, hip⟩ := mem_ips.1 h
  cases hpos : t.position ip with
  | none => exact absurd hip (position_eq_none hpos i hi)
  | some j => simp [insert, hpos, ips, slot]

namespace Represents

/-- Every slot in use is one of the map, once. -/
theorem exists_aged (h : t.Represents m) {i : Fin neighCap} (hi : i.val < t.used) :
    ∃ j < t.used, aged t.next j = i := by
  have hlt := i.isLt
  have hnext := t.next_lt
  rcases h.cursor with hfull | hzero
  · refine ⟨(i.val + neighCap - t.next) % neighCap, ?_, Fin.ext ?_⟩
    · rw [hfull]
      exact Nat.mod_lt _ (by decide)
    · simp only [aged, neighCap] at *
      omega
  · refine ⟨i.val, hi, Fin.ext ?_⟩
    simp only [aged, neighCap] at *
    omega

theorem aged_lt (h : t.Represents m) {j : ℕ} (hj : j < t.used) : (aged t.next j).val < t.used := by
  have hle := t.used_le
  rcases h.cursor with hfull | hzero
  · rw [hfull]
    exact (aged t.next j).isLt
  · simp only [aged, neighCap] at *
    omega

/-- The entries in use. -/
theorem mem_entries (h : t.Represents m) {e : Ipv4Address × Vector UInt8 6} :
    e ∈ m.entries ↔ ∃ i : Fin neighCap, i.val < t.used ∧ t.slot i = e := by
  rw [h.entries, List.mem_map]
  constructor
  · rintro ⟨j, hj, rfl⟩
    exact ⟨aged t.next j, h.aged_lt (List.mem_range.1 hj), rfl⟩
  · rintro ⟨i, hi, rfl⟩
    obtain ⟨j, hj, rfl⟩ := h.exists_aged hi
    exact ⟨j, List.mem_range.2 hj, rfl⟩

/-- No address is held twice. -/
theorem ip_inj (h : t.Represents m) {i j : Fin neighCap} (hi : i.val < t.used) (hj : j.val < t.used)
    (heq : (t.slot i).1 = (t.slot j).1) : i = j := by
  obtain ⟨i', hi', rfl⟩ := h.exists_aged hi
  obtain ⟨j', hj', rfl⟩ := h.exists_aged hj
  have hnodup := m.nodup
  rw [h.entries, List.map_map] at hnodup
  have hinj := List.inj_on_of_nodup_map hnodup (List.mem_range.2 hi') (List.mem_range.2 hj') heq
  rw [hinj]

theorem mem_keys (h : t.Represents m) {ip : Ipv4Address} :
    ip ∈ m.keys ↔ ∃ i : Fin neighCap, i.val < t.used ∧ (t.slot i).1 = ip := by
  simp only [BoundedMap.mem_keys, BoundedMap.Maps, h.mem_entries]
  constructor
  · rintro ⟨mac, i, hi, hslot⟩
    exact ⟨i, hi, (Prod.mk.inj hslot).1⟩
  · rintro ⟨i, hi, rfl⟩
    exact ⟨(t.slot i).2, i, hi, rfl⟩

theorem lookup_eq_some (h : t.Represents m) {ip : Ipv4Address} {mac : Vector UInt8 6} :
    t.lookup ip = some mac ↔ m.Maps ip mac := by
  have hlookup : t.lookup ip = (t.position ip).map fun i => (t.slot i).2 := rfl
  rw [BoundedMap.Maps, h.mem_entries, hlookup, Option.map_eq_some_iff]
  constructor
  · rintro ⟨i, hpos, rfl⟩
    obtain ⟨hi, rfl⟩ := position_eq_some hpos
    exact ⟨i, hi, rfl⟩
  · rintro ⟨i, hi, hslot⟩
    have hip : (t.slot i).1 = ip := congrArg Prod.fst hslot
    have hmac : (t.slot i).2 = mac := congrArg Prod.snd hslot
    cases hpos : t.position ip with
    | none => exact absurd hip (position_eq_none hpos i hi)
    | some j =>
      obtain ⟨hj, heq⟩ := position_eq_some hpos
      rw [h.ip_inj hj hi (heq.trans hip.symm)]
      exact ⟨i, rfl, hmac⟩

variable {t' : NeighborTable} {ip : Ipv4Address} {mac : Vector UInt8 6} {i : Fin neighCap}

/-- A new address goes last in the map. -/
theorem entries_insert (h : t.Represents m)
    (hnone : ∀ j : Fin neighCap, j.val < t.used → (t.slot j).1 ≠ ip) :
    (m.insert ip mac).entries = (m.entries ++ [(ip, mac)]).drop (t.used + 1 - neighCap) := by
  have hentries : (m.insert ip mac).entries = m.insertEntries ip mac := rfl
  have hmem : ip ∉ m.keys := by
    intro hmem
    obtain ⟨j, hj, heq⟩ := h.mem_keys.1 hmem
    exact hnone j hj heq
  have hlen : m.entries.length = t.used := by rw [h.entries, List.length_map, List.length_range]
  rw [hentries, BoundedMap.insertEntries, if_neg hmem, List.rtake, List.length_append, hlen,
    List.length_singleton]

/-- The address is known: its slot, and no other, changes. -/
theorem of_known (h : t.Represents m)
    (hslot : ∀ j, t'.slot j = if j = i then (ip, mac) else t.slot j)
    (hi : i.val < t.used) (hip : (t.slot i).1 = ip) (hused : t'.used = t.used)
    (hnext : t'.next = t.next) : t'.Represents (m.insert ip mac) := by
  have hentries : (m.insert ip mac).entries = m.insertEntries ip mac := rfl
  have hmem : ip ∈ m.keys := h.mem_keys.2 ⟨i, hi, hip⟩
  refine ⟨?_, hused ▸ hnext ▸ h.cursor⟩
  rw [hentries, BoundedMap.insertEntries, if_pos hmem, h.entries, List.map_map, hused, hnext]
  refine List.map_congr_left fun j hj => ?_
  rw [hslot, Function.comp_apply]
  refine if_congr ⟨fun heq => ?_, ?_⟩ rfl rfl
  · exact h.ip_inj (h.aged_lt (List.mem_range.1 hj)) hi (heq.trans hip.symm)
  · rintro rfl
    exact hip

/-- There is room: the entry goes behind the others. -/
theorem of_room (h : t.Represents m)
    (hslot : ∀ j, t'.slot j = if j = i then (ip, mac) else t.slot j)
    (hnone : ∀ j : Fin neighCap, j.val < t.used → (t.slot j).1 ≠ ip) (hi : i.val = t.used)
    (hused : t'.used = t.used + 1) (hnext : t'.next = t.next) :
    t'.Represents (m.insert ip mac) := by
  have hroom : t.used < neighCap := hi ▸ i.isLt
  have hzero : t.next = 0 := h.cursor.resolve_left hroom.ne
  have haged : ∀ j ≤ t.used, aged 0 j = i ↔ j = t.used := by
    intro j hj
    rw [Fin.ext_iff, hi]
    simp only [aged, neighCap] at *
    omega
  refine ⟨?_, .inr (hnext.trans hzero)⟩
  rw [h.entries_insert hnone, Nat.sub_eq_zero_of_le hroom, List.drop_zero, h.entries, hused, hnext,
    hzero, List.range_succ, List.map_append, List.map_singleton, hslot,
    if_pos ((haged t.used le_rfl).2 rfl)]
  congr 1
  refine List.map_congr_left fun j hj => ?_
  have hj' := List.mem_range.1 hj
  rw [hslot, if_neg fun heq => hj'.ne ((haged j hj'.le).1 heq)]

/-- The table is full: the oldest entry gives way. -/
theorem of_full (h : t.Represents m)
    (hslot : ∀ j, t'.slot j = if j = i then (ip, mac) else t.slot j)
    (hnone : ∀ j : Fin neighCap, j.val < t.used → (t.slot j).1 ≠ ip) (hi : i.val = t.next)
    (hfull : t.used = neighCap) (hused : t'.used = neighCap)
    (hnext : t'.next = (t.next + 1) % neighCap) : t'.Represents (m.insert ip mac) := by
  have hlt := t.next_lt
  have hlast : aged ((t.next + 1) % neighCap) 7 = i := by
    rw [Fin.ext_iff, hi]
    simp only [aged, neighCap] at *
    omega
  have hshift : ∀ j < 7, aged ((t.next + 1) % neighCap) j = aged t.next (j + 1) ∧
      aged t.next (j + 1) ≠ i := by
    intro j hj
    rw [Fin.ext_iff, Ne, Fin.ext_iff, hi]
    simp only [aged, neighCap] at *
    omega
  have hrange : List.range neighCap = List.range 7 ++ [7] := rfl
  have hrange' : List.range neighCap = 0 :: (List.range 7).map Nat.succ := rfl
  refine ⟨?_, .inl hused⟩
  rw [h.entries_insert hnone, h.entries, hfull, hrange', hused, hnext, hrange, List.map_append,
    List.map_singleton, hslot, if_pos hlast, Nat.add_sub_cancel_left, List.map_cons,
    List.cons_append, List.drop_one, List.tail_cons, List.map_map]
  congr 1
  refine List.map_congr_left fun j hj => ?_
  obtain ⟨heq, hne⟩ := hshift j (List.mem_range.1 hj)
  rw [hslot, heq, if_neg hne, Function.comp_apply]

/-- The table inserts like the map. -/
theorem insert (h : t.Represents m) (ip : Ipv4Address) (mac : Vector UInt8 6) :
    (t.insert ip mac).Represents (m.insert ip mac) := by
  obtain ⟨i, hslot, ⟨hi, hip, hused, hnext⟩ | ⟨hnone, hi, hused, hnext⟩ |
    ⟨hnone, hi, hfull, hused, hnext⟩⟩ := t.insert_cases ip mac
  · exact h.of_known hslot hi hip hused hnext
  · exact h.of_room hslot hnone hi hused hnext
  · exact h.of_full hslot hnone hi hfull hused hnext

/-- The addresses of the table are the keys of the map. -/
theorem perm_ips (h : t.Represents m) : t.ips.Perm m.keys := by
  have hnodup : t.ips.Nodup := by
    refine List.Nodup.map_on (fun i hi j hj heq => ?_) ((List.nodup_finRange _).filter _)
    exact h.ip_inj (by simpa using hi) (by simpa using hj) heq
  refine (List.perm_ext_iff_of_nodup hnodup m.nodup).2 fun ip => ?_
  rw [mem_ips, ← h.mem_keys, BoundedMap.keys]

end Represents

/-! ### Insertions one after the other -/

variable (t)

def insertAll (es : List (Ipv4Address × Vector UInt8 6)) : NeighborTable :=
  es.foldl (fun t e => t.insert e.1 e.2) t

/-- The addresses that were absent when they were inserted. -/
def absentIps : NeighborTable → List (Ipv4Address × Vector UInt8 6) → List Ipv4Address
  | _, [] => []
  | t, (ip, mac) :: es =>
    (if t.lookup ip = none then [ip] else []) ++ absentIps (t.insert ip mac) es

variable {t}

theorem Represents.insertAll (h : t.Represents m) (es : List (Ipv4Address × Vector UInt8 6)) :
    (t.insertAll es).Represents (m.insertAll es) := by
  induction es generalizing t m with
  | nil => exact h
  | cons e es ih => exact ih (h.insert e.1 e.2)

theorem Represents.lookup_eq_none (h : t.Represents m) {ip : Ipv4Address} :
    t.lookup ip = none ↔ ip ∉ m.keys := by
  rw [BoundedMap.mem_keys, Option.eq_none_iff_forall_not_mem, not_exists]
  exact forall_congr' fun mac => not_congr h.lookup_eq_some

theorem Represents.absentIps (h : t.Represents m) (es : List (Ipv4Address × Vector UInt8 6)) :
    absentIps t es = m.newKeys es := by
  induction es generalizing t m with
  | nil => rfl
  | cons e es ih =>
    obtain ⟨ip, mac⟩ := e
    rw [NeighborTable.absentIps, BoundedMap.newKeys, ih (h.insert ip mac)]
    congr 1
    by_cases hip : ip ∈ m.keys
    · rw [if_pos hip, if_neg fun hnone => h.lookup_eq_none.1 hnone hip]
    · rw [if_neg hip, if_pos (h.lookup_eq_none.2 hip)]

end NeighborTable

/-! ### The frames learned from -/

variable {κ : Type} [CidrOps κ]

/-- The sender of an ARP frame, or the source of an IPv4 frame. -/
def IsSource (frame : Frame) (ip : Ipv4Address) (mac : Vector UInt8 6) : Prop :=
  (IsArp frame ∧ ip = ipAt frame 28 ∧ mac = macAt frame 22) ∨
  (wordAt frame 12 = ethertypeIpv4 ∧ 14 + 20 ≤ frame.length ∧ ip = ipAt frame 26 ∧
    mac = macAt frame 6)

theorem isSource_iff {frame : Frame} {ip : Ipv4Address} {mac : Vector UInt8 6}
    (h : 14 ≤ frame.length) :
    learnSource frame = .ok (some (ip, mac)) ↔ IsSource frame ip mac := by
  have hne : ethertypeArp ≠ ethertypeIpv4 := by decide
  rw [learnSource_eq h, IsSource]
  by_cases harp : IsArp frame
  · have hnot : wordAt frame 12 ≠ ethertypeIpv4 := harp.1 ▸ hne
    simp [harp, hnot, eq_comm]
  · by_cases hip : wordAt frame 12 = ethertypeIpv4 ∧ 14 + 20 ≤ frame.length
    · simp [harp, hip, eq_comm]
    · rw [if_neg harp, if_neg hip]
      simpa [harp] using fun htype hlen => absurd ⟨htype, hlen⟩ hip

/-! ### Calls of `learn` -/

/-- What a call inserts. -/
def learned (cfg : IfaceCfg κ) (frame : Frame) : Option (Ipv4Address × Vector UInt8 6) :=
  if frame.length < 14 ∨ cfg.ourIp.isUnspecified then none
  else
    match learnSource frame with
    | .ok (some e) => if CidrOps.containsAddr cfg.subnet e.1 then some e else none
    | _ => none

theorem learn_eq (cfg : IfaceCfg κ) (t : NeighborTable) (frame : Frame) :
    learn cfg t frame = .ok (t.insertAll (learned cfg frame).toList) := by
  unfold learn learned
  split_ifs with hguard
  · rfl
  · push Not at hguard
    obtain ⟨src, hsrc⟩ := learnSource_ok hguard.1
    rw [hsrc, Exec.ok_bind]
    cases src with
    | none => rfl
    | some e =>
      by_cases hsubnet : CidrOps.containsAddr cfg.subnet e.1 = true
      · simp [hsubnet, NeighborTable.insertAll, Exec.pure_eq]
      · simp [hsubnet, NeighborTable.insertAll, Exec.pure_eq]

/-- What is inserted comes from the frame, and from the subnet. -/
theorem isSource_of_learned {cfg : IfaceCfg κ} {frame : Frame} {ip : Ipv4Address}
    {mac : Vector UInt8 6} (h : learned cfg frame = some (ip, mac)) :
    CidrOps.containsAddr cfg.subnet ip = true ∧ IsSource frame ip mac := by
  unfold learned at h
  split_ifs at h with hguard
  push Not at hguard
  obtain ⟨src, hsrc⟩ := learnSource_ok hguard.1
  rw [hsrc] at h
  cases src with
  | none => cases h
  | some e =>
    simp only [Option.ite_none_right_eq_some, Option.some.injEq] at h
    obtain ⟨hsubnet, rfl⟩ := h
    exact ⟨hsubnet, (isSource_iff hguard.1).1 hsrc⟩

/-- A call, on the table of its interface. -/
def learnCall (neigh : Iface → NeighborTable) (c : IfaceCfg κ × Frame) :
    Exec (Iface → NeighborTable) := do
  let t ← learn c.1 (neigh c.1.iface) c.2
  return Function.update neigh c.1.iface t

/-- The tables after the calls. -/
def learnCalls (calls : List (IfaceCfg κ × Frame)) : Exec (Iface → NeighborTable) :=
  calls.foldlM learnCall fun _ => .new

/-- What the calls on an interface insert, oldest first. -/
def learnHistory (calls : List (IfaceCfg κ × Frame)) (iface : Iface) :
    List (Ipv4Address × Vector UInt8 6) :=
  calls.flatMap fun c => if c.1.iface = iface then (learned c.1 c.2).toList else []

theorem learnHistory_snoc (calls : List (IfaceCfg κ × Frame)) (c : IfaceCfg κ × Frame)
    (iface : Iface) : learnHistory (calls ++ [c]) iface = learnHistory calls iface ++
      if c.1.iface = iface then (learned c.1 c.2).toList else [] := by
  simp [learnHistory, List.flatMap_append]

theorem learnCalls_eq (calls : List (IfaceCfg κ × Frame)) :
    learnCalls calls =
      .ok fun iface => NeighborTable.new.insertAll (learnHistory calls iface) := by
  induction calls using List.reverseRecOn with
  | nil => rfl
  | append_singleton calls c ih =>
    rw [learnCalls, List.foldlM_append, ← learnCalls, ih]
    simp only [Exec.ok_bind, List.foldlM_cons, List.foldlM_nil, learnCall, learn_eq, Exec.pure_eq,
      Except.ok.injEq]
    funext iface
    rw [learnHistory_snoc]
    by_cases hiface : iface = c.1.iface
    · subst hiface
      simp [NeighborTable.insertAll]
    · simp [Function.update_of_ne hiface, Ne.symm hiface]

/-- What an interface learned was on its subnet when it was learned. -/
theorem exists_of_mem_learnHistory {calls : List (IfaceCfg κ × Frame)} {iface : Iface}
    {ip : Ipv4Address} {mac : Vector UInt8 6} (h : (ip, mac) ∈ learnHistory calls iface) :
    ∃ c ∈ calls, c.1.iface = iface ∧ CidrOps.containsAddr c.1.subnet ip = true ∧
      IsSource c.2 ip mac := by
  obtain ⟨c, hc, hmem⟩ := List.mem_flatMap.1 h
  split_ifs at hmem with hiface
  · exact ⟨c, hc, hiface, isSource_of_learned (Option.mem_toList.1 hmem)⟩
  · exact absurd hmem List.not_mem_nil

/-- **The tables are FIFO maps** after any calls: no address is held twice; those held are the last
eight that were absent when learned, each with the MAC learned for it last, which a frame from the
subnet gave; an entry is found once inserted, and refreshing one evicts none. -/
theorem neighborTable_correct (calls : List (IfaceCfg κ × Frame)) :
    ∃ neigh, learnCalls calls = .ok neigh ∧ ∀ iface,
      (neigh iface).ips.Nodup ∧
      (neigh iface).ips.Perm
        ((NeighborTable.new.absentIps (learnHistory calls iface)).rtake neighCap) ∧
      (∀ ip mac, (neigh iface).lookup ip = some mac ↔
        ip ∈ (neigh iface).ips ∧ IsLatest (learnHistory calls iface) ip mac) ∧
      (∀ ip mac, (neigh iface).lookup ip = some mac → ∃ c ∈ calls, c.1.iface = iface ∧
        CidrOps.containsAddr c.1.subnet ip = true ∧ IsSource c.2 ip mac) ∧
      (∀ ip mac, ((neigh iface).insert ip mac).lookup ip = some mac) ∧
      ∀ ip ∈ (neigh iface).ips, ∀ mac, ((neigh iface).insert ip mac).ips = (neigh iface).ips ∧
        ∀ ip' ≠ ip, ((neigh iface).insert ip mac).lookup ip' = (neigh iface).lookup ip' := by
  refine ⟨_, learnCalls_eq calls, fun iface => ?_⟩
  set es := learnHistory calls iface with hes
  have hrep := NeighborTable.represents_new.insertAll es
  have hperm := hrep.perm_ips
  have hlatest : ∀ ip mac, (NeighborTable.new.insertAll es).lookup ip = some mac →
      IsLatest es ip mac := fun ip mac h =>
    BoundedMap.isLatest_of_maps (hrep.lookup_eq_some.1 h)
  refine ⟨hperm.nodup_iff.2 (BoundedMap.nodup _), ?_, fun ip mac => ⟨fun h => ?_, ?_⟩,
    fun ip mac h => ?_, fun ip mac => ?_, fun ip hip mac => ⟨?_, fun ip' hne => ?_⟩⟩
  · rw [NeighborTable.represents_new.absentIps]
    exact hperm.trans (BoundedMap.keys_insertAll _ es ▸ .rfl)
  · refine ⟨hperm.mem_iff.2 (BoundedMap.mem_keys.2 ⟨mac, hrep.lookup_eq_some.1 h⟩), ?_⟩
    exact hlatest ip mac h
  · rintro ⟨hip, hmac⟩
    obtain ⟨mac', hmac'⟩ := BoundedMap.mem_keys.1 (hperm.mem_iff.1 hip)
    have hlookup := hrep.lookup_eq_some.2 hmac'
    rwa [hmac.unique (hlatest ip mac' hlookup)]
  · obtain ⟨pre, post, heq, -⟩ := hlatest ip mac h
    refine exists_of_mem_learnHistory ?_
    rw [← hes, heq]
    simp
  · exact (hrep.insert ip mac).lookup_eq_some.2 (BoundedMap.maps_insert_self (by decide) ip mac)
  · exact NeighborTable.ips_insert_of_mem hip mac
  · refine Option.ext fun mac' => ?_
    rw [(hrep.insert ip mac).lookup_eq_some, hrep.lookup_eq_some]
    exact BoundedMap.maps_insert_of_mem (hperm.mem_iff.1 hip) hne

end Pico10BaseT
