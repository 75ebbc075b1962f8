import Mathlib.Algebra.Order.Group.Nat
import Mathlib.Data.Finset.Card
import Mathlib.Data.Nat.ModEq
import Mathlib.Logic.Function.Iterate
import Pico10BaseT.Conntrack.Basic

/-!
# The representation invariant of the conntrack table

`CtState.Inv` : WAN ids of used slots are in range and pairwise distinct, no two used slots hold
the same flow, the cursor is in range, and the live counter counts the used slots.

* `Conntrack.allocId_spec` : the allocator always finds a free id.  The probed ids are pairwise
  distinct for a whole lap of the cursor, and only `CT_CAP` of them can be in use.
* `CtState.outbound_cases`, `CtState.inbound_cases` : everything an operation can do.
* `CtState.Inv.step` : every operation keeps the invariant; `ct_invariant` is the run form.
-/

namespace Pico10BaseT

namespace Conntrack

variable {ct : Conntrack}

/-! ### Slots -/

theorem slot_eq_getElem {i : ℕ} (h : i < ct.slots.length) : ct.slot i = ct.slots[i] := by
  simp [slot, h]

theorem slot_setSlot (ct : Conntrack) (i j : ℕ) (e : Entry) :
    (ct.setSlot i e).slot j = if i = j ∧ j < ctCap then e else ct.slot j := by
  have hs := ct.size
  simp only [slot, setSlot, List.getD_eq_getElem?_getD, List.getElem?_set]
  split_ifs <;> simp_all

theorem exists_mem_slots {p : Entry → Prop} :
    (∃ e ∈ ct.slots, p e) ↔ ∃ i < ctCap, p (ct.slot i) := by
  constructor
  · rintro ⟨e, he, hp⟩
    obtain ⟨i, hi, rfl⟩ := List.getElem_of_mem he
    exact ⟨i, ct.size ▸ hi, by rwa [slot_eq_getElem hi]⟩
  · rintro ⟨i, hi, hp⟩
    rw [← ct.size] at hi
    rw [slot_eq_getElem hi] at hp
    exact ⟨_, List.getElem_mem hi, hp⟩

theorem findIdx_some {p : Entry → Bool} {i : ℕ} (h : ct.slots.findIdx? p = some i) :
    i < ctCap ∧ p (ct.slot i) = true := by
  obtain ⟨hi, hp, -⟩ := List.findIdx?_eq_some_iff_getElem.1 h
  exact ⟨ct.size ▸ hi, by rwa [slot_eq_getElem hi]⟩

theorem findIdx_none {p : Entry → Bool} :
    ct.slots.findIdx? p = none ↔ ∀ i < ctCap, p (ct.slot i) = false := by
  rw [List.findIdx?_eq_none_iff]
  constructor
  · intro h i hi
    rw [← ct.size] at hi
    rw [slot_eq_getElem hi]
    exact h _ (List.getElem_mem hi)
  · intro h e he
    obtain ⟨i, hi, rfl⟩ := List.getElem_of_mem he
    rw [← slot_eq_getElem hi]
    exact h i (ct.size ▸ hi)

/-- Writing slot `i` changes the number of used slots by that slot alone. -/
theorem countP_setSlot (ct : Conntrack) {i : ℕ} (hi : i < ctCap) (e : Entry) :
    (ct.setSlot i e).slots.countP (·.used) + (if (ct.slot i).used then 1 else 0) =
      ct.slots.countP (·.used) + (if e.used then 1 else 0) := by
  have hi' : i < ct.slots.length := ct.size ▸ hi
  have hc := List.countP_set (p := (·.used)) (a := e) hi'
  have hpos : (if (ct.slot i).used then 1 else 0) ≤ ct.slots.countP (·.used) := by
    rw [slot_eq_getElem hi']
    split_ifs with hu
    · exact List.countP_pos_iff.2 ⟨_, List.getElem_mem hi', hu⟩
    · exact Nat.zero_le _
  rw [slot_eq_getElem hi'] at hpos ⊢
  simp only [setSlot]
  omega

theorem countP_used_le (ct : Conntrack) : ct.slots.countP (·.used) ≤ ctCap :=
  ct.size ▸ List.countP_le_length

/-- The loop that keeps the first index of least value ends with one. -/
theorem foldl_least (f : ℕ → ℕ) {l : List ℕ} {b r : ℕ}
    (h : l.foldl (fun best i => if f i < f best then i else best) b = r) :
    (r = b ∨ r ∈ l) ∧ f r ≤ f b ∧ ∀ i ∈ l, f r ≤ f i := by
  induction l generalizing b with
  | nil =>
    obtain rfl : b = r := h
    exact ⟨.inl rfl, le_rfl, by simp⟩
  | cons i l ih =>
    simp only [List.foldl_cons] at h
    obtain ⟨hr, hb, hl⟩ := ih h
    split_ifs at hr hb with hlt
    · refine ⟨.inr ?_, by omega, ?_⟩
      · rcases hr with rfl | hr
        · exact List.mem_cons_self
        · exact List.mem_cons_of_mem _ hr
      · simpa [hb] using hl
    · refine ⟨hr.imp_right (List.mem_cons_of_mem _), hb, ?_⟩
      simpa [le_trans hb (not_lt.1 hlt)] using hl

/-- Where `pickSlot` looks: a free slot, else an expired one, else one of least `lastSeen`. -/
theorem pickSlot_cases (ct : Conntrack) (now : ℕ) :
    ct.pickSlot now < ctCap ∧
      ((ct.slot (ct.pickSlot now)).used = false ∨
        (ct.slot (ct.pickSlot now)).expired now = true ∨
        ∀ i < ctCap, (ct.slot i).used = true ∧ (ct.slot i).expired now = false ∧
          (ct.slot (ct.pickSlot now)).lastSeen ≤ (ct.slot i).lastSeen) := by
  unfold pickSlot
  split
  · next i h =>
    obtain ⟨hi, hp⟩ := findIdx_some h
    exact ⟨hi, .inl (by simpa using hp)⟩
  · next hused =>
    split
    · next i h =>
      obtain ⟨hi, hp⟩ := findIdx_some h
      exact ⟨hi, .inr (.inl hp)⟩
    · next hexp =>
      obtain ⟨hr, hzero, hleast⟩ := foldl_least (fun i => (ct.slot i).lastSeen)
        (l := List.range' 1 (ctCap - 1)) (b := 0) rfl
      refine ⟨?_, .inr (.inr fun i hi => ⟨?_, findIdx_none.1 hexp i hi, ?_⟩)⟩
      · rcases hr with hr | hr
        · rw [hr]
          decide
        · rw [List.mem_range'_1] at hr
          simp only [ctCap] at hr ⊢
          omega
      · simpa using findIdx_none.1 hused i hi
      · cases i with
        | zero => exact hzero
        | succ i =>
          refine hleast _ (List.mem_range'_1.2 ?_)
          simp only [ctCap] at hi ⊢
          omega

theorem pickSlot_lt (ct : Conntrack) (now : ℕ) : ct.pickSlot now < ctCap :=
  (ct.pickSlot_cases now).1

/-! ### Allocation -/

theorem idInUse_iff {id : UInt16} :
    ct.idInUse id = true ↔ ∃ i < ctCap, (ct.slot i).used = true ∧ (ct.slot i).wanId = id := by
  rw [← exists_mem_slots (p := fun e => e.used = true ∧ e.wanId = id)]
  simp [idInUse]

theorem toNat_natLo : natLo.toNat = 49152 := by simp [natLo]

theorem toNat_natHi : natHi.toNat = 65535 := by simp [natHi]

theorem toNat_nextId {id : UInt16} (h : natLo ≤ id) :
    (nextId id).toNat = 49152 + (id.toNat - 49152 + 1) % 16384 := by
  have hhi := id.toNat_lt
  rw [UInt16.le_iff_toNat_le, toNat_natLo] at h
  unfold nextId
  split_ifs with hn
  · rw [hn, toNat_natHi, toNat_natLo]
  · have hne : id.toNat ≠ 65535 := fun hc =>
        hn (UInt16.toNat_inj.1 (hc.trans toNat_natHi.symm))
    rw [UInt16.toNat_add, UInt16.toNat_one]
    omega

theorem le_nextId {id : UInt16} (h : natLo ≤ id) : natLo ≤ nextId id := by
  rw [UInt16.le_iff_toNat_le, toNat_nextId h, toNat_natLo]
  exact Nat.le_add_right _ _

theorem le_iterate_nextId {id : UInt16} (h : natLo ≤ id) (k : ℕ) : natLo ≤ nextId^[k] id := by
  induction k with
  | zero => exact h
  | succ k ih =>
    rw [Function.iterate_succ_apply']
    exact le_nextId ih

/-- The number of probes made in one call. -/
theorem natSpan : (natHi - natLo).toNat + 1 = 16384 := by simp [natHi, natLo]

/-- `k` steps of the cursor add `k` modulo a lap. -/
theorem toNat_iterate_nextId {id : UInt16} (h : natLo ≤ id) (k : ℕ) :
    (nextId^[k] id).toNat = 49152 + (id.toNat - 49152 + k) % 16384 := by
  have hhi := id.toNat_lt
  have hlo : 49152 ≤ id.toNat := by rwa [UInt16.le_iff_toNat_le, toNat_natLo] at h
  induction k with
  | zero =>
    rw [Function.iterate_zero, id_eq, Nat.add_zero]
    omega
  | succ k ih =>
    rw [Function.iterate_succ_apply', toNat_nextId (le_iterate_nextId h k), ih]
    omega

theorem iterate_nextId_injOn {id : UInt16} (h : natLo ≤ id) {n : ℕ} (hn : n ≤ 16384) :
    Set.InjOn (fun k => nextId^[k] id) (Finset.range n : Set ℕ) := by
  intro a ha b hb hab
  simp only [Finset.coe_range, Set.mem_Iio] at ha hb
  have := congrArg UInt16.toNat hab
  simp only [toNat_iterate_nextId h] at this
  omega

theorem probe_none {n : ℕ} {c c' : UInt16} (h : ct.probe n c = (none, c')) :
    ∀ k < n, ct.idInUse (nextId^[k] c) = true := by
  induction n generalizing c with
  | zero => intro k hk; omega
  | succ n ih =>
    simp only [probe] at h
    split_ifs at h with hu
    · intro k hk
      cases k with
      | zero => exact hu
      | succ k => exact ih h k (by omega)
    · simp at h

/-- The probe loop stops at the first free id. -/
theorem probe_finds {n : ℕ} {c c' id : UInt16} (h : ct.probe n c = (some id, c')) :
    ∃ k, id = nextId^[k] c ∧ c' = nextId id ∧ ct.idInUse id = false ∧
      ∀ j < k, ct.idInUse (nextId^[j] c) = true := by
  induction n generalizing c with
  | zero => simp [probe] at h
  | succ n ih =>
    simp only [probe] at h
    split_ifs at h with hu
    · obtain ⟨k, hid, hc', hfree, hskip⟩ := ih h
      refine ⟨k + 1, hid, hc', hfree, fun j hj => ?_⟩
      cases j with
      | zero => exact hu
      | succ j => exact hskip j (Nat.lt_of_succ_lt_succ hj)
    · simp only [Prod.mk.injEq, Option.some.injEq] at h
      obtain ⟨rfl, rfl⟩ := h
      exact ⟨0, rfl, rfl, by simpa using hu, fun j hj => absurd hj j.not_lt_zero⟩

/-- No more distinct ids are in use than there are slots. -/
theorem card_le_of_idInUse (s : Finset UInt16) (h : ∀ id ∈ s, ct.idInUse id = true) :
    s.card ≤ ctCap := by
  classical
  have hsub : s ⊆ (ct.slots.map (·.wanId)).toFinset := by
    intro id hid
    obtain ⟨e, he, -, rfl⟩ :=
      (exists_mem_slots (p := fun e => e.used = true ∧ e.wanId = id)).2 (idInUse_iff.1 (h id hid))
    simp only [List.mem_toFinset, List.mem_map]
    exact ⟨e, he, rfl⟩
  calc s.card ≤ (ct.slots.map (·.wanId)).toFinset.card := Finset.card_le_card hsub
    _ ≤ (ct.slots.map (·.wanId)).length := List.toFinset_card_le _
    _ = ctCap := by rw [List.length_map, ct.size]

/-- **The allocator always finds a free id.**  A failed call would have probed a whole lap of
distinct ids, all in use. -/
theorem allocId_spec (hc : natLo ≤ ct.cursor) :
    ∃ id c', ct.allocId = ({ ct with cursor := c' }, some id) ∧
      ct.idInUse id = false ∧ natLo ≤ id ∧ natLo ≤ c' := by
  classical
  simp only [allocId, natSpan]
  rcases hp : ct.probe 16384 ct.cursor with ⟨r, c'⟩
  cases r with
  | some id =>
    obtain ⟨k, hid, rfl, hfree, -⟩ := probe_finds hp
    have hle : natLo ≤ id := hid ▸ le_iterate_nextId hc k
    exact ⟨id, _, rfl, hfree, hle, le_nextId hle⟩
  | none =>
    have hcard := card_le_of_idInUse ((Finset.range 16384).image fun k => nextId^[k] ct.cursor)
      (by
        intro id hid
        obtain ⟨k, hk, rfl⟩ := Finset.mem_image.1 hid
        exact probe_none hp k (Finset.mem_range.1 hk))
    rw [Finset.card_image_of_injOn (iterate_nextId_injOn hc le_rfl), Finset.card_range] at hcard
    simp [ctCap] at hcard

end Conntrack

/-! ### What one operation does -/

namespace CtState

variable {s s' : CtState}

/-- **Everything `outbound` can do**: refresh the slot that holds the flow, or, when no slot holds
it, write a new entry with a free id into the picked slot. -/
theorem outbound_cases {t : Tuple} {f : UInt8} {now : ℕ} {r : Option UInt16}
    (hc : natLo ≤ s.ct.cursor) (h : s.outbound t f now = (s', r)) :
    (∃ i < ctCap, (s.ct.slot i).used = true ∧ (s.ct.slot i).tuple = t ∧
      r = some (s.ct.slot i).wanId ∧
      s' = { s with
        ct := s.ct.setSlot i ((s.ct.slot i).touch f now)
        natOut := s.natOut + 1 }) ∨
    ((∀ i < ctCap, (s.ct.slot i).used = true → (s.ct.slot i).tuple ≠ t) ∧
      ∃ id c', s.ct.idInUse id = false ∧ natLo ≤ id ∧ natLo ≤ c' ∧ r = some id ∧
        s' = { s with
          ct := { s.ct.setSlot (s.ct.pickSlot now) (newEntry t id f now) with cursor := c' }
          natLive :=
            if (s.ct.slot (s.ct.pickSlot now)).used then s.natLive else s.natLive + 1
          natEvict :=
            if (s.ct.slot (s.ct.pickSlot now)).used then s.natEvict + 1 else s.natEvict
          natNew := s.natNew + 1
          natOut := s.natOut + 1 }) := by
  unfold outbound at h
  split at h
  · next i hi =>
    obtain ⟨hlt, hp⟩ := Conntrack.findIdx_some hi
    rw [Entry.isFlow_iff] at hp
    simp only [Prod.mk.injEq] at h
    exact .inl ⟨i, hlt, hp.1, hp.2, h.2.symm, h.1.symm⟩
  · next hnone =>
    obtain ⟨id, c', ha, hfree, hid, hc'⟩ := Conntrack.allocId_spec hc
    simp only [ha, Prod.mk.injEq] at h
    refine .inr ⟨fun i hi hu ht => ?_, id, c', hfree, hid, hc', h.2.symm, h.1.symm⟩
    have := Conntrack.findIdx_none.1 hnone i hi
    rw [Entry.isFlow_iff.2 ⟨hu, ht⟩] at this
    exact Bool.noConfusion this

/-- **Everything `inbound` can do**: refresh a live slot that the packet replies to and answer
with its LAN side, or nothing. -/
theorem inbound_cases {proto : Proto} {rip : Ipv4Address} {rid wid : UInt16} {f : UInt8} {now : ℕ}
    {r : Option (Ipv4Address × UInt16)} (h : s.inbound proto rip rid wid f now = (s', r)) :
    (∃ i < ctCap, (s.ct.slot i).isReply proto rip rid wid now = true ∧
      r = some ((s.ct.slot i).lanIp, (s.ct.slot i).lanId) ∧
      s' = { s with
        ct := s.ct.setSlot i ((s.ct.slot i).touch f now)
        natIn := s.natIn + 1 }) ∨
    ((∀ i < ctCap, (s.ct.slot i).isReply proto rip rid wid now = false) ∧ r = none ∧ s' = s) := by
  unfold inbound at h
  split at h
  · next i hi =>
    obtain ⟨hlt, hp⟩ := Conntrack.findIdx_some hi
    simp only [Prod.mk.injEq] at h
    exact .inl ⟨i, hlt, hp, h.2.symm, h.1.symm⟩
  · next hnone =>
    simp only [Prod.mk.injEq] at h
    exact .inr ⟨Conntrack.findIdx_none.1 hnone, h.2.symm, h.1.symm⟩

theorem slot_reap (s : CtState) (now i : ℕ) :
    (s.reap now).ct.slot i = reapEntry now (s.ct.slot i) := by
  simp only [reap, Conntrack.slot, List.getD_eq_getElem?_getD, List.getElem?_map]
  cases s.ct.slots[i]? <;> simp [reapEntry, Entry.empty]

theorem used_reapEntry {now : ℕ} {e : Entry} :
    (reapEntry now e).used = true ↔ e.used = true ∧ e.expired now = false := by
  unfold reapEntry
  cases hu : e.used <;> cases he : e.expired now <;> simp [hu]

/-- A slot that is used after `reap` was used before it, and is unchanged. -/
theorem slot_reap_of_used {now i : ℕ} (h : ((s.reap now).ct.slot i).used = true) :
    (s.ct.slot i).used = true ∧ (s.reap now).ct.slot i = s.ct.slot i := by
  rw [slot_reap] at h ⊢
  obtain ⟨hu, he⟩ := used_reapEntry.1 h
  exact ⟨hu, by simp [reapEntry, hu, he]⟩

theorem countP_reap (s : CtState) (now : ℕ) :
    (s.reap now).ct.slots.countP (·.used) +
      s.ct.slots.countP (fun e => e.used && e.expired now) = s.ct.slots.countP (·.used) := by
  simp only [reap]
  generalize s.ct.slots = l
  induction l with
  | nil => rfl
  | cons e l ih =>
    simp only [List.map_cons, List.countP_cons, Bool.and_eq_true, used_reapEntry]
    cases e.used <;> cases e.expired now <;> simp only [Bool.false_eq_true, and_true, and_false,
      if_true, if_false, reduceCtorEq] <;> omega

/-! ### The invariant -/

/-- The representation invariant. -/
structure Inv (s : CtState) : Prop where
  /-- WAN ids of used slots are in the NAT range. -/
  idRange : ∀ i < ctCap, (s.ct.slot i).used = true →
    natLo ≤ (s.ct.slot i).wanId ∧ (s.ct.slot i).wanId ≤ natHi
  cursorRange : natLo ≤ s.ct.cursor ∧ s.ct.cursor ≤ natHi
  /-- No two used slots share a WAN id. -/
  idsDistinct : ∀ i < ctCap, ∀ j < ctCap, (s.ct.slot i).used = true → (s.ct.slot j).used = true →
    (s.ct.slot i).wanId = (s.ct.slot j).wanId → i = j
  /-- No two used slots hold the same flow. -/
  flowsDistinct : ∀ i < ctCap, ∀ j < ctCap, (s.ct.slot i).used = true →
    (s.ct.slot j).used = true → (s.ct.slot i).tuple = (s.ct.slot j).tuple → i = j
  /-- The live counter counts the used slots. -/
  live : s.natLive.toNat = s.ct.slots.countP (·.used)

theorem le_natHi (id : UInt16) : id ≤ natHi := by
  have := id.toNat_lt
  rw [UInt16.le_iff_toNat_le, Conntrack.toNat_natHi]
  omega

/-- Every slot of the new table is free. -/
theorem used_slot_new (i : ℕ) : (CtState.new.ct.slot i).used = false := by
  simp only [Conntrack.slot, CtState.new, Conntrack.new, List.getD_eq_getElem?_getD,
    List.getElem?_replicate]
  split_ifs <;> rfl

theorem Inv.new : Inv CtState.new := by
  refine ⟨?_, ⟨UInt16.le_refl _, le_natHi _⟩, ?_, ?_, ?_⟩
  · intro i _ hu
    simp [used_slot_new] at hu
  · intro i _ j _ hu
    simp [used_slot_new] at hu
  · intro i _ j _ hu
    simp [used_slot_new] at hu
  · simp [CtState.new, Conntrack.new, List.countP_replicate, Entry.empty]

/-- No two used slots have the same `g`. -/
def UsedInj {α : Type} (ct : Conntrack) (g : Entry → α) : Prop :=
  ∀ i < ctCap, ∀ j < ctCap, (ct.slot i).used = true → (ct.slot j).used = true →
    g (ct.slot i) = g (ct.slot j) → i = j

section UsedInj

variable {α : Type} {ct ct' : Conntrack} {g : Entry → α}

/-- Slots may be freed. -/
theorem UsedInj.of_kept (h : UsedInj ct g) (hkept : ∀ i, (ct'.slot i).used = true →
    (ct.slot i).used = true ∧ ct'.slot i = ct.slot i) : UsedInj ct' g := by
  intro i hi j hj hui huj heq
  obtain ⟨hui', hei⟩ := hkept i hui
  obtain ⟨huj', hej⟩ := hkept j huj
  rw [hei, hej] at heq
  exact h i hi j hj hui' huj' heq

/-- A slot may be written with what no other has. -/
theorem UsedInj.setSlot (h : UsedInj ct g) {i : ℕ} {e : Entry}
    (hnew : ∀ j < ctCap, j ≠ i → (ct.slot j).used = true → g (ct.slot j) ≠ g e) :
    UsedInj (ct.setSlot i e) g := by
  intro j hj k hk huj huk heq
  simp only [Conntrack.slot_setSlot] at huj huk heq
  split_ifs at huj huk heq with hij hik hik
  · exact hij.1.symm.trans hik.1
  · exact absurd heq.symm (hnew k hk (fun hc => hik ⟨hc.symm, hk⟩) huk)
  · exact absurd heq (hnew j hj (fun hc => hij ⟨hc.symm, hj⟩) huj)
  · exact h j hj k hk huj huk heq

end UsedInj

/-- A step that writes slot `i` with an entry whose id and flow no other used slot has keeps the
invariant, if the live counter follows. -/
theorem Inv.setSlot (h : s.Inv) {i : ℕ} {e : Entry} (hid : natLo ≤ e.wanId)
    (hids : ∀ j < ctCap, j ≠ i → (s.ct.slot j).used = true → (s.ct.slot j).wanId ≠ e.wanId)
    (hflows : ∀ j < ctCap, j ≠ i → (s.ct.slot j).used = true → (s.ct.slot j).tuple ≠ e.tuple)
    (hslot : ∀ j, s'.ct.slot j = (s.ct.setSlot i e).slot j) (hcur : natLo ≤ s'.ct.cursor)
    (hlive : s'.natLive.toNat = s'.ct.slots.countP (·.used)) : s'.Inv := by
  have hval : ∀ j < ctCap, s'.ct.slot j = if i = j then e else s.ct.slot j := by
    intro j hj
    rw [hslot, Conntrack.slot_setSlot]
    simp [hj]
  refine ⟨?_, ⟨hcur, le_natHi _⟩, ?_, ?_, hlive⟩
  · intro j hj hu
    rw [hval j hj] at hu ⊢
    split_ifs at hu ⊢
    · exact ⟨hid, le_natHi _⟩
    · exact h.idRange j hj hu
  · have hinj : UsedInj s.ct (·.wanId) := h.idsDistinct
    exact (hinj.setSlot hids).of_kept fun j hu => ⟨hslot j ▸ hu, hslot j⟩
  · have hinj : UsedInj s.ct (·.tuple) := h.flowsDistinct
    exact (hinj.setSlot hflows).of_kept fun j hu => ⟨hslot j ▸ hu, hslot j⟩

/-- Refreshing a used slot keeps the invariant. -/
theorem Inv.touch (h : s.Inv) {i : ℕ} (hi : i < ctCap) (hu : (s.ct.slot i).used = true)
    {f : UInt8} {now : ℕ} (hct : s'.ct = s.ct.setSlot i ((s.ct.slot i).touch f now))
    (hlive : s'.natLive = s.natLive) : s'.Inv := by
  refine h.setSlot (i := i) (e := (s.ct.slot i).touch f now) (h.idRange i hi hu).1
    (fun j hj hji huj he => hji (h.idsDistinct j hj i hi huj hu he))
    (fun j hj hji huj he => hji (h.flowsDistinct j hj i hi huj hu he))
    (fun j => by rw [hct]) (by rw [hct]; exact h.cursorRange.1) ?_
  have hcount := Conntrack.countP_setSlot s.ct hi ((s.ct.slot i).touch f now)
  rw [Entry.used_touch] at hcount
  rw [hlive, h.live, hct]
  exact (Nat.add_right_cancel hcount).symm

theorem Inv.outbound (h : s.Inv) {t : Tuple} {f : UInt8} {now : ℕ} {r : Option UInt16}
    (hst : s.outbound t f now = (s', r)) : s'.Inv := by
  rcases outbound_cases h.cursorRange.1 hst with
    ⟨i, hi, hu, -, -, rfl⟩ | ⟨hnew, id, c', hfree, hid, hc', -, rfl⟩
  · exact h.touch hi hu rfl rfl
  · have hlt := s.ct.pickSlot_lt now
    refine h.setSlot (e := newEntry t id f now) hid ?_
      (fun j hj _ huj => hnew j hj huj) (fun j => rfl) hc' ?_
    · intro j hj _ huj he
      have : s.ct.idInUse id = true := Conntrack.idInUse_iff.2 ⟨j, hj, huj, he⟩
      rw [this] at hfree
      exact Bool.noConfusion hfree
    · have hcount := Conntrack.countP_setSlot s.ct hlt (newEntry t id f now)
      have hle := Conntrack.countP_used_le
        (s.ct.setSlot (s.ct.pickSlot now) (newEntry t id f now))
      have hl := h.live
      simp only [newEntry, ctCap, if_true] at hcount hle
      simp only [newEntry]
      split_ifs at hcount ⊢
      · omega
      · rw [UInt32.toNat_add, UInt32.toNat_one]
        omega

theorem Inv.inbound (h : s.Inv) {proto : Proto} {rip : Ipv4Address} {rid wid : UInt16} {f : UInt8}
    {now : ℕ} {r : Option (Ipv4Address × UInt16)}
    (hst : s.inbound proto rip rid wid f now = (s', r)) : s'.Inv := by
  rcases inbound_cases hst with ⟨i, hi, hp, -, rfl⟩ | ⟨-, -, rfl⟩
  · exact h.touch hi (Entry.isReply_iff.1 hp).1 rfl rfl
  · exact h

theorem Inv.reap (h : s.Inv) (now : ℕ) : (s.reap now).Inv := by
  refine ⟨?_, h.cursorRange, ?_, ?_, ?_⟩
  · intro i hi hu
    obtain ⟨hu', he⟩ := slot_reap_of_used hu
    rw [he]
    exact h.idRange i hi hu'
  · have hinj : UsedInj s.ct (·.wanId) := h.idsDistinct
    exact hinj.of_kept fun _ hu => slot_reap_of_used hu
  · have hinj : UsedInj s.ct (·.tuple) := h.flowsDistinct
    exact hinj.of_kept fun _ hu => slot_reap_of_used hu
  · have hcount := countP_reap s now
    have hle := s.ct.countP_used_le
    have hl := h.live
    simp only [ctCap] at hle
    have hn : (UInt32.ofNat (s.ct.slots.countP fun e => e.used && e.expired now)).toNat =
        s.ct.slots.countP fun e => e.used && e.expired now := by
      rw [UInt32.toNat_ofNat']
      omega
    change (s.natLive - UInt32.ofNat _).toNat = _
    rw [UInt32.toNat_sub_of_le, hn, hl]
    · omega
    · rw [UInt32.le_iff_toNat_le, hn, hl]
      omega

/-- **Every operation keeps the invariant.** -/
theorem Inv.step (h : s.Inv) {ev : CtEvent} (hst : ctStep s ev s') : s'.Inv := by
  cases ev with
  | outbound t f now r => exact h.outbound hst
  | inbound proto rip rid wid f now r => exact h.inbound hst
  | reap now =>
    obtain rfl : s.reap now = s' := hst
    exact h.reap now

end CtState

/-- Every reachable state of the table satisfies the invariant. -/
theorem ct_invariant {s : CtState} (h : ctSystem.Reachable s) : s.Inv :=
  h.invariant (by rintro _ rfl; exact .new) fun _ _ _ hI hst => hI.step hst

/-- **The conntrack table is well formed in every reachable state**, whatever the arguments and
clocks of the calls: the WAN ids of used slots are distinct and in range, as is the cursor, no two
used slots hold the same flow, the live counter counts the used slots, and so the allocator always
finds an id that no used slot has, and `outbound` never drops. -/
theorem conntrack_wellFormed {s : CtState} (h : ctSystem.Reachable s) :
    (∀ i < ctCap, ∀ j < ctCap, (s.ct.slot i).used = true → (s.ct.slot j).used = true →
      (s.ct.slot i).wanId = (s.ct.slot j).wanId → i = j) ∧
    (∀ i < ctCap, (s.ct.slot i).used = true →
      natLo ≤ (s.ct.slot i).wanId ∧ (s.ct.slot i).wanId ≤ natHi) ∧
    (natLo ≤ s.ct.cursor ∧ s.ct.cursor ≤ natHi) ∧
    (∀ i < ctCap, ∀ j < ctCap, (s.ct.slot i).used = true → (s.ct.slot j).used = true →
      (s.ct.slot i).tuple = (s.ct.slot j).tuple → i = j) ∧
    s.natLive.toNat = s.ct.slots.countP (·.used) ∧
    (∃ id, s.ct.allocId.2 = some id ∧ natLo ≤ id ∧ id ≤ natHi ∧
      ∀ i < ctCap, (s.ct.slot i).used = true → (s.ct.slot i).wanId ≠ id) ∧
    ∀ t f now, (s.outbound t f now).2 ≠ none ∧ (s.outbound t f now).1.natDrop = s.natDrop := by
  have hI := ct_invariant h
  refine ⟨hI.idsDistinct, hI.idRange, hI.cursorRange, hI.flowsDistinct, hI.live, ?_, ?_⟩
  · obtain ⟨id, c', ha, hfree, hlo, -⟩ := Conntrack.allocId_spec hI.cursorRange.1
    refine ⟨id, by rw [ha], hlo, CtState.le_natHi id, fun i hi hu hid => ?_⟩
    rw [Conntrack.idInUse_iff.2 ⟨i, hi, hu, hid⟩] at hfree
    cases hfree
  · intro t f now
    obtain ⟨⟨s', r⟩, hst⟩ : ∃ p, s.outbound t f now = p := ⟨_, rfl⟩
    rw [hst]
    rcases CtState.outbound_cases hI.cursorRange.1 hst with
      ⟨i, -, -, -, rfl, rfl⟩ | ⟨-, id, c', -, -, -, rfl, rfl⟩
    · exact ⟨by simp, rfl⟩
    · exact ⟨by simp, rfl⟩

/-- Slot `i` holds the flow `t` under the WAN id `wid`. -/
structure HoldsFlow (s : CtState) (i : ℕ) (t : Tuple) (wid : UInt16) : Prop where
  lt : i < ctCap
  used : (s.ct.slot i).used = true
  tuple : (s.ct.slot i).tuple = t
  wanId : (s.ct.slot i).wanId = wid

theorem step_outbound {s : CtState} {t : Tuple} {f : UInt8} {now : ℕ} {r : Option UInt16}
    (h : (s.outbound t f now).2 = r) :
    ctSystem.step s (.outbound t f now r) (s.outbound t f now).1 :=
  show s.outbound t f now = ((s.outbound t f now).1, r) from h ▸ rfl

theorem step_inbound {s : CtState} {proto : Proto} {rip : Ipv4Address} {rid wid : UInt16}
    {f : UInt8} {now : ℕ} {r : Option (Ipv4Address × UInt16)}
    (h : (s.inbound proto rip rid wid f now).2 = r) :
    ctSystem.step s (.inbound proto rip rid wid f now r) (s.inbound proto rip rid wid f now).1 :=
  show s.inbound proto rip rid wid f now = ((s.inbound proto rip rid wid f now).1, r) from h ▸ rfl

/-- A table that holds one flow is well formed, and a second flow gets an id. -/
theorem conntrack_wellFormed_oneFlow :
    ((CtState.new.outbound ⟨.udp, ⟨192, 168, 4, 10⟩, 5353, ⟨8, 8, 8, 8⟩, 53⟩ 0 7).1.outbound
      ⟨.tcp, ⟨192, 168, 4, 11⟩, 40000, ⟨1, 1, 1, 1⟩, 443⟩ 2 9).2 ≠ none :=
  ((conntrack_wellFormed ((System.Reachable.init rfl).step (step_outbound rfl))).2.2.2.2.2.2 _ _ _).1

end Pico10BaseT
