import Pico10BaseT.Alloc.Rolling
import Pico10BaseT.Conntrack.Invariant

/-!
# How soon a WAN id comes back

The table as a rolling allocator: `alloc_id` hands out the first id from the cursor on that no used
slot has, and slots give their ids back by being reaped or overwritten.  The reuse distance of
rolling allocators is then that of WAN ids.

* `outbound_finds` : a new flow gets the id that the allocator finds.
* `rolls_step` : every operation is a step of the rolling allocator.
* `wanId_reuse_distance` : the distance between two flows that are created with the same id.
-/

namespace Pico10BaseT

namespace Conntrack

variable {ct : Conntrack}

/-- The ids of the used slots. -/
def usedIds (ct : Conntrack) : Finset UInt16 :=
  ((ct.slots.filter (·.used)).map (·.wanId)).toFinset

theorem mem_usedIds {id : UInt16} : id ∈ ct.usedIds ↔ ct.idInUse id = true := by
  simp [usedIds, idInUse, and_assoc]

theorem card_usedIds_le (ct : Conntrack) : ct.usedIds.card ≤ ctCap :=
  card_le_of_idInUse _ fun _ h => mem_usedIds.1 h

/-- Only the written slot can bring an id into use. -/
theorem usedIds_setSlot_subset (ct : Conntrack) (i : ℕ) (e : Entry) :
    (ct.setSlot i e).usedIds ⊆ insert e.wanId ct.usedIds := by
  intro id hid
  obtain ⟨j, hj, hu, hw⟩ := idInUse_iff.1 (mem_usedIds.1 hid)
  rw [slot_setSlot] at hu hw
  split_ifs at hu hw
  · exact Finset.mem_insert.2 (.inl hw.symm)
  · exact Finset.mem_insert_of_mem (mem_usedIds.2 (idInUse_iff.2 ⟨j, hj, hu, hw⟩))

end Conntrack

/-- The table as a rolling allocator. -/
def CtState.rolls (s : CtState) : Rolling UInt16 := ⟨s.ct.cursor, s.ct.usedIds⟩

namespace CtEvent

/-- The table after an operation. -/
def after (s : CtState) : CtEvent → CtState
  | outbound t f now _ => (s.outbound t f now).1
  | inbound proto rip rid wid f now _ => (s.inbound proto rip rid wid f now).1
  | reap now => s.reap now

/-- The id of the flow that an operation creates: a call of `outbound` whose flow no slot holds. -/
def creates (s : CtState) : CtEvent → Option UInt16
  | outbound t _ _ r => if s.ct.slots.any fun e => e.isFlow t then none else r
  | _ => none

end CtEvent

/-- A run replayed from the new table: its end, and what each operation creates. -/
def replay (tr : List CtEvent) : CtState × List (Option UInt16) :=
  tr.foldl (fun p ev => (ev.after p.1, p.2 ++ [ev.creates p.1])) (.new, [])

/-- The ids of the flows that a run creates, in order. -/
def createdIds (tr : List CtEvent) : List UInt16 := (replay tr).2.filterMap id

theorem replay_snoc (tr : List CtEvent) (ev : CtEvent) :
    replay (tr ++ [ev]) =
      (ev.after (replay tr).1, (replay tr).2 ++ [ev.creates (replay tr).1]) :=
  List.foldl_concat ..

variable {s s' : CtState} {ev : CtEvent}

/-- The flow of a call of `outbound` is new if no slot holds it. -/
theorem any_isFlow_eq_false {t : Tuple} (h : ∀ i < ctCap, (s.ct.slot i).used = true →
    (s.ct.slot i).tuple ≠ t) : (s.ct.slots.any fun e => e.isFlow t) = false := by
  rw [List.any_eq_false]
  intro e he hf
  obtain ⟨i, hi, hf⟩ :=
    (Conntrack.exists_mem_slots (p := fun e => e.isFlow t = true)).1 ⟨e, he, hf⟩
  exact h i hi (Entry.isFlow_iff.1 hf).1 (Entry.isFlow_iff.1 hf).2

/-- A new flow gets the id the allocator finds. -/
theorem outbound_finds {t : Tuple} {f : UInt8} {now : ℕ} {r : Option UInt16}
    (h : s.outbound t f now = (s', r)) (hc : natLo ≤ s.ct.cursor)
    (hnew : ∀ i < ctCap, (s.ct.slot i).used = true → (s.ct.slot i).tuple ≠ t) :
    ∃ wid, r = some wid ∧ s.rolls.Finds Conntrack.nextId wid ∧
      s'.ct.cursor = Conntrack.nextId wid := by
  unfold CtState.outbound at h
  split at h
  · next i hi =>
    obtain ⟨hlt, hp⟩ := Conntrack.findIdx_some hi
    exact absurd (Entry.isFlow_iff.1 hp).2 (hnew i hlt (Entry.isFlow_iff.1 hp).1)
  · obtain ⟨id, c', ha, -⟩ := Conntrack.allocId_spec hc
    simp only [ha, Prod.mk.injEq] at h
    obtain ⟨rfl, rfl⟩ := h
    refine ⟨id, rfl, ?_⟩
    have hprobe : s.ct.probe ((natHi - natLo).toNat + 1) s.ct.cursor = (some id, c') := by
      simp only [Conntrack.allocId, Prod.mk.injEq] at ha
      exact Prod.ext ha.2 (congrArg Conntrack.cursor ha.1)
    obtain ⟨k, hid, hc', hfree, hskip⟩ := Conntrack.probe_finds hprobe
    refine ⟨⟨k, hid, ?_, fun j hj => Conntrack.mem_usedIds.2 (hskip j hj)⟩, hc'⟩
    intro hmem
    rw [Conntrack.mem_usedIds.1 hmem] at hfree
    cases hfree

/-- A used slot that is written again keeps its id in use, and no other comes into use. -/
theorem usedIds_touch_subset {i : ℕ} (hi : i < ctCap) (hu : (s.ct.slot i).used = true) (f : UInt8)
    (now : ℕ) : (s.ct.setSlot i ((s.ct.slot i).touch f now)).usedIds ⊆ s.ct.usedIds := by
  refine (Conntrack.usedIds_setSlot_subset _ _ _).trans (Finset.insert_subset ?_ (subset_refl _))
  exact Conntrack.mem_usedIds.2 (Conntrack.idInUse_iff.2 ⟨i, hi, hu, rfl⟩)

/-- **The table is a rolling allocator**: a call that creates a flow hands out its id, and no other
operation brings an id into use. -/
theorem rolls_step (hI : s.Inv) (hst : ctStep s ev s') :
    s.rolls.Step Conntrack.nextId (ev.creates s) s'.rolls := by
  cases ev with
  | outbound t f now r =>
    rcases CtState.outbound_cases hI.cursorRange.1 hst with
      ⟨i, hi, hu, htup, -, rfl⟩ | ⟨hnew, id, c', -, -, -, hr, hs'⟩
    · have hany : (s.ct.slots.any fun e => e.isFlow t) = true := by
        rw [List.any_eq_true]
        exact (Conntrack.exists_mem_slots (p := fun e => e.isFlow t = true)).2
          ⟨i, hi, Entry.isFlow_iff.2 ⟨hu, htup⟩⟩
      simp only [CtEvent.creates, hany, if_true]
      exact ⟨rfl, usedIds_touch_subset hi hu f now⟩
    · simp only [CtEvent.creates, any_isFlow_eq_false hnew, Bool.false_eq_true, if_false]
      obtain ⟨wid, hwid, hfinds, hcur⟩ := outbound_finds hst hI.cursorRange.1 hnew
      obtain rfl : id = wid := Option.some.inj (hr.symm.trans hwid)
      rw [hwid]
      have hids : s'.ct.usedIds = (s.ct.setSlot (s.ct.pickSlot now)
          (CtState.newEntry t id f now)).usedIds := by
        rw [hs']
        rfl
      refine ⟨hfinds, hcur, ?_, ?_⟩
      · show id ∈ s'.ct.usedIds
        have hk := s.ct.pickSlot_lt now
        rw [hids, Conntrack.mem_usedIds, Conntrack.idInUse_iff]
        refine ⟨s.ct.pickSlot now, hk, ?_⟩
        rw [Conntrack.slot_setSlot, if_pos ⟨rfl, hk⟩]
        exact ⟨rfl, rfl⟩
      · show s'.ct.usedIds ⊆ _
        rw [hids]
        exact Conntrack.usedIds_setSlot_subset _ _ _
  | inbound proto rip rid w f now r =>
    rcases CtState.inbound_cases hst with ⟨j, hj, hp, -, rfl⟩ | ⟨-, -, rfl⟩
    · exact ⟨rfl, usedIds_touch_subset hj (Entry.isReply_iff.1 hp).1 f now⟩
    · exact ⟨rfl, subset_refl _⟩
  | reap now =>
    obtain rfl : s.reap now = s' := hst
    refine ⟨rfl, fun id hid => ?_⟩
    obtain ⟨j, hj, hu, hw⟩ := Conntrack.idInUse_iff.1 (Conntrack.mem_usedIds.1 hid)
    obtain ⟨hu', he⟩ := CtState.slot_reap_of_used hu
    exact Conntrack.mem_usedIds.2 (Conntrack.idInUse_iff.2 ⟨j, hj, hu', he ▸ hw⟩)

/-- A run ends where its replay does, and is a run of the rolling allocator. -/
theorem rolls_run {tr : List CtEvent} (h : ctSystem.Run tr s) :
    (replay tr).1 = s ∧
      (Rolling.system Conntrack.nextId natLo ctCap).Run (replay tr).2 s.rolls := by
  refine h.induction (J := fun tr s => (replay tr).1 = s ∧
    (Rolling.system Conntrack.nextId natLo ctCap).Run (replay tr).2 s.rolls) ?_ ?_
  · rintro s rfl
    refine ⟨rfl, .init ⟨rfl, ?_⟩⟩
    rw [Finset.eq_empty_iff_forall_notMem]
    intro id hid
    obtain ⟨i, -, hu, -⟩ := Conntrack.idInUse_iff.1 (Conntrack.mem_usedIds.1 hid)
    rw [CtState.used_slot_new] at hu
    cases hu
  · rintro tr s ev s' hrun ⟨hreplay, hroll⟩ hst
    rw [replay_snoc, hreplay]
    refine ⟨?_, hroll.snoc ⟨rolls_step (ct_invariant ⟨tr, hrun⟩) hst, s'.ct.card_usedIds_le⟩⟩
    cases ev with
    | outbound => exact congrArg Prod.fst hst
    | inbound => exact congrArg Prod.fst hst
    | reap => exact hst

/-- **WAN id reuse distance.**  In any run, two flow creations with fewer than
`(NAT_HI - NAT_LO + 1) - CT_CAP = 16320` other creations between them return different ids. -/
theorem wanId_reuse_distance {tr : List CtEvent} {s : CtState} (h : ctSystem.Run tr s) {i j : ℕ}
    (hij : i < j) (hj : j < (createdIds tr).length)
    (hnear : j - i - 1 < natHi.toNat - natLo.toNat + 1 - ctCap) :
    natHi.toNat - natLo.toNat + 1 - ctCap = 16320 ∧ (createdIds tr)[i]? ≠ (createdIds tr)[j]? := by
  have hspan : natHi.toNat - natLo.toNat + 1 - ctCap = 16384 - 64 := rfl
  refine ⟨rfl, fun heq => ?_⟩
  have hlap : ∀ i j, i < j → j < i + 16384 →
      Conntrack.nextId^[i] natLo ≠ Conntrack.nextId^[j] natLo := by
    intro a b hab hb heq
    have hnat := congrArg UInt16.toNat heq
    rw [Conntrack.toNat_iterate_nextId (UInt16.le_refl natLo),
      Conntrack.toNat_iterate_nextId (UInt16.le_refl natLo)] at hnat
    omega
  have hget := List.getElem?_eq_getElem hj
  have hdist := Rolling.distance hlap (rolls_run h).2 hij (heq.trans hget) hget
  rw [hspan] at hnear
  exact absurd hnear (Nat.not_lt.2 hdist)

/-- Two DNS queries of different clients. -/
theorem wanId_reuse_distance_dns :
    (createdIds [.outbound ⟨.udp, ⟨192, 168, 4, 10⟩, 5353, ⟨8, 8, 8, 8⟩, 53⟩ 0 7 (some 49152),
      .outbound ⟨.udp, ⟨192, 168, 4, 11⟩, 5353, ⟨8, 8, 8, 8⟩, 53⟩ 0 9 (some 49153)])[0]? ≠
    (createdIds [.outbound ⟨.udp, ⟨192, 168, 4, 10⟩, 5353, ⟨8, 8, 8, 8⟩, 53⟩ 0 7 (some 49152),
      .outbound ⟨.udp, ⟨192, 168, 4, 11⟩, 5353, ⟨8, 8, 8, 8⟩, 53⟩ 0 9 (some 49153)])[1]? :=
  (wanId_reuse_distance
    (((System.Run.init rfl).snoc (step_outbound (by decide +kernel))).snoc
      (step_outbound (by decide +kernel))) Nat.zero_lt_one (by decide +kernel) (by decide)).2

end Pico10BaseT
