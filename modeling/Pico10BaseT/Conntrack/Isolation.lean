import Pico10BaseT.Conntrack.Invariant

/-!
# What the table remembers of its run

WAN ids are recycled through the rolling cursor while entries expire, are reaped, evicted and
revived.  `Hist` relates the table to the labels of the run that led to it: a used slot holds the
flow to which its WAN id was last granted, and its `lastSeen` is the time of that flow's last
packet.  An answer of `inbound` is therefore an answer about the past (`inbound_isolated`).
-/

namespace Pico10BaseT

namespace CtEvent

/-- `ev` is a packet of the flow `t` under the WAN id `wid`: an outbound packet that got `wid`, or
an inbound packet that was matched to the flow. -/
def isPacketOf (t : Tuple) (wid : UInt16) : CtEvent → Bool
  | outbound t' _ _ r => t' = t && r = some wid
  | inbound proto rip rid w _ _ r =>
    proto = t.proto && rip = t.dstIp && rid = t.dstId && w = wid &&
      r = some (t.srcIp, t.srcId)
  | reap _ => false

/-- The flow that `ev` grants the WAN id `wid`, if any. -/
def grants (wid : UInt16) : CtEvent → Option Tuple
  | outbound t _ _ r => if r = some wid then some t else none
  | _ => none

end CtEvent

/-- The flow of the most recent `outbound` call that returned `wid`. -/
def lastGranted (tr : List CtEvent) (wid : UInt16) : Option Tuple :=
  tr.foldl (fun acc ev => (ev.grants wid).or acc) none

/-- The time of the most recent packet of the flow `t` under `wid`. -/
def lastPacket (tr : List CtEvent) (t : Tuple) (wid : UInt16) : Option ℕ :=
  tr.foldl (fun acc ev => if ev.isPacketOf t wid then some ev.time else acc) none

theorem lastGranted_snoc (tr : List CtEvent) (ev : CtEvent) (wid : UInt16) :
    lastGranted (tr ++ [ev]) wid = (ev.grants wid).or (lastGranted tr wid) := by
  simp [lastGranted, List.foldl_append]

theorem lastPacket_snoc (tr : List CtEvent) (ev : CtEvent) (t : Tuple) (wid : UInt16) :
    lastPacket (tr ++ [ev]) t wid =
      if ev.isPacketOf t wid then some ev.time else lastPacket tr t wid := by
  simp [lastPacket, List.foldl_append]

/-- A granted id was granted by a call of the run. -/
theorem exists_outbound_of_lastGranted {tr : List CtEvent} {wid : UInt16} {t : Tuple}
    (h : lastGranted tr wid = some t) :
    ∃ f now, CtEvent.outbound t f now (some wid) ∈ tr := by
  induction tr using List.reverseRecOn with
  | nil => simp [lastGranted] at h
  | append_singleton tr ev ih =>
    rw [lastGranted_snoc, Option.or_eq_some_iff] at h
    rcases h with h | ⟨-, h⟩
    · cases ev with
      | outbound t' f now r =>
        simp only [CtEvent.grants, Option.ite_none_right_eq_some, Option.some.injEq] at h
        obtain ⟨rfl, rfl⟩ := h
        exact ⟨f, now, by simp⟩
      | inbound => simp [CtEvent.grants] at h
      | reap => simp [CtEvent.grants] at h
    · obtain ⟨f, now, hm⟩ := ih h
      exact ⟨f, now, List.mem_append_left _ hm⟩

/-- The time of a packet of the run is the time of one of its labels. -/
theorem exists_time_of_lastPacket {tr : List CtEvent} {t : Tuple} {wid : UInt16} {last : ℕ}
    (h : lastPacket tr t wid = some last) : ∃ ev ∈ tr, ev.time = last := by
  induction tr using List.reverseRecOn with
  | nil => simp [lastPacket] at h
  | append_singleton tr ev ih =>
    rw [lastPacket_snoc] at h
    split_ifs at h
    · exact ⟨ev, by simp, by simpa using h⟩
    · obtain ⟨ev', hm, ht⟩ := ih h
      exact ⟨ev', List.mem_append_left _ hm, ht⟩

/-- The table agrees with the labels of its run. -/
structure Hist (tr : List CtEvent) (s : CtState) : Prop where
  /-- A used slot holds the flow its WAN id was last granted to. -/
  granted : ∀ i < ctCap, (s.ct.slot i).used = true →
    lastGranted tr (s.ct.slot i).wanId = some (s.ct.slot i).tuple
  /-- A used slot was last seen at the last packet of its flow. -/
  seen : ∀ i < ctCap, (s.ct.slot i).used = true →
    lastPacket tr (s.ct.slot i).tuple (s.ct.slot i).wanId = some (s.ct.slot i).lastSeen

namespace Hist

variable {tr : List CtEvent} {s s' : CtState} {ev : CtEvent}

/-- A step that writes only slot `i` keeps the agreement, if its label is a packet of the flow in
the new entry `e`, grants that entry's id to nobody else, and concerns no other used slot. -/
theorem setSlot (h : Hist tr s) {i : ℕ} {e : Entry}
    (hslot : ∀ j, s'.ct.slot j = (s.ct.setSlot i e).slot j)
    (hg : (ev.grants e.wanId).or (lastGranted tr e.wanId) = some e.tuple)
    (hp : ev.isPacketOf e.tuple e.wanId = true) (ht : ev.time = e.lastSeen)
    (hother : ∀ j < ctCap, j ≠ i → (s.ct.slot j).used = true →
      ev.grants (s.ct.slot j).wanId = none ∧
        ev.isPacketOf (s.ct.slot j).tuple (s.ct.slot j).wanId = false) :
    Hist (tr ++ [ev]) s' := by
  have hval : ∀ j < ctCap, s'.ct.slot j = if i = j then e else s.ct.slot j := by
    intro j hj
    rw [hslot, Conntrack.slot_setSlot]
    simp [hj]
  constructor
  · intro j hj hu
    rw [lastGranted_snoc]
    rw [hval j hj] at hu ⊢
    split_ifs at hu ⊢ with hij
    · exact hg
    · rw [(hother j hj (Ne.symm hij) hu).1, Option.none_or]
      exact h.granted j hj hu
  · intro j hj hu
    rw [lastPacket_snoc]
    rw [hval j hj] at hu ⊢
    by_cases hij : i = j
    · rw [if_pos hij, if_pos hp, ht]
    · rw [if_neg hij] at hu
      rw [if_neg hij, (hother j hj (Ne.symm hij) hu).2]
      exact h.seen j hj hu

theorem outbound (h : Hist tr s) (hI : s.Inv) {t : Tuple} {f : UInt8} {now : ℕ}
    {r : Option UInt16} (hst : s.outbound t f now = (s', r)) :
    Hist (tr ++ [.outbound t f now r]) s' := by
  rcases CtState.outbound_cases hI.cursorRange.1 hst with
    ⟨i, hi, hu, htup, rfl, rfl⟩ | ⟨hnew, id, c', hfree, -, -, rfl, rfl⟩
  · -- the flow is in slot `i`: no other used slot has its id
    refine h.setSlot (i := i) (e := (s.ct.slot i).touch f now) (fun j => rfl) ?_ ?_ rfl ?_
    · simp [CtEvent.grants, htup]
    · simp [CtEvent.isPacketOf, htup]
    · intro j hj hji huj
      have hne : (s.ct.slot i).wanId ≠ (s.ct.slot j).wanId := fun he =>
        hji (hI.idsDistinct j hj i hi huj hu he.symm)
      simp [CtEvent.grants, CtEvent.isPacketOf, hne]
  · -- a new flow: the id was free
    refine h.setSlot (i := s.ct.pickSlot now) (e := CtState.newEntry t id f now) (fun j => rfl)
      ?_ ?_ rfl ?_
    · simp [CtEvent.grants, CtState.newEntry, Entry.tuple]
    · simp [CtEvent.isPacketOf, CtState.newEntry, Entry.tuple]
    · intro j hj _ huj
      have hne : id ≠ (s.ct.slot j).wanId := by
        rintro rfl
        rw [Conntrack.idInUse_iff.2 ⟨j, hj, huj, rfl⟩] at hfree
        exact Bool.noConfusion hfree
      simp [CtEvent.grants, CtEvent.isPacketOf, hne]

theorem inbound (h : Hist tr s) (hI : s.Inv) {proto : Proto} {rip : Ipv4Address}
    {rid wid : UInt16} {f : UInt8} {now : ℕ} {r : Option (Ipv4Address × UInt16)}
    (hst : s.inbound proto rip rid wid f now = (s', r)) :
    Hist (tr ++ [.inbound proto rip rid wid f now r]) s' := by
  rcases CtState.inbound_cases hst with ⟨i, hi, hp, rfl, rfl⟩ | ⟨-, rfl, rfl⟩
  · obtain ⟨hu, hw, htup, -⟩ := Entry.isReply_iff.1 hp
    refine h.setSlot (i := i) (e := (s.ct.slot i).touch f now) (fun j => rfl) ?_ ?_ rfl ?_
    · simpa [CtEvent.grants] using h.granted i hi hu
    · rw [Entry.tuple_touch, Entry.wanId_touch, htup]
      simp [CtEvent.isPacketOf, hw]
    · intro j hj hji huj
      have hne : wid ≠ (s.ct.slot j).wanId := fun he =>
        hji (hI.idsDistinct j hj i hi huj hu (he.symm.trans hw.symm))
      simp [CtEvent.grants, CtEvent.isPacketOf, hne]
  · constructor
    · intro j hj hu
      rw [lastGranted_snoc]
      simpa [CtEvent.grants] using h.granted j hj hu
    · intro j hj hu
      rw [lastPacket_snoc]
      simpa [CtEvent.isPacketOf] using h.seen j hj hu

theorem reap (h : Hist tr s) (now : ℕ) : Hist (tr ++ [.reap now]) (s.reap now) := by
  constructor
  · intro j hj hu
    obtain ⟨hu', he⟩ := CtState.slot_reap_of_used hu
    rw [lastGranted_snoc, he]
    simpa [CtEvent.grants] using h.granted j hj hu'
  · intro j hj hu
    obtain ⟨hu', he⟩ := CtState.slot_reap_of_used hu
    rw [lastPacket_snoc, he]
    simpa [CtEvent.isPacketOf] using h.seen j hj hu'

theorem step (h : Hist tr s) (hI : s.Inv) (hst : ctStep s ev s') : Hist (tr ++ [ev]) s' := by
  cases ev with
  | outbound t f now r => exact h.outbound hI hst
  | inbound proto rip rid wid f now r => exact h.inbound hI hst
  | reap now =>
    obtain rfl : s.reap now = s' := hst
    exact h.reap now

end Hist

/-- Every run leaves a table that agrees with its labels. -/
theorem ct_hist {tr : List CtEvent} {s : CtState} (h : ctSystem.Run tr s) : Hist tr s := by
  refine h.induction (J := Hist) ?_ fun ls s l s' hrun hJ hst =>
    hJ.step (ct_invariant ⟨ls, hrun⟩) hst
  rintro _ rfl
  constructor
  · intro i _ hu
    simp [CtState.used_slot_new] at hu
  · intro i _ hu
    simp [CtState.used_slot_new] at hu

/-- **Isolation between clients.**  When, after a run with a non-decreasing clock, an inbound
packet is answered with a LAN side, the most recent `outbound` call that returned its WAN id was
made for exactly that client and that remote, and the flow's last packet, in either direction,
is less than the flow's idle timeout ago. -/
theorem inbound_isolated {tr : List CtEvent} {s s' : CtState} {proto : Proto}
    {rip lanIp : Ipv4Address} {rid wid lanId : UInt16} {f : UInt8} {now : ℕ}
    (h : ctSystem.Run tr s)
    (hclk : Clocked (tr ++ [.inbound proto rip rid wid f now (some (lanIp, lanId))]))
    (hst : ctSystem.step s (.inbound proto rip rid wid f now (some (lanIp, lanId))) s') :
    lastGranted tr wid = some ⟨proto, lanIp, lanId, rip, rid⟩ ∧
    (∃ f' now', CtEvent.outbound ⟨proto, lanIp, lanId, rip, rid⟩ f' now' (some wid) ∈ tr) ∧
    ∃ i < ctCap, (s.ct.slot i).used = true ∧ (s.ct.slot i).wanId = wid ∧
      (s.ct.slot i).tuple = ⟨proto, lanIp, lanId, rip, rid⟩ ∧
      ∃ last, lastPacket tr ⟨proto, lanIp, lanId, rip, rid⟩ wid = some last ∧
        last ≤ now ∧ now - last < (s.ct.slot i).timeoutMs := by
  have hH := ct_hist h
  rcases CtState.inbound_cases hst with ⟨i, hi, hp, hr, -⟩ | ⟨-, hr, -⟩
  swap
  · simp at hr
  simp only [Option.some.injEq, Prod.mk.injEq] at hr
  obtain ⟨rfl, rfl⟩ := hr
  obtain ⟨hu, rfl, htup, hlive⟩ := Entry.isReply_iff.1 hp
  have hgr := hH.granted i hi hu
  have hseen := hH.seen i hi hu
  rw [htup] at hgr hseen
  refine ⟨hgr, exists_outbound_of_lastGranted hgr, i, hi, hu, rfl, htup, _, hseen, ?_, hlive⟩
  obtain ⟨ev, hev, hev'⟩ := exists_time_of_lastPacket hseen
  rw [← hev']
  exact (List.pairwise_append.1 hclk).2.2 ev hev _ List.mem_cons_self

/-- A DNS reply two milliseconds after the query that opened the flow. -/
theorem inbound_isolated_dns :
    lastGranted [.outbound ⟨.udp, ⟨192, 168, 4, 10⟩, 5353, ⟨8, 8, 8, 8⟩, 53⟩ 0 7 (some 49152)]
      49152 = some ⟨.udp, ⟨192, 168, 4, 10⟩, 5353, ⟨8, 8, 8, 8⟩, 53⟩ :=
  (inbound_isolated
    ((System.Run.init rfl).snoc (step_outbound (r := some 49152) (by decide +kernel)))
    (by simp [Clocked, CtEvent.time])
    (show ctSystem.step _ (.inbound .udp ⟨8, 8, 8, 8⟩ 53 49152 0 9 _) _ from
      step_inbound (r := some (⟨192, 168, 4, 10⟩, 5353)) (by decide +kernel))).1

end Pico10BaseT
