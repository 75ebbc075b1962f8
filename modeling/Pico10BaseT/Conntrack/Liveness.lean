import Pico10BaseT.Conntrack.Isolation

/-!
# Which flows the table loses

An entry is *live* while its flow is not idle for longer than its timeout.  `reap` removes exactly
the other entries, and `pickSlot` gives up a live entry only when all of them are, and then one of
those seen longest ago (`CtState.reap_live`, `CtState.outbound_overwrites`).

What follows for a whole run is about one flow: `flowAfter` reads its last packet and its TCP state
off the labels alone, and `Tracks` says that the table holds the flow in just that state, or that
the run has let it idle too long.  Below capacity every step keeps `Tracks`, so a flow that is kept
alive never changes its WAN id (`liveFlows_kept`).
-/

namespace Pico10BaseT

/-! ### Live entries -/

/-- The entry is used and its idle timeout has not run out. -/
def Entry.live (e : Entry) (nowMs : ℕ) : Bool := e.used && decide (nowMs - e.lastSeen < e.timeoutMs)

theorem Entry.live_iff {e : Entry} {now : ℕ} :
    e.live now = true ↔ e.used = true ∧ e.expired now = false := by
  rw [Entry.not_expired_iff]
  simp [Entry.live]

namespace CtState

variable {s s' : CtState}

/-- **`reap` removes exactly the entries that are not live.** -/
theorem reap_live (s : CtState) (now i : ℕ) :
    ((s.reap now).ct.slot i).used = (s.ct.slot i).live now ∧
      ((s.ct.slot i).live now = true → (s.reap now).ct.slot i = s.ct.slot i) := by
  have hused : ((s.reap now).ct.slot i).used = true ↔ (s.ct.slot i).live now = true := by
    rw [slot_reap, used_reapEntry, Entry.live_iff]
  exact ⟨Bool.eq_iff_iff.2 hused, fun h => (slot_reap_of_used (hused.2 h)).2⟩

/-- **Eviction is LRU.**  A call that creates a flow overwrites one slot, and a live one only if
all of them are live and none was seen before it. -/
theorem outbound_overwrites {t : Tuple} {f : UInt8} {now : ℕ} {r : Option UInt16}
    (hc : natLo ≤ s.ct.cursor) (h : s.outbound t f now = (s', r))
    (hnew : ∀ i < ctCap, (s.ct.slot i).used = true → (s.ct.slot i).tuple ≠ t) :
    ∃ k < ctCap, (∀ j < ctCap, j ≠ k → s'.ct.slot j = s.ct.slot j) ∧
      (∃ wid, r = some wid ∧ s'.ct.slot k = newEntry t wid f now) ∧
      ((s.ct.slot k).live now = true →
        ∀ i < ctCap, (s.ct.slot i).live now = true ∧
          (s.ct.slot k).lastSeen ≤ (s.ct.slot i).lastSeen) := by
  rcases outbound_cases hc h with ⟨i, hi, hu, ht, -⟩ | ⟨-, id, c', -, -, -, rfl, rfl⟩
  · exact absurd ht (hnew i hi hu)
  have hslot : ∀ j, Conntrack.slot
      { s.ct.setSlot (s.ct.pickSlot now) (newEntry t id f now) with cursor := c' } j =
        (s.ct.setSlot (s.ct.pickSlot now) (newEntry t id f now)).slot j := fun _ => rfl
  obtain ⟨hk, hpick⟩ := s.ct.pickSlot_cases now
  refine ⟨s.ct.pickSlot now, hk, fun j _ hj => ?_, ⟨id, rfl, ?_⟩, fun hlive => ?_⟩
  · rw [hslot, Conntrack.slot_setSlot, if_neg fun hc => hj hc.1.symm]
  · rw [hslot, Conntrack.slot_setSlot, if_pos ⟨rfl, hk⟩]
  · obtain ⟨hu, he⟩ := Entry.live_iff.1 hlive
    rcases hpick with h | h | h
    · rw [hu] at h
      exact Bool.noConfusion h
    · rw [he] at h
      exact Bool.noConfusion h
    · intro i hi
      obtain ⟨hui, hei, hle⟩ := h i hi
      exact ⟨Entry.live_iff.2 ⟨hui, hei⟩, hle⟩

end CtState

/-! ### One flow, as the labels tell it -/

namespace CtEvent

/-- The flags an operation was called with. -/
def tcpFlags : CtEvent → UInt8
  | outbound _ f _ _ => f
  | inbound _ _ _ _ f _ _ => f
  | reap _ => 0

/-- `ev` is sent by the LAN side of the flow `t`. -/
def isOutboundOf (t : Tuple) : CtEvent → Bool
  | outbound t' _ _ _ => t' = t
  | _ => false

/-- `ev` is a packet of the flow `t` that has the WAN id `wid`, in either direction, whatever the
table answers. -/
def isFlowPacket (t : Tuple) (wid : UInt16) : CtEvent → Bool
  | outbound t' _ _ _ => t' = t
  | inbound proto rip rid w _ _ _ =>
    proto = t.proto && rip = t.dstIp && rid = t.dstId && w = wid
  | reap _ => false

/-- The answer that a packet of the flow `t` gets while the table holds it under `wid`. -/
def Served (t : Tuple) (wid : UInt16) : CtEvent → Prop
  | outbound _ _ _ r => r = some wid
  | inbound _ _ _ _ _ _ r => r = some (t.srcIp, t.srcId)
  | reap _ => True

/-- The id that `ev` hands to the flow `t`, if any. -/
def grantTo (t : Tuple) : CtEvent → Option UInt16
  | outbound t' _ _ r => if t' = t then r else none
  | _ => none

end CtEvent

/-- The id that the first call for `t` returned. -/
def firstGrant (t : Tuple) (tr : List CtEvent) : Option UInt16 := tr.findSome? (·.grantTo t)

/-- What the timeout of a flow depends on. -/
structure FlowState where
  lastSeen : ℕ
  tcp : TcpState
  deriving DecidableEq, Repr

/-- A flow starts with an outbound packet, and every packet of it counts from then on. -/
def flowStep (t : Tuple) (wid : UInt16) : Option FlowState → CtEvent → Option FlowState
  | none, ev => if ev.isOutboundOf t then some ⟨ev.time, nextTcpState .new ev.tcpFlags⟩ else none
  | some fs, ev =>
    if ev.isFlowPacket t wid then some ⟨ev.time, nextTcpState fs.tcp ev.tcpFlags⟩ else some fs

/-- The flow `t` after `tr`, if it has WAN id `wid`. -/
def flowAfter (t : Tuple) (wid : UInt16) (tr : List CtEvent) : Option FlowState :=
  tr.foldl (flowStep t wid) none

/-- The idle timeout of a flow in the TCP state `tcp`. -/
def idleTimeout (proto : Proto) (tcp : TcpState) : ℕ :=
  { Entry.empty with proto := proto, tcp := tcp }.timeoutMs

/-- The packets of the flow are always less than its current timeout apart. -/
def KeptAlive (t : Tuple) (wid : UInt16) (tr : List CtEvent) : Prop :=
  ∀ pre ev post fs, tr = pre ++ ev :: post → ev.isFlowPacket t wid = true →
    flowAfter t wid pre = some fs → ev.time - fs.lastSeen < idleTimeout t.proto fs.tcp

/-- A call that creates a flow finds fewer than `CT_CAP` live entries. -/
def RoomForNew (s : CtState) : CtEvent → Prop
  | .outbound t _ now _ =>
    (∀ e ∈ s.ct.slots, e.isFlow t = false) → s.ct.slots.countP (·.live now) < ctCap
  | _ => True

section Labels

variable {t : Tuple} {wid : UInt16} {tr : List CtEvent} {ev : CtEvent}

theorem flowAfter_snoc : flowAfter t wid (tr ++ [ev]) = flowStep t wid (flowAfter t wid tr) ev := by
  simp [flowAfter, List.foldl_append]

theorem firstGrant_append {tr' : List CtEvent} :
    firstGrant t (tr ++ tr') = (firstGrant t tr).or (firstGrant t tr') :=
  List.findSome?_append

theorem firstGrant_snoc :
    firstGrant t (tr ++ [ev]) = (firstGrant t tr).or (ev.grantTo t) := by
  simp [firstGrant, List.findSome?_append]

theorem firstGrant_none : firstGrant t tr = none ↔ ∀ ev ∈ tr, ev.grantTo t = none :=
  List.findSome?_eq_none_iff

theorem KeptAlive.left {post : List CtEvent} (h : KeptAlive t wid (tr ++ post)) :
    KeptAlive t wid tr := by
  intro pre ev post' fs htr
  refine h pre ev (post' ++ post) fs ?_
  rw [htr]
  simp

theorem KeptAlive.last {post : List CtEvent} {fs : FlowState}
    (h : KeptAlive t wid (tr ++ ev :: post)) (hp : ev.isFlowPacket t wid = true)
    (hf : flowAfter t wid tr = some fs) : ev.time - fs.lastSeen < idleTimeout t.proto fs.tcp :=
  h tr ev post fs rfl hp hf

theorem Clocked.left {post : List CtEvent} (h : Clocked (tr ++ post)) : Clocked tr :=
  (List.pairwise_append.1 h).1

theorem Clocked.le_last {post : List CtEvent} (h : Clocked (tr ++ ev :: post)) :
    ∀ ev' ∈ tr, ev'.time ≤ ev.time :=
  fun ev' hm => (List.pairwise_append.1 h).2.2 ev' hm ev List.mem_cons_self

end Labels

/-! ### The entry of the flow -/

/-- The entry that holds the flow `t` under `wid` in the state `fs`. -/
def entryOf (t : Tuple) (wid : UInt16) (fs : FlowState) : Entry where
  used := true
  proto := t.proto
  lanIp := t.srcIp
  lanId := t.srcId
  remoteIp := t.dstIp
  remoteId := t.dstId
  wanId := wid
  lastSeen := fs.lastSeen
  tcp := fs.tcp

section Entry

variable {t : Tuple} {wid : UInt16} {fs : FlowState} {f : UInt8} {now : ℕ}

@[simp] theorem used_entryOf : (entryOf t wid fs).used = true := rfl
@[simp] theorem tuple_entryOf : (entryOf t wid fs).tuple = t := rfl
@[simp] theorem wanId_entryOf : (entryOf t wid fs).wanId = wid := rfl

theorem expired_entryOf : (entryOf t wid fs).expired now =
    decide (idleTimeout t.proto fs.tcp ≤ now - fs.lastSeen) := rfl

theorem touch_entryOf :
    (entryOf t wid fs).touch f now = entryOf t wid ⟨now, nextTcpState fs.tcp f⟩ := rfl

theorem newEntry_eq :
    CtState.newEntry t wid f now = entryOf t wid ⟨now, nextTcpState .new f⟩ := rfl

end Entry

/-- The table holds the flow `t` under `wid` in the state `fs`. -/
def Carries (s : CtState) (t : Tuple) (wid : UInt16) (fs : FlowState) : Prop :=
  ∃ i < ctCap, s.ct.slot i = entryOf t wid fs

namespace Carries

variable {s s' : CtState} {t : Tuple} {wid : UInt16} {fs : FlowState} {ev : CtEvent}

/-- Writing a slot that does not hold the flow leaves the flow alone. -/
theorem setSlot_other (h : Carries s t wid fs) {k : ℕ} {e : Entry}
    (hslot : ∀ j, s'.ct.slot j = (s.ct.setSlot k e).slot j) (hk : s.ct.slot k ≠ entryOf t wid fs) :
    Carries s' t wid fs := by
  obtain ⟨i, hi, hs⟩ := h
  refine ⟨i, hi, ?_⟩
  rw [hslot, Conntrack.slot_setSlot, if_neg, hs]
  rintro ⟨rfl, -⟩
  exact hk hs

/-- Writing a slot below `CT_CAP` puts the flow there. -/
theorem setSlot {k : ℕ} (hk : k < ctCap)
    (hslot : ∀ j, s'.ct.slot j = (s.ct.setSlot k (entryOf t wid fs)).slot j) :
    Carries s' t wid fs :=
  ⟨k, hk, by rw [hslot, Conntrack.slot_setSlot, if_pos ⟨rfl, hk⟩]⟩

/-- Not all slots are live when there is room. -/
theorem exists_not_live {now : ℕ} (h : s.ct.slots.countP (·.live now) < ctCap) :
    ∃ i < ctCap, (s.ct.slot i).live now = false := by
  by_contra hall
  push Not at hall
  have hmem : ∀ e ∈ s.ct.slots, e.live now = true := by
    by_contra hc
    push Not at hc
    obtain ⟨i, hi, hl⟩ := Conntrack.exists_mem_slots.1 hc
    exact hl (by simpa using hall i hi)
  rw [List.countP_eq_length.2 hmem, s.ct.size] at h
  exact lt_irrefl _ h

/-- With room in the table the slot picked for a new flow is not live. -/
theorem pickSlot_not_live {now : ℕ} (h : s.ct.slots.countP (·.live now) < ctCap) :
    (s.ct.slot (s.ct.pickSlot now)).live now = false := by
  by_contra hlive
  rw [Bool.not_eq_false, Entry.live_iff] at hlive
  obtain ⟨hu, he⟩ := hlive
  obtain ⟨j, hj, hdead⟩ := exists_not_live h
  rcases (s.ct.pickSlot_cases now).2 with hc | hc | hc
  · exact Bool.noConfusion (hu.symm.trans hc)
  · exact Bool.noConfusion (he.symm.trans hc)
  · obtain ⟨huj, hej, -⟩ := hc j hj
    exact Bool.noConfusion (hdead.symm.trans (Entry.live_iff.2 ⟨huj, hej⟩))

/-- No entry of the table is a flow that no slot holds. -/
theorem isFlow_eq_false {t' : Tuple}
    (hnew : ∀ i < ctCap, (s.ct.slot i).used = true → (s.ct.slot i).tuple ≠ t') :
    ∀ e ∈ s.ct.slots, e.isFlow t' = false := by
  intro e he
  by_contra hc
  rw [Bool.not_eq_false, Entry.isFlow_iff] at hc
  obtain ⟨j, hj, hu, htj⟩ :=
    (Conntrack.exists_mem_slots (p := fun e => e.used = true ∧ e.tuple = t')).1 ⟨e, he, hc⟩
  exact hnew j hj hu htj

/-- **A step that is not a packet of the flow** leaves it alone, unless the flow has been idle for
its whole timeout. -/
theorem step_other (h : Carries s t wid fs) (hI : s.Inv) (hroom : RoomForNew s ev)
    (hst : ctStep s ev s') (hp : ev.isFlowPacket t wid = false) :
    Carries s' t wid fs ∨ idleTimeout t.proto fs.tcp ≤ ev.time - fs.lastSeen := by
  obtain ⟨i, hi, hs⟩ := id h
  cases ev with
  | outbound t' f now r =>
    have ht' : t' ≠ t := by simpa [CtEvent.isFlowPacket] using hp
    rcases CtState.outbound_cases hI.cursorRange.1 hst with
      ⟨k, -, -, htk, rfl, rfl⟩ | ⟨hnew, id, c', -, -, -, rfl, rfl⟩
    · -- another flow is refreshed
      refine .inl (h.setSlot_other (k := k) (fun _ => rfl) fun hk => ht' ?_)
      rw [← htk, hk, tuple_entryOf]
    · by_cases hk : s.ct.slot (s.ct.pickSlot now) = entryOf t wid fs
      · -- the flow is evicted: with room in the table it was not live
        right
        by_contra hlive
        have hdead := pickSlot_not_live (hroom (isFlow_eq_false hnew))
        rw [hk, ← Bool.not_eq_true, Entry.live_iff, expired_entryOf] at hdead
        exact hdead ⟨rfl, decide_eq_false hlive⟩
      · exact .inl (h.setSlot_other (k := s.ct.pickSlot now) (fun _ => rfl) hk)
  | inbound proto rip rid w f now r =>
    rcases CtState.inbound_cases hst with ⟨k, -, hk, rfl, rfl⟩ | ⟨-, -, rfl⟩
    · refine .inl (h.setSlot_other (k := k) (fun _ => rfl) fun hc => ?_)
      rw [hc, Entry.isReply_iff] at hk
      obtain ⟨-, hw, htup, -⟩ := hk
      have hpacket : CtEvent.isFlowPacket t wid (.inbound proto rip rid w f now
          (some ((s.ct.slot k).lanIp, (s.ct.slot k).lanId))) = true := by
        simp only [CtEvent.isFlowPacket, Bool.and_eq_true, decide_eq_true_eq]
        exact ⟨⟨⟨(congrArg Tuple.proto htup).symm, (congrArg Tuple.dstIp htup).symm⟩,
          (congrArg Tuple.dstId htup).symm⟩, hw.symm⟩
      rw [hpacket] at hp
      exact Bool.noConfusion hp
    · exact .inl h
  | reap now =>
    obtain rfl : s.reap now = s' := hst
    by_cases hlive : (s.ct.slot i).live now = true
    · exact .inl ⟨i, hi, by rw [(s.reap_live now i).2 hlive, hs]⟩
    · right
      rw [hs, Entry.live_iff, expired_entryOf] at hlive
      simpa [CtEvent.time] using hlive

/-- **A packet of a flow that is alive** is served, and the flow is refreshed. -/
theorem step_packet (h : Carries s t wid fs) (hI : s.Inv) (hst : ctStep s ev s')
    (hp : ev.isFlowPacket t wid = true)
    (halive : ev.time - fs.lastSeen < idleTimeout t.proto fs.tcp) :
    Carries s' t wid ⟨ev.time, nextTcpState fs.tcp ev.tcpFlags⟩ ∧ ev.Served t wid := by
  obtain ⟨i, hi, hs⟩ := h
  cases ev with
  | outbound t' f now r =>
    obtain rfl : t' = t := by simpa [CtEvent.isFlowPacket] using hp
    rcases CtState.outbound_cases hI.cursorRange.1 hst with
      ⟨k, hk, huk, htk, rfl, rfl⟩ | ⟨hnew, -⟩
    · obtain rfl : k = i := hI.flowsDistinct k hk i hi huk (by simp [hs]) (by simp [hs, htk])
      rw [hs, touch_entryOf]
      exact ⟨setSlot hk fun _ => rfl, rfl⟩
    · exact absurd (by simp [hs]) (hnew i hi (by simp [hs]))
  | inbound proto rip rid w f now r =>
    have hreply : (s.ct.slot i).isReply proto rip rid w now = true := by
      simp only [CtEvent.isFlowPacket, Bool.and_eq_true, decide_eq_true_eq] at hp
      obtain ⟨⟨⟨rfl, rfl⟩, rfl⟩, rfl⟩ := hp
      rw [hs, Entry.isReply_iff]
      exact ⟨rfl, rfl, rfl, halive⟩
    rcases CtState.inbound_cases hst with ⟨k, hk, hrk, rfl, rfl⟩ | ⟨hnone, -⟩
    · obtain ⟨huk, hwk, -⟩ := Entry.isReply_iff.1 hrk
      obtain ⟨hui, hwi, -⟩ := Entry.isReply_iff.1 hreply
      obtain rfl : k = i := hI.idsDistinct k hk i hi huk hui (hwk.trans hwi.symm)
      rw [hs, touch_entryOf]
      exact ⟨setSlot hk fun _ => rfl, rfl⟩
    · rw [hnone i hi] at hreply
      exact Bool.noConfusion hreply
  | reap now => simp [CtEvent.isFlowPacket] at hp

end Carries

/-! ### The flow along a run -/

/-- The table holds the flow as the labels tell it, or the run let it idle for its timeout. -/
def Tracks (t : Tuple) (wid : UInt16) (tr : List CtEvent) (s : CtState) : Prop :=
  ∃ fs, flowAfter t wid tr = some fs ∧
    (Carries s t wid fs ∨ ∃ ev ∈ tr, idleTimeout t.proto fs.tcp ≤ ev.time - fs.lastSeen)

section Run

variable {t : Tuple} {wid : UInt16} {tr : List CtEvent} {ev : CtEvent} {s s' : CtState}

/-- **The first packet**: no slot can hold the flow yet, so it gets a new entry. -/
theorem Tracks.first (hrun : ctSystem.Run tr s) (hst : ctStep s ev s')
    (hfresh : flowAfter t wid tr = none) (hnone : firstGrant t tr = none)
    (hg : ev.grantTo t = some wid) : Tracks t wid (tr ++ [ev]) s' := by
  cases ev with
  | inbound => simp [CtEvent.grantTo] at hg
  | reap => simp [CtEvent.grantTo] at hg
  | outbound t' f now r =>
    simp only [CtEvent.grantTo, Option.ite_none_right_eq_some] at hg
    obtain ⟨rfl, rfl⟩ := hg
    refine ⟨⟨now, nextTcpState .new f⟩, ?_, .inl ?_⟩
    · simp [flowAfter_snoc, hfresh, flowStep, CtEvent.isOutboundOf, CtEvent.time, CtEvent.tcpFlags]
    · rcases CtState.outbound_cases (ct_invariant ⟨tr, hrun⟩).cursorRange.1 hst with
        ⟨i, hi, hu, ht, -⟩ | ⟨-, id, c', -, -, -, hid, rfl⟩
      · -- an entry would come from an earlier grant
        have hgr := (ct_hist hrun).granted i hi hu
        rw [ht] at hgr
        obtain ⟨f', now', hm⟩ := exists_outbound_of_lastGranted hgr
        simpa [CtEvent.grantTo] using firstGrant_none.1 hnone _ hm
      · rw [Option.some_inj] at hid
        rw [← hid, newEntry_eq]
        exact .setSlot (s.ct.pickSlot_lt now) fun _ => rfl

/-- A packet of a flow that is kept alive is served. -/
theorem Tracks.packet (h : Tracks t wid tr s) (hI : s.Inv) (hst : ctStep s ev s')
    {post : List CtEvent} (hclk : Clocked (tr ++ ev :: post))
    (hkept : KeptAlive t wid (tr ++ ev :: post)) (hp : ev.isFlowPacket t wid = true) :
    Tracks t wid (tr ++ [ev]) s' ∧ ev.Served t wid := by
  obtain ⟨fs, hfs, hheld⟩ := h
  have halive := hkept.last hp hfs
  rcases hheld with hheld | ⟨ev', hm, hidle⟩
  · obtain ⟨hheld', hserved⟩ := hheld.step_packet hI hst hp halive
    refine ⟨⟨_, ?_, .inl hheld'⟩, hserved⟩
    rw [flowAfter_snoc, hfs, flowStep, if_pos hp]
  · -- it was not idle for its timeout, since the clock does not go back
    have := hclk.le_last ev' hm
    omega

/-- **One step of the run** keeps a flow on track while it is kept alive. -/
theorem Tracks.step (h : Tracks t wid tr s) (hI : s.Inv) (hroom : RoomForNew s ev)
    (hst : ctStep s ev s') (hclk : Clocked (tr ++ [ev])) (hkept : KeptAlive t wid (tr ++ [ev])) :
    Tracks t wid (tr ++ [ev]) s' := by
  cases hp : ev.isFlowPacket t wid with
  | true => exact (h.packet hI hst hclk hkept hp).1
  | false =>
    obtain ⟨fs, hfs, hheld⟩ := h
    refine ⟨fs, by simp [flowAfter_snoc, hfs, flowStep, hp], ?_⟩
    rcases hheld with hheld | ⟨ev', hm, hidle⟩
    · rcases hheld.step_other hI hroom hst hp with h' | hidle
      · exact .inl h'
      · exact .inr ⟨ev, by simp, hidle⟩
    · exact .inr ⟨ev', List.mem_append_left _ hm, hidle⟩

/-- An `outbound` call of a run never fails. -/
theorem ne_none_of_outbound (h : ctSystem.Reachable s) {f : UInt8} {now : ℕ} {r : Option UInt16}
    (hst : s.outbound t f now = (s', r)) : r ≠ none := by
  have hnd := (conntrack_wellFormed h).2.2.2.2.2.2 t f now
  rw [hst] at hnd
  exact hnd.1

/-- Before its first grant a flow has no state. -/
theorem flowAfter_of_firstGrant_none (hrun : ctSystem.Run tr s) (h : firstGrant t tr = none) :
    flowAfter t wid tr = none := by
  refine hrun.induction (J := fun tr _ => firstGrant t tr = none → flowAfter t wid tr = none)
    (fun _ _ _ => rfl) (fun tr s ev s' hrun ih hst h => ?_) h
  rw [firstGrant_snoc, Option.or_eq_none_iff] at h
  rw [flowAfter_snoc, ih h.1, flowStep, if_neg]
  intro hop
  cases ev with
  | inbound => simp [CtEvent.isOutboundOf] at hop
  | reap => simp [CtEvent.isOutboundOf] at hop
  | outbound t' f now r =>
    obtain rfl : t' = t := by simpa [CtEvent.isOutboundOf] using hop
    obtain rfl : r = none := by simpa [CtEvent.grantTo] using h.2
    exact ne_none_of_outbound ⟨tr, hrun⟩ hst rfl

/-- **The run form**: below capacity a flow that is kept alive stays on track. -/
theorem tracks_run (h : (ctSystem.restrict RoomForNew).Run tr s) (hclk : Clocked tr)
    (hkept : KeptAlive t wid tr) (hg : firstGrant t tr = some wid) : Tracks t wid tr s := by
  refine h.induction (J := fun tr s => Clocked tr → KeptAlive t wid tr →
    firstGrant t tr = some wid → Tracks t wid tr s) ?_ ?_ hclk hkept hg
  · intro s _ _ _ hg
    simp [firstGrant] at hg
  · intro tr s ev s' hrun ih hst hclk hkept hg
    have hrun' := hrun.of_restrict
    rw [firstGrant_snoc, Option.or_eq_some_iff] at hg
    rcases hg with hg | ⟨hnone, hg⟩
    · exact (ih hclk.left hkept.left hg).step (ct_invariant ⟨tr, hrun'⟩) hst.1 hst.2 hclk hkept
    · exact .first hrun' hst.2 (flowAfter_of_firstGrant_none hrun' hnone) hnone hg

/-- A packet of a flow that is kept alive gets the answer of a live flow, once the flow has its
id. -/
theorem served_of_keptAlive {pre post : List CtEvent}
    (h : (ctSystem.restrict RoomForNew).Run (pre ++ ev :: post) s)
    (hclk : Clocked (pre ++ ev :: post)) (hkept : KeptAlive t wid (pre ++ ev :: post))
    (hg : firstGrant t pre = some wid) (hp : ev.isFlowPacket t wid = true) : ev.Served t wid := by
  obtain ⟨s₁, s₂, hrun, hst⟩ := h.split
  have htr := tracks_run hrun hclk.left hkept.left hg
  exact (htr.packet (ct_invariant ⟨pre, hrun.of_restrict⟩) hst.2 hclk hkept hp).2

/-- Every call for a flow that is kept alive returns its first id. -/
theorem outbound_of_keptAlive (h : (ctSystem.restrict RoomForNew).Run tr s) (hclk : Clocked tr)
    (hkept : KeptAlive t wid tr) (hg : firstGrant t tr = some wid) {f : UInt8} {now : ℕ}
    {r : Option UInt16} (hm : CtEvent.outbound t f now r ∈ tr) : r = some wid := by
  obtain ⟨pre, post, rfl⟩ := List.append_of_mem hm
  rw [firstGrant_append, Option.or_eq_some_iff] at hg
  rcases hg with hg | ⟨-, hg⟩
  · exact served_of_keptAlive h hclk hkept hg (by simp [CtEvent.isFlowPacket])
  · -- the first call for the flow
    obtain ⟨s₁, s₂, hrun, hst⟩ := h.split
    obtain ⟨w, rfl⟩ := Option.ne_none_iff_exists'.1
      (ne_none_of_outbound ⟨pre, hrun.of_restrict⟩ hst.2)
    simpa [firstGrant, CtEvent.grantTo] using hg

end Run

/-- **No live flow is lost below capacity, and eviction is LRU above it.**  `reap` removes exactly
the entries that are not live; a call that creates a flow overwrites a live entry only if all are
live, and then one with the smallest `lastSeen`; and in a run with a non-decreasing clock in which
every new flow finds fewer than `CT_CAP` live entries, a flow whose packets are always less than
its current timeout apart keeps its first WAN id: every call for it returns that id, every packet
that comes back under it is matched to its LAN side, and no slot holds it under another id. -/
theorem liveFlows_kept :
    (∀ (s : CtState) (now i : ℕ), ((s.reap now).ct.slot i).used = (s.ct.slot i).live now ∧
      ((s.ct.slot i).live now = true → (s.reap now).ct.slot i = s.ct.slot i)) ∧
    (∀ (s s' : CtState) (t : Tuple) (f : UInt8) (now : ℕ) (r : Option UInt16),
      ctSystem.Reachable s → ctSystem.step s (.outbound t f now r) s' →
      (∀ i < ctCap, (s.ct.slot i).used = true → (s.ct.slot i).tuple ≠ t) →
      ∃ k < ctCap, (∀ j < ctCap, j ≠ k → s'.ct.slot j = s.ct.slot j) ∧
        (∃ wid, r = some wid ∧ s'.ct.slot k = CtState.newEntry t wid f now) ∧
        ((s.ct.slot k).live now = true →
          ∀ i < ctCap, (s.ct.slot i).live now = true ∧
            (s.ct.slot k).lastSeen ≤ (s.ct.slot i).lastSeen)) ∧
    ∀ (tr : List CtEvent) (s : CtState), (ctSystem.restrict RoomForNew).Run tr s → Clocked tr →
      ∀ (t : Tuple) (wid : UInt16), firstGrant t tr = some wid → KeptAlive t wid tr →
        (∀ f now r, CtEvent.outbound t f now r ∈ tr → r = some wid) ∧
        (∀ pre post f now r,
          tr = pre ++ .inbound t.proto t.dstIp t.dstId wid f now r :: post →
          firstGrant t pre = some wid → r = some (t.srcIp, t.srcId)) ∧
        ∀ i < ctCap, (s.ct.slot i).used = true → (s.ct.slot i).tuple = t →
          (s.ct.slot i).wanId = wid := by
  refine ⟨CtState.reap_live, fun s s' t f now r hs hst hnew =>
    CtState.outbound_overwrites (ct_invariant hs).cursorRange.1 hst hnew, ?_⟩
  intro tr s h hclk t wid hg hkept
  refine ⟨fun f now r hm => outbound_of_keptAlive h hclk hkept hg hm, ?_, ?_⟩
  · rintro pre post f now r rfl hpre
    exact served_of_keptAlive h hclk hkept hpre (by simp [CtEvent.isFlowPacket])
  · intro i hi hu ht
    have hgr := (ct_hist h.of_restrict).granted i hi hu
    rw [ht] at hgr
    obtain ⟨f, now, hm⟩ := exists_outbound_of_lastGranted hgr
    simpa using outbound_of_keptAlive h hclk hkept hg hm

/-- The flow of a DNS client. -/
def resolverFlow : Tuple := ⟨.udp, ⟨192, 168, 4, 10⟩, 5353, ⟨8, 8, 8, 8⟩, 53⟩

/-- A DNS client that asks again after twenty seconds keeps its id. -/
theorem liveFlows_kept_dns :
    ∃ s, (ctSystem.restrict RoomForNew).Run [.outbound resolverFlow 0 7 (some 49152),
        .outbound resolverFlow 0 20007 (some 49152)] s ∧
      ∀ f now r, CtEvent.outbound resolverFlow f now r ∈
        [.outbound resolverFlow 0 7 (some 49152),
          .outbound resolverFlow 0 20007 (some 49152)] → r = some 49152 := by
  have h₁ : (ctSystem.restrict RoomForNew).step CtState.new
      (.outbound resolverFlow 0 7 (some 49152)) (CtState.new.outbound resolverFlow 0 7).1 :=
    ⟨fun _ => by decide +kernel, step_outbound (by decide +kernel)⟩
  have h₂ : (ctSystem.restrict RoomForNew).step (CtState.new.outbound resolverFlow 0 7).1
      (.outbound resolverFlow 0 20007 (some 49152)) _ :=
    ⟨fun _ => by decide +kernel, step_outbound (by decide +kernel)⟩
  have hrun := ((System.Run.init rfl).snoc h₁).snoc h₂
  refine ⟨_, hrun, (liveFlows_kept.2.2 _ _ hrun (by simp [Clocked, CtEvent.time]) resolverFlow
    49152 (by decide +kernel) ?_).1⟩
  intro pre ev post fs htr hp hfs
  rcases pre with _ | ⟨a, _ | ⟨b, pre⟩⟩
  · simp [flowAfter] at hfs
  · simp only [List.cons_append, List.nil_append, List.cons.injEq] at htr
    obtain ⟨rfl, rfl, -⟩ := htr
    obtain rfl : (⟨7, .established⟩ : FlowState) = fs := by
      rw [← Option.some_inj, ← hfs]
      decide +kernel
    decide +kernel
  · simp at htr

end Pico10BaseT
