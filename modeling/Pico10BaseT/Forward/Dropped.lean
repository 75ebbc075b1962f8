import Pico10BaseT.Conntrack.Liveness
import Pico10BaseT.Forward.Egress
import Pico10BaseT.Forward.RoundTrip

/-!
# Frames that egress drops

NAPT is the first stage of egress, and nothing undoes it: a frame that dies of its TTL, its header,
its next hop or a busy phy has already been tracked.  The table it leaves is the one that a frame
sent leaves: the flow of the frame is refreshed or created, and a table full of live flows gives up
the one that was idle longest.

* `CtState.tracked_of_outbound` : what a packet of a flow does to the table.
* `egress_drop_tracks` : what a dropped frame does to it.
* `egress_drop_evicts` : a frame that never leaves the router ends a live flow.
-/

namespace Pico10BaseT

/-- What a packet of the flow `t` leaves of the table: every slot but `k` is unchanged.  Slot `k`
holds the flow, refreshed; or it is its new entry, in a slot that was free or expired, or, in a
table of live entries only, was idle longest. -/
structure TracksFlow (s s' : CtState) (t : Tuple) (tcpFlags : UInt8) (now k : ℕ) : Prop where
  lt : k < ctCap
  others : ∀ j < ctCap, j ≠ k → s'.ct.slot j = s.ct.slot j
  own : ((s.ct.slot k).isFlow t = true ∧ s'.ct.slot k = (s.ct.slot k).touch tcpFlags now) ∨
    ((∀ i < ctCap, (s.ct.slot i).isFlow t = false) ∧
      (∃ wid, s.ct.idInUse wid = false ∧ s'.ct.slot k = CtState.newEntry t wid tcpFlags now) ∧
      ((s.ct.slot k).live now = true → ∀ i < ctCap, (s.ct.slot i).live now = true ∧
        (s.ct.slot k).lastSeen ≤ (s.ct.slot i).lastSeen))

namespace CtState

variable {s s' : CtState} {t : Tuple} {f : UInt8} {now : ℕ} {r : Option UInt16}

/-- **A packet of a flow** changes one slot. -/
theorem tracked_of_outbound (hI : s.Inv) (h : s.outbound t f now = (s', r)) :
    ∃ k, TracksFlow s s' t f now k := by
  rcases outbound_cases hI.cursorRange.1 h with
    ⟨i, hi, hu, ht, -, rfl⟩ | ⟨hnew, id, c', hfree, -, -, hr, -⟩
  · refine ⟨i, hi, fun j _ hj => ?_, .inl ⟨Entry.isFlow_iff.2 ⟨hu, ht⟩, ?_⟩⟩
    · rw [Conntrack.slot_setSlot, if_neg fun hc => hj hc.1.symm]
    · rw [Conntrack.slot_setSlot, if_pos ⟨rfl, hi⟩]
  · obtain ⟨k, hk, hothers, ⟨wid, hwid, hslot⟩, hlru⟩ := outbound_overwrites hI.cursorRange.1 h hnew
    obtain rfl : id = wid := by rw [hr] at hwid; exact Option.some.inj hwid
    refine ⟨k, hk, hothers, .inr ⟨fun i hi => ?_, ⟨id, hfree, hslot⟩, hlru⟩⟩
    rw [Bool.eq_false_iff, Ne, Entry.isFlow_iff]
    rintro ⟨hu, ht⟩
    exact hnew i hi hu ht

end CtState

variable {κ : Type} [CidrOps κ]

section Egress

variable [Ipv4PacketOps] {dev : ForwardingDevice κ} {st st' : FwdState} {frame : Frame} {now : ℤ}
  {ready : Bool} {out : Option Frame}

/-- A frame that NAPT leaves alone leaves the table alone. -/
theorem ct_of_egress_plain (heg : dev.egress st frame now ready = .ok (st', out))
    (hno : dev.nat = false ∨ parseL4 frame = .ok none) : st'.ct = st.ct := by
  obtain ⟨n, hnapt⟩ := ForwardingDevice.napt_of_egress heg
  rcases dev.egressNapt_cases st.ct frame now with ⟨-, hcase⟩ | ⟨l4, _, _, _, hnat, hl4, -⟩
  · rw [hcase, Except.ok.injEq, Prod.mk.injEq] at hnapt
    exact hnapt.1.symm
  · exact absurd hno (not_plain hnat hl4.parseL4)

/-- A frame that NAPT parses is tracked, sent or not. -/
theorem tracked_of_egress {l4 : L4} (hr : ctSystem.Reachable st.ct)
    (heg : dev.egress st frame now ready = .ok (st', out)) (hnat : dev.nat = true)
    (hparse : parseL4 frame = .ok (some l4)) :
    ∃ k, TracksFlow st.ct st'.ct (outTuple frame l4) l4.tcpFlags (nowMs now) k := by
  obtain ⟨n, hnapt⟩ := ForwardingDevice.napt_of_egress heg
  rcases dev.egressNapt_cases st.ct frame now with
    ⟨hno, -⟩ | ⟨l4', ct', r, n', -, hl4, hout, hcase, -⟩
  · exact absurd hno (not_plain hnat hparse)
  · obtain rfl : l4' = l4 := Option.some.inj (Except.ok.inj (hl4.parseL4.symm.trans hparse))
    rw [hcase, Except.ok.injEq, Prod.mk.injEq] at hnapt
    exact CtState.tracked_of_outbound (ct_invariant hr) (hnapt.1 ▸ hout)

/-- **What a dropped frame does to the table.**  From every reachable table, with every device,
frame and cause of the drop: a frame that is not tracked leaves the table as it is, and any other
changes one slot, that of its own flow (`TracksFlow`). -/
theorem egress_drop_tracks (hr : ctSystem.Reachable st.ct)
    (heg : dev.egress st frame now ready = .ok (st', none)) :
    (dev.nat = false ∨ parseL4 frame = .ok none → st'.ct = st.ct) ∧
      ∀ l4, dev.nat = true → parseL4 frame = .ok (some l4) →
        ∃ k, TracksFlow st.ct st'.ct (outTuple frame l4) l4.tcpFlags (nowMs now) k :=
  ⟨ct_of_egress_plain heg, fun _ hnat hparse => tracked_of_egress hr heg hnat hparse⟩

end Egress

/-! ### A query that finds no gateway -/

/-- The table after one packet of each flow. -/
def tableOf (flows : List Tuple) : CtState := flows.foldl (fun s t => (s.outbound t 0 0).1) .new

/-- The router with these flows. -/
def fwdStateOf (flows : List Tuple) : FwdState := { FwdState.new with ct := tableOf flows }

theorem reachable_fwdStateOf (flows : List Tuple) : ctSystem.Reachable (fwdStateOf flows).ct := by
  change ctSystem.Reachable (tableOf flows)
  induction flows using List.reverseRecOn with
  | nil => exact .init rfl
  | append_singleton flows t ih =>
    rw [tableOf, List.foldl_append]
    exact ih.step (step_outbound (r := ((tableOf flows).outbound t 0 0).2) rfl)

/-- Egress on a WAN device without gateway. -/
def egressNoGateway (flows : List Tuple) (frame : Frame) : Exec (FwdState × Option Frame) :=
  @ForwardingDevice.egress _ _ headerOps (wanDev ⟨203, 0, 113, 9⟩) (fwdStateOf flows) frame 1 true

/-- The client's first query is dropped, and its flow is in the table. -/
theorem egress_drop_tracks_query : ∃ st' k, egressNoGateway [] dnsQuery = .ok (st', none) ∧
    TracksFlow .new st'.ct (outTuple dnsQuery (udpL4 5353 53)) 0 1 k := by
  have hdrop : (egressNoGateway [] dnsQuery).map Prod.snd = .ok none := by decide +kernel
  have hparse : parseL4 dnsQuery = .ok (some (udpL4 5353 53)) := by decide +kernel
  obtain ⟨⟨st', out⟩, heg, hout⟩ := Exec.map_eq_ok.1 hdrop
  obtain rfl : out = none := hout
  obtain ⟨k, hk⟩ := (@egress_drop_tracks _ _ headerOps _ _ _ _ _ _
    (reachable_fwdStateOf []) heg).2 _ rfl hparse
  exact ⟨st', k, heg, hk⟩

/-- DNS flows of one client, as many as the table holds. -/
def dnsFlows : List Tuple :=
  (List.range ctCap).map fun i => ⟨.udp, ⟨192, 168, 4, 11⟩, 1024 + .ofNat i, ⟨8, 8, 8, 8⟩, 53⟩

/-- A query dropped for want of a gateway ends a live flow of another client. -/
theorem egress_drop_evicts :
    ¬ ∀ (dev : ForwardingDevice Ipv4Cidr) (st st' : FwdState) (frame : Frame) (now : ℤ)
      (ready : Bool), ctSystem.Reachable st.ct → dev.nat = true → 34 ≤ frame.length →
      @ForwardingDevice.egress _ _ headerOps dev st frame now ready = .ok (st', none) →
      ∀ i < ctCap, (st.ct.ct.slot i).live (nowMs now) = true →
        ∃ e ∈ st'.ct.ct.slots, e.isFlow (st.ct.ct.slot i).tuple = true := by
  intro hclaim
  have hrun : ((fwdStateOf dnsFlows).ct.ct.slot 0).live (nowMs 1) = true ∧
      (egressNoGateway dnsFlows dnsQuery).map (fun r => (r.2, r.1.ct.ct.slots.any
        fun e => e.isFlow ((fwdStateOf dnsFlows).ct.ct.slot 0).tuple)) = .ok (none, false) := by
    decide +kernel
  obtain ⟨hlive, hdrop⟩ := hrun
  obtain ⟨⟨st', out⟩, heg, hr⟩ := Exec.map_eq_ok.1 hdrop
  obtain ⟨rfl, hgone⟩ := Prod.mk.inj hr
  obtain ⟨e, he, hflow⟩ := hclaim (wanDev ⟨203, 0, 113, 9⟩) (fwdStateOf dnsFlows) st' dnsQuery 1
    true (reachable_fwdStateOf _) rfl (by decide) heg 0 (by decide) hlive
  exact List.any_eq_false.1 hgone e he hflow

end Pico10BaseT
