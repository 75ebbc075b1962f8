import Pico10BaseT.Forward.Device
import Pico10BaseT.LTS.Basic
import Pico10BaseT.Wan.Dhcp

/-!
# The query slots of the DNS probe

`WanState` tracks one query.  `dns_harvest` frees the slot of the query it forgets; `dhcp_apply`
forgets the query and leaves its slot taken.  While no lease event meets a query in flight, the
occupied slots are exactly the tracked one (`dnsSlots_tracked`); one that does leaves a slot taken
for good, and after two of them no query can be started (`dnsSlots_leak`).
-/

namespace Pico10BaseT

open DnsSocketOps

/-- The calls on the client, and the socket's own progress. -/
inductive DnsEvent (κ : Type)
  | dhcpApply (ev : DhcpEvent κ)
  | dnsStart
  | dnsHarvest
  | advance

variable {κ σ H : Type} [DnsSocketOps σ H]

/-- One call, or some progress of the queries. -/
inductive DnsStep : WanClient κ σ H → DnsEvent κ → WanClient κ σ H → Prop
  | dhcpApply {c} (ev) : DnsStep c (.dhcpApply ev) (c.dhcpApply ev)
  | dnsStart {c} : DnsStep c .dnsStart c.dnsStart
  | dnsHarvest {c} : DnsStep c .dnsHarvest c.dnsHarvest
  | advance {c dns} (h : DnsSocketOps.advance c.dns dns) : DnsStep c .advance { c with dns }

/-- The client from `WanState::new()` and a socket with free slots, under any calls. -/
def dnsSystem (κ σ H : Type) [DnsSocketOps σ H] : System (WanClient κ σ H) (DnsEvent κ) where
  init c := c.wan = .new ∧ occupied c.dns = ∅
  step := DnsStep

/-- The occupied slots are exactly the tracked query. -/
def Tracked (c : WanClient κ σ H) : Prop := occupied c.dns = {h | c.wan.dnsQuery = some h}

/-- No lease event comes while a query is tracked. -/
def NoLeaseInFlight (c : WanClient κ σ H) : DnsEvent κ → Prop
  | .dhcpApply .none => True
  | .dhcpApply _ => c.wan.dnsQuery = none
  | _ => True

namespace Tracked

variable {c : WanClient κ σ H}

theorem subsingleton (h : Tracked c) : Set.Subsingleton (occupied c.dns) := by
  rw [h]
  intro a ha b hb
  exact Option.some_inj.1 (ha.symm.trans hb)

theorem of_none (h : occupied c.dns = ∅) (hq : c.wan.dnsQuery = none) : Tracked c := by
  rw [Tracked, h, hq]
  simp

theorem occupied_eq_empty (h : Tracked c) (hq : c.wan.dnsQuery = none) : occupied c.dns = ∅ := by
  rw [h, hq]
  simp

variable [LawfulDnsSocket σ H]

theorem dhcpApply (h : Tracked c) {ev : DhcpEvent κ}
    (hev : NoLeaseInFlight c (.dhcpApply ev)) : Tracked (c.dhcpApply ev) := by
  cases ev with
  | none => exact h
  | deconfigured =>
    refine of_none ?_ rfl
    rw [WanClient.dhcpApply, LawfulDnsSocket.updateServers_occupied]
    exact h.occupied_eq_empty hev
  | configured address router dnsServers =>
    refine of_none ?_ rfl
    rw [WanClient.dhcpApply, LawfulDnsSocket.updateServers_occupied]
    exact h.occupied_eq_empty hev

/-- With no query tracked and a server known, a query is started. -/
theorem dnsStart_isSome (h : Tracked c) (hq : c.wan.dnsQuery = none) (hs : c.wan.dns0.isSome) :
    ∃ handle, c.dnsStart.wan.dnsQuery = some handle ∧ Tracked c.dnsStart := by
  have hocc := h.occupied_eq_empty hq
  have hguard : ¬(c.wan.dnsQuery.isSome ∨ c.wan.dns0.isNone) := by
    simpa [hq, Option.isSome_iff_ne_none] using hs
  rw [WanClient.dnsStart, if_neg hguard]
  rcases hst : startQuery c.dns with ⟨dns, _ | handle⟩
  · obtain ⟨-, a, ha, -⟩ := LawfulDnsSocket.start_none _ _ hst
    rw [hocc] at ha
    exact absurd ha (Set.notMem_empty a)
  · refine ⟨handle, rfl, ?_⟩
    have hocc' := (LawfulDnsSocket.start_some _ _ _ hst).2
    rw [hocc] at hocc'
    simp only [Tracked, hocc', Option.some_inj, LawfulSingleton.insert_empty_eq]
    ext x
    simp [eq_comm]

theorem dnsStart (h : Tracked c) : Tracked c.dnsStart := by
  by_cases hguard : c.wan.dnsQuery.isSome ∨ c.wan.dns0.isNone
  · rwa [WanClient.dnsStart, if_pos hguard]
  · push Not at hguard
    obtain ⟨hq, hs⟩ := hguard
    obtain ⟨_, -, htracked⟩ := h.dnsStart_isSome (by simpa using hq)
      (Option.isSome_iff_ne_none.2 (by simpa using hs))
    exact htracked

theorem dnsHarvest (h : Tracked c) : Tracked c.dnsHarvest := by
  unfold WanClient.dnsHarvest
  cases hq : c.wan.dnsQuery with
  | none => exact h
  | some handle =>
    -- a final result frees the only slot
    have hfree : ∀ dns r, getQueryResult c.dns handle = (dns, r) → r ≠ .pending →
        occupied dns = ∅ := by
      intro dns r hr hne
      rw [LawfulDnsSocket.final _ _ _ _ hr hne, h, hq]
      ext x
      simp
    simp only
    rcases hr : getQueryResult c.dns handle with ⟨dns, _ | _ | _⟩
    · exact of_none (hfree _ _ hr (by simp)) rfl
    · simp only [Tracked, LawfulDnsSocket.pending _ _ _ hr]
      exact h
    · exact of_none (hfree _ _ hr (by simp)) rfl

/-- **One call** keeps the slots tracked, if it is no lease event that meets a query. -/
theorem step (h : Tracked c) {ev : DnsEvent κ} {c' : WanClient κ σ H}
    (hev : NoLeaseInFlight c ev) (hst : DnsStep c ev c') : Tracked c' := by
  cases hst with
  | dhcpApply ev => exact h.dhcpApply hev
  | dnsStart => exact h.dnsStart
  | dnsHarvest => exact h.dnsHarvest
  | advance hadv =>
    rw [Tracked, LawfulDnsSocket.advance_occupied _ _ hadv]
    exact h

end Tracked

/-- **Query slots are tracked** in every run in which no lease event comes while a query is
tracked: the occupied slots are exactly the tracked handle, so at most one is occupied, and with a
server known and no query tracked `dns_start` starts one. -/
theorem dnsSlots_tracked [LawfulDnsSocket σ H] {evs : List (DnsEvent κ)} {c : WanClient κ σ H}
    (h : ((dnsSystem κ σ H).restrict NoLeaseInFlight).Run evs c) :
    occupied c.dns = {handle | c.wan.dnsQuery = some handle} ∧ Set.Subsingleton (occupied c.dns) ∧
      (c.wan.dnsQuery = none → c.wan.dns0.isSome →
        ∃ handle, c.dnsStart.wan.dnsQuery = some handle) := by
  have htr : Tracked c := h.induction (J := fun _ c => Tracked c)
    (fun c hc => .of_none hc.2 (by rw [hc.1]; rfl))
    fun _ _ _ _ _ hT hst => hT.step hst.1 hst.2
  refine ⟨htr, htr.subsingleton, fun hq hs => ?_⟩
  obtain ⟨handle, hstart, -⟩ := htr.dnsStart_isSome hq hs
  exact ⟨handle, hstart⟩

/-! ### A socket with two slots -/

/-- The state of a query that holds a slot. -/
inductive SlotState
  | pending
  | done (addrs : List Ipv4Address)
  | failed
  deriving DecidableEq, Repr

/-- The DNS socket of `wan_task`. -/
structure DnsSlots where
  servers : List Ipv4Address
  slot : Fin 2 → Option SlotState

namespace DnsSlots

def new : DnsSlots := ⟨[], fun _ => none⟩

/-- Take slot `i` for a query. -/
def take (s : DnsSlots) (i : Fin 2) : DnsSlots :=
  { s with slot := Function.update s.slot i (some .pending) }

/-- Free slot `i`. -/
def free (s : DnsSlots) (i : Fin 2) : DnsSlots :=
  { s with slot := Function.update s.slot i none }

instance : DnsSocketOps DnsSlots (Fin 2) where
  occupied s := {i | (s.slot i).isSome}
  startQuery s :=
    if (s.slot 0).isNone then (s.take 0, some 0)
    else if (s.slot 1).isNone then (s.take 1, some 1)
    else (s, none)
  getQueryResult s i :=
    match s.slot i with
    | some .pending => (s, .pending)
    | some (.done addrs) => (s.free i, .done addrs)
    | some .failed => (s.free i, .failed)
    | none => (s, .failed)
  updateServers s servers := { s with servers }
  advance s s' := ∀ i, (s'.slot i).isSome = (s.slot i).isSome

theorem occupied_take (s : DnsSlots) (i : Fin 2) :
    occupied (s.take i) = insert i (occupied s) := by
  ext j
  by_cases hj : j = i
  · simp [occupied, take, hj]
  · simp [occupied, take, hj]

theorem occupied_free (s : DnsSlots) (i : Fin 2) : occupied (s.free i) = occupied s \ {i} := by
  ext j
  by_cases hj : j = i
  · simp [occupied, free, hj]
  · simp [occupied, free, hj]

instance : LawfulDnsSocket DnsSlots (Fin 2) where
  start_some s s' h hst := by
    simp only [startQuery] at hst
    split_ifs at hst with h0 h1
    · obtain ⟨rfl, rfl⟩ : s.take 0 = s' ∧ 0 = h := by simpa using hst
      exact ⟨by simpa [occupied] using h0, occupied_take s 0⟩
    · obtain ⟨rfl, rfl⟩ : s.take 1 = s' ∧ 1 = h := by simpa using hst
      exact ⟨by simpa [occupied] using h1, occupied_take s 1⟩
    · simp at hst
  start_none s s' hst := by
    simp only [startQuery] at hst
    split_ifs at hst with h0 h1
    · simp at hst
    · simp at hst
    · obtain rfl : s = s' := congrArg Prod.fst hst
      exact ⟨rfl, 0, by simpa [occupied, Option.isSome_iff_ne_none] using h0, 1,
        by simpa [occupied, Option.isSome_iff_ne_none] using h1, by decide⟩
  pending s s' h hr := by
    simp only [getQueryResult] at hr
    split at hr <;> cases hr
    rfl
  final s s' h r hr hne := by
    simp only [getQueryResult] at hr
    split at hr
    · cases hr
      exact absurd rfl hne
    · cases hr
      exact occupied_free s h
    · cases hr
      exact occupied_free s h
    · cases hr
      ext j
      by_cases hj : j = h
      · simp [occupied, *]
      · simp [occupied, hj]
  updateServers_occupied _ _ := rfl
  advance_occupied s s' h := by
    ext i
    simp [occupied, h i]

end DnsSlots

/-- The client of `wan_task` before its first lease. -/
def wanClientNew : WanClient Ipv4Cidr DnsSlots (Fin 2) := ⟨⟨[], none⟩, .new, .new⟩

/-- A lease with one DNS server. -/
def dnsLease : DhcpEvent Ipv4Cidr :=
  .configured ⟨⟨203, 0, 113, 9⟩, 24⟩ (some ⟨203, 0, 113, 1⟩) [⟨8, 8, 8, 8⟩]

theorem dnsSystem_init : (dnsSystem Ipv4Cidr DnsSlots (Fin 2)).init wanClientNew :=
  ⟨rfl, by simp [occupied, wanClientNew, DnsSlots.new]⟩

/-- A query of the first lease occupies its slot, and is tracked. -/
theorem dnsSlots_tracked_query :
    occupied (wanClientNew.dhcpApply dnsLease).dnsStart.dns =
      {h | (wanClientNew.dhcpApply dnsLease).dnsStart.wan.dnsQuery = some h} := by
  have h₀ : ((dnsSystem Ipv4Cidr DnsSlots (Fin 2)).restrict NoLeaseInFlight).Run [] wanClientNew :=
    .init dnsSystem_init
  have h₁ : ((dnsSystem Ipv4Cidr DnsSlots (Fin 2)).restrict NoLeaseInFlight).step wanClientNew
      (.dhcpApply dnsLease) (wanClientNew.dhcpApply dnsLease) := ⟨rfl, .dhcpApply dnsLease⟩
  have h₂ : ((dnsSystem Ipv4Cidr DnsSlots (Fin 2)).restrict NoLeaseInFlight).step
      (wanClientNew.dhcpApply dnsLease) .dnsStart (wanClientNew.dhcpApply dnsLease).dnsStart :=
    ⟨trivial, .dnsStart⟩
  exact (dnsSlots_tracked ((h₀.snoc h₁).snoc h₂)).1

/-- A lease is changed twice with a query in flight: both slots are occupied, none is tracked, and
no query can be started. -/
theorem dnsSlots_leak :
    ¬ ∀ (evs : List (DnsEvent Ipv4Cidr)) (c : WanClient Ipv4Cidr DnsSlots (Fin 2)),
      (dnsSystem Ipv4Cidr DnsSlots (Fin 2)).Run evs c →
      occupied c.dns = {h | c.wan.dnsQuery = some h} ∧
        (c.wan.dnsQuery = none → c.wan.dns0.isSome →
          ∃ h, c.dnsStart.wan.dnsQuery = some h) := by
  intro hall
  have hrun := (((((System.Run.init dnsSystem_init).snoc (.dhcpApply dnsLease)).snoc
    .dnsStart).snoc (.dhcpApply dnsLease)).snoc .dnsStart).snoc (.dhcpApply dnsLease)
  obtain ⟨h, hh⟩ := (hall _ _ hrun).2 rfl rfl
  have hnone : ((((wanClientNew.dhcpApply dnsLease).dnsStart.dhcpApply
      dnsLease).dnsStart.dhcpApply dnsLease).dnsStart).wan.dnsQuery = none := by decide +kernel
  rw [hnone] at hh
  cases hh

end Pico10BaseT
