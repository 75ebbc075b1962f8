import Pico10BaseT.Router.Conserve

/-!
# Forwarding follows the lease

`wan_task` copies a lease that it holds into the WAN device, and does nothing when it holds none.
Before the first lease that is right: the device has no address, so it learns no neighbor, leaves
every received frame to the local stack, and finds no next hop for a queued one.  A lease that is
lost stays in the device (`lease_notFollowed`).  The device has every lease that is held, and up to
the first `Deconfigured` event that meets a lease it forwards nothing without one
(`lease_followed`).
-/

namespace Pico10BaseT

/-- A forwarded frame leaves or enters by the WAN side. -/
def RouterEvent.crossesWan {κ : Type} : RouterEvent κ → Prop
  | .rx .wan _ sent => sent ≠ none
  | .drain .wan _ out => out ≠ none
  | _ => False

/-- No lease is lost. -/
def KeepsLease {κ σ H : Type} (s : Router κ σ H) : RouterEvent κ → Prop
  | .lease .deconfigured => s.client.wan.addr = none
  | _ => True

/-- Settling a frame changes no neighbor table. -/
theorem ForwardingDevice.wanNeigh_settle {κ : Type} (dev : ForwardingDevice κ) (st : FwdState)
    (c : Class) (frame : Frame) : (dev.settle st c frame).1.wanNeigh = st.wanNeigh := by
  cases c with
  | «local» => rfl
  | drop => rfl
  | transit =>
    simp only [settle, divert]
    cases trySend (st.queue dev.cfg.iface) frame with
    | none => rfl
    | some q => cases dev.cfg.iface <;> rfl

section Invariant

variable {κ σ H : Type} [CidrOps κ]

/-- The WAN device has the address, subnet and gateway of the lease in `WanState`. -/
def Synced (s : Router κ σ H) : Prop :=
  ∀ cidr, s.client.wan.addr = some cidr → s.wan.cfg.ourIp = CidrOps.address cidr ∧
    s.wan.cfg.subnet = cidr ∧ s.wan.cfg.gateway = s.client.wan.gw

/-- A step that changes neither the lease nor the WAN device. -/
theorem Synced.congr {s s' : Router κ σ H} (h : Synced s) (hc : s'.client = s.client)
    (hd : s'.wan = s.wan) : Synced s' := by
  intro cidr ha
  rw [hc] at ha ⊢
  rw [hd]
  exact h cidr ha

/-- A lease that is held after an update is copied into the device. -/
theorem synced_applyLease [DnsSocketOps σ H] (s : Router κ σ H) (ev : DhcpEvent κ) :
    Synced (s.applyLease ev) := by
  intro cidr ha
  cases ev with
  | none =>
    have ha : s.client.wan.addr = some cidr := ha
    simp [Router.applyLease, Router.syncLease, WanClient.dhcpApply, ha, ForwardingDevice.setLease]
  | deconfigured => cases ha
  | configured address router dnsServers =>
    obtain rfl : address = cidr := Option.some_inj.1 ha
    exact ⟨rfl, rfl, rfl⟩

/-- The WAN device is in step with the lease; without one it has no address and has learned
nothing. -/
structure LeaseInv (s : Router κ σ H) : Prop where
  synced : Synced s
  unleased : s.client.wan.addr = none →
    s.wan.cfg.ourIp = .unspecified ∧ ∀ ip, s.fwd.wanNeigh.lookup ip = none

/-- A step that changes neither the lease nor the WAN device, and learns on the WAN side only with
an address. -/
theorem LeaseInv.congr {s s' : Router κ σ H} (h : LeaseInv s) (hc : s'.client = s.client)
    (hd : s'.wan = s.wan)
    (hn : s.wan.cfg.ourIp = .unspecified → s'.fwd.wanNeigh = s.fwd.wanNeigh) : LeaseInv s' := by
  refine ⟨h.synced.congr hc hd, fun ha => ?_⟩
  rw [hc] at ha
  obtain ⟨hip, hlook⟩ := h.unleased ha
  rw [hd, hn hip]
  exact ⟨hip, hlook⟩

/-- A lease update, if it loses no lease. -/
theorem LeaseInv.applyLease [DnsSocketOps σ H] {s : Router κ σ H} (h : LeaseInv s)
    {ev : DhcpEvent κ} (hkeep : KeepsLease s (.lease ev)) : LeaseInv (s.applyLease ev) := by
  refine ⟨synced_applyLease s ev, fun hnone => ?_⟩
  cases ev with
  | none =>
    have ha : s.client.wan.addr = none := hnone
    have hwan : (s.applyLease .none).wan = s.wan := by
      simp only [Router.applyLease, Router.syncLease, WanClient.dhcpApply, ha]
    rw [hwan]
    exact h.unleased ha
  | deconfigured => exact h.unleased hkeep
  | configured => cases hnone

end Invariant

section Runs

variable {κ σ H : Type} [CidrOps κ] [Ipv4PacketOps] [DnsSocketOps σ H]

/-- The WAN device follows the lease, and without one no step takes a forwarded frame across the WAN
side. -/
def FollowsLease (s : Router κ σ H) : Prop :=
  Synced s ∧ (s.client.wan.addr = none →
    ∀ ev s', (routerSystem κ σ H).step s ev s' → ¬ ev.crossesWan)

variable [LawfulIpv4Packet] {tr : List (RouterEvent κ)} {ev : RouterEvent κ} {s s' : Router κ σ H}

omit [LawfulIpv4Packet] in
/-- **Every step** keeps the device in step with the lease held. -/
theorem Synced.step (h : Synced s) (hst : RouterStep s ev s') : Synced s' := by
  cases hst with
  | lease ev => exact synced_applyLease s ev
  | rx | drain | reap => exact h.congr rfl rfl

/-- **One step** leaves a device without a lease without an address, if it loses no lease. -/
theorem LeaseInv.step (h : LeaseInv s) (hC : Conserved tr s) (hkeep : KeepsLease s ev)
    (hst : RouterStep s ev s') : LeaseInv s' := by
  cases hst with
  | lease ev => exact h.applyLease hkeep
  | reap => exact h.congr rfl rfl fun _ => rfl
  | @drain i frame q now ready fwd out hold he =>
    have hlen : 34 ≤ frame.length := hC.long i.other frame (hold ▸ List.mem_cons_self)
    obtain ⟨fwd', out', he', hdone⟩ :=
      (s.device i).egress_cases (s.fwd.setQueue i.other q) hlen now ready
    rw [he] at he'
    cases he'
    refine h.congr rfl rfl fun _ => hdone.wanNeigh.trans ?_
    cases i <;> rfl
  | @rx i buf ts c frame ct fwd out hc hr =>
    obtain ⟨t, ht, hset⟩ := RouterStep.fwd_rx hc hr
    rw [hC.wired] at ht hset
    have hfwd := congrArg (fun r => r.1.wanNeigh) hset
    rw [ForwardingDevice.wanNeigh_settle] at hfwd
    refine h.congr rfl rfl fun hip => hfwd.symm.trans ?_
    cases i with
    | lan => rfl
    | wan =>
      -- without an address nothing is learned
      obtain ⟨t', ht', hsame⟩ := learn_ok s.wan.cfg s.fwd.wanNeigh (ForwardingDevice.capture buf)
      obtain rfl : t = t' := Except.ok.inj (ht.symm.trans ht')
      exact hsame (by simp [hip, Ipv4Address.isUnspecified])

/-- **Without a lease** no step takes a forwarded frame across the WAN side. -/
theorem LeaseInv.not_crossesWan (h : LeaseInv s) (hC : Conserved tr s)
    (hnone : s.client.wan.addr = none) (hst : RouterStep s ev s') : ¬ ev.crossesWan := by
  obtain ⟨hip, hlook⟩ := h.unleased hnone
  cases hst with
  | lease ev => exact id
  | reap => exact id
  | @drain i frame q now ready fwd out hold he =>
    cases i with
    | lan => exact id
    | wan =>
      -- no next hop is known
      have hlen : 34 ≤ frame.length := hC.long _ frame (hold ▸ List.mem_cons_self)
      obtain ⟨fwd', out', he', hdone⟩ := s.wan.egress_cases (s.fwd.setQueue .lan q) hlen now ready
      have heq := he.symm.trans he'
      cases heq
      intro hout
      obtain ⟨g, rfl⟩ := Option.ne_none_iff_exists'.1 hout
      obtain ⟨nh, dmac, -, hl, -⟩ := (hdone.sent g rfl).1.dstMac
      rw [show s.wan.cfg.iface = .wan from hC.wired .wan] at hl
      rw [show (s.fwd.setQueue .lan q).neigh .wan = s.fwd.wanNeigh from rfl, hlook] at hl
      cases hl
  | @rx i buf ts c frame ct fwd out hc hr =>
    cases i with
    | lan => exact id
    | wan =>
      -- everything goes to the local stack
      have hunspec : s.wan.cfg.ourIp.isUnspecified = true := by
        simp [hip, Ipv4Address.isUnspecified]
      have hlocal : c = .local := by
        rcases s.wan.classifyFrame_cases s.fwd.ct (ForwardingDevice.capture buf) ts with
          ⟨l4, _, _, _, _, hask, -⟩ | ⟨-, c', hc', hcl⟩
        · rw [hask.toUs.leased] at hunspec
          exact Bool.noConfusion hunspec
        · rw [classify_unspecified hunspec] at hc'
          have heq := hc.symm.trans hcl
          cases hc'
          cases heq
          rfl
      rw [if_neg (by simp [hlocal])]
      exact fun hsent => hsent rfl

/-- **Forwarding follows the lease.**  In every run the WAN device has the address, subnet and
gateway of the lease held in `WanState`; and in every run in which no lease is lost, no forwarded
frame is sent out of the WAN side or diverted from it while there is none. -/
theorem lease_followed (h : (routerSystem κ σ H).Run tr s) :
    Synced s ∧ (((routerSystem κ σ H).restrict KeepsLease).Run tr s → FollowsLease s) := by
  have hsynced : Synced s := by
    refine h.induction (J := fun _ s => Synced s) (fun s hs cidr ha => ?_)
      fun _ _ _ _ _ hI hst => hI.step hst
    rw [hs.client] at ha
    cases ha
  refine ⟨hsynced, fun hkept => ⟨hsynced, fun hnone ev s' hst => ?_⟩⟩
  have hinv : LeaseInv s := by
    refine hkept.induction (J := fun _ s => LeaseInv s)
      (fun s hs => ⟨fun cidr ha => ?_, fun _ => ⟨hs.unleased, fun ip => ?_⟩⟩)
      fun tr s ev s' hrun hI hst => hI.step (router_conserved hrun.of_restrict) hst.1 hst.2
    · rw [hs.client] at ha
      cases ha
    · rw [hs.fwd]
      exact NeighborTable.lookup_new ip
  exact hinv.not_crossesWan (router_conserved h) hnone hst

end Runs

/-- The first lease is followed. -/
theorem lease_followed_first :
    @FollowsLease Ipv4Cidr DnsSlots (Fin 2) _ headerOps _ (routerStart.applyLease dnsLease) := by
  let _ := headerOps
  have _ := headerOps_lawful
  have h₀ : ((routerSystem Ipv4Cidr DnsSlots (Fin 2)).restrict KeepsLease).Run [] routerStart :=
    .init routerStart_start
  have h₁ : ((routerSystem Ipv4Cidr DnsSlots (Fin 2)).restrict KeepsLease).step routerStart
      (.lease dnsLease) (routerStart.applyLease dnsLease) := ⟨trivial, .lease dnsLease⟩
  exact (lease_followed (h₀.snoc h₁).of_restrict).2 (h₀.snoc h₁)

/-- A lease is gained and lost.  The device keeps its address, and diverts a frame for a LAN
client. -/
theorem lease_notFollowed :
    ¬ ∀ (tr : List (RouterEvent Ipv4Cidr)) (s : Router Ipv4Cidr DnsSlots (Fin 2)),
      (@routerSystem Ipv4Cidr DnsSlots (Fin 2) _ headerOps _).Run tr s →
      @FollowsLease Ipv4Cidr DnsSlots (Fin 2) _ headerOps _ s := by
  let _ := headerOps
  intro hall
  have h₀ : (routerSystem Ipv4Cidr DnsSlots (Fin 2)).Run [] routerStart := .init routerStart_start
  have hrun := (h₀.snoc (RouterStep.lease dnsLease)).snoc (RouterStep.lease .deconfigured)
  obtain ⟨s, hs⟩ : ∃ s, (routerStart.applyLease dnsLease).applyLease .deconfigured = s := ⟨_, rfl⟩
  rw [hs] at hrun
  have hnone : s.client.wan.addr = none := by rw [← hs]; rfl
  obtain ⟨t, c, frame, ct, -, hcl, -, hturn⟩ := s.wan.receiveTurn_ok s.fwd forLanClient 0
  have hc : (s.wan.classifyFrame s.fwd.ct (ForwardingDevice.capture forLanClient) 0).map
      (fun r => (r.1, r.2.1)) = .ok (.transit, forLanClient) := by
    rw [← hs]
    decide +kernel
  rw [hcl] at hc
  obtain ⟨rfl, rfl⟩ : c = .transit ∧ frame = forLanClient := by simpa [Except.map] using hc
  have hroom : (s.fwd.queue .wan).length < chanDepth := by
    rw [← hs]
    decide
  have hcross := (hall _ s hrun).2 hnone _ _ (RouterStep.rx (i := .wan) hcl hturn)
  rw [if_pos ⟨rfl, hroom⟩] at hcross
  exact hcross (Option.some_ne_none _)

end Pico10BaseT
