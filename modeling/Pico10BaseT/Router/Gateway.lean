import Pico10BaseT.Forward.NeighborHistory
import Pico10BaseT.Router.Lease

/-!
# Resolving the gateway

`wan_task` asks for the MAC of the gateway: at once when a lease brings a new one, and every second
until the neighbor table knows it.  The answer reaches the table as any ARP frame does (`learn`).
Between two turns of the task, and in its own receive and forwarding loops, the router takes any
steps.

* `Attended` : a turn less than a period ago has asked for the gateway, or left it known.
* `gateway_resolved` : the gateway of a lease is attended to, an answer makes it known, and frames
  off the subnet go to the MAC that is known.
-/

namespace Pico10BaseT

/-! ### ARP -/

/-- The frame of an ARP packet. -/
def arpFrame (dst src : Vector UInt8 6) (oper : UInt16) (sha : Vector UInt8 6) (spa : Ipv4Address)
    (tha : Vector UInt8 6) (tpa : Ipv4Address) : Frame :=
  dst.toList ++ src.toList ++ toBeBytes ethertypeArp ++ arpEthIpv4Prefix ++ toBeBytes oper ++
    sha.toList ++ spa.octets ++ tha.toList ++ tpa.octets

/-- Broadcast ARP request "who-has `tpa`, tell `spa`" (42 bytes; TX pads it). -/
def buildArpRequest (ourMac : Vector UInt8 6) (spa tpa : Ipv4Address) : Exec Frame := do
  let f := List.replicate 42 0
  -- dst MAC = broadcast
  let f ← copyFromSlice f 0 (List.replicate 6 0xff)
  let f ← copyFromSlice f 6 ourMac.toList
  let f ← copyFromSlice f 12 (toBeBytes ethertypeArp)
  let f ← copyFromSlice f 14 arpEthIpv4Prefix
  -- oper = request
  let f ← copyFromSlice f 20 (toBeBytes 1)
  let f ← copyFromSlice f 22 ourMac.toList
  let f ← copyFromSlice f 28 spa.octets
  -- tha is left zero: that is what the request asks for
  copyFromSlice f 38 tpa.octets

/-- `wan_neigh_known` -/
def FwdState.wanNeighKnown (st : FwdState) (ip : Ipv4Address) : Bool :=
  (st.wanNeigh.lookup ip).isSome

section

variable {κ : Type}

/-- The request for `gw` of an interface. -/
def arpRequest (cfg : IfaceCfg κ) (gw : Ipv4Address) : Frame :=
  arpFrame (.replicate 6 0xff) cfg.ourMac 1 cfg.ourMac cfg.ourIp (.replicate 6 0) gw

/-- What a host with the MAC `mac` and the address asked for answers. -/
def arpReply (mac : Vector UInt8 6) (f : Frame) : Frame :=
  arpFrame (macAt f 22) mac 2 mac (ipAt f 38) (macAt f 22) (ipAt f 28)

/-- ARP the gateway so that its MAC is known before the first forwarded frame: the frames sent.
No-op until a gateway and IP are leased. -/
def ForwardingDevice.arpGateway (dev : ForwardingDevice κ) (ready : Bool) : Exec (List Frame) := do
  match dev.cfg.gateway with
  | none => return []
  | some gw =>
    if dev.cfg.ourIp.isUnspecified then return []
    else
      let arp ← buildArpRequest dev.cfg.ourMac dev.cfg.ourIp gw
      return if ready then [arp] else []

theorem exists_mac (v : Vector UInt8 6) : ∃ a b c d e f, v = #v[a, b, c, d, e, f] := by
  refine ⟨v[0], v[1], v[2], v[3], v[4], v[5], Vector.ext fun i hi => ?_⟩
  rcases (by omega : i = 0 ∨ i = 1 ∨ i = 2 ∨ i = 3 ∨ i = 4 ∨ i = 5) with
    rfl | rfl | rfl | rfl | rfl | rfl <;> rfl

/-- The fields of an ARP frame. -/
theorem arpFrame_fields (dst src : Vector UInt8 6) (oper : UInt16) (sha : Vector UInt8 6)
    (spa : Ipv4Address) (tha : Vector UInt8 6) (tpa : Ipv4Address) :
    IsArp (arpFrame dst src oper sha spa tha tpa) ∧
      macAt (arpFrame dst src oper sha spa tha tpa) 22 = sha ∧
      ipAt (arpFrame dst src oper sha spa tha tpa) 28 = spa ∧
      ipAt (arpFrame dst src oper sha spa tha tpa) 38 = tpa ∧
      (arpFrame dst src oper sha spa tha tpa).length = 42 := by
  obtain ⟨_, _, _, _, _, _, rfl⟩ := exists_mac dst
  obtain ⟨_, _, _, _, _, _, rfl⟩ := exists_mac src
  obtain ⟨_, _, _, _, _, _, rfl⟩ := exists_mac sha
  obtain ⟨_, _, _, _, _, _, rfl⟩ := exists_mac tha
  exact ⟨⟨fromBeBytes_toBeBytes ethertypeArp,
    by simp [arpFrame, Ipv4Address.octets, arpEthIpv4Prefix], rfl⟩, rfl, rfl, rfl, rfl⟩

theorem buildArpRequest_eq (cfg : IfaceCfg κ) (gw : Ipv4Address) :
    buildArpRequest cfg.ourMac cfg.ourIp gw = .ok (arpRequest cfg gw) := by
  obtain ⟨_, _, _, _, _, _, hmac⟩ := exists_mac cfg.ourMac
  simp [buildArpRequest, arpRequest, arpFrame, hmac, copyFromSlice, splice, Ipv4Address.octets,
    arpEthIpv4Prefix, toBeBytes, List.replicate]

theorem arpGateway_eq {dev : ForwardingDevice κ} {gw : Ipv4Address}
    (hgw : dev.cfg.gateway = some gw) (hip : dev.cfg.ourIp.isUnspecified = false) :
    dev.arpGateway true = .ok [arpRequest dev.cfg gw] := by
  simp [ForwardingDevice.arpGateway, hgw, hip, buildArpRequest_eq]

end

/-! ### The task -/

/-- The period of the probes of `wan_task`, in microseconds. -/
def probePeriod : ℕ := 1000000

/-- The router, what `wan_task` keeps between its turns, and the time of the last. -/
structure WanTask (κ σ H : Type) where
  router : Router κ σ H
  /-- Last lease's gateway, to ARP it as soon as it changes. -/
  prevGw : Option Ipv4Address
  nextPing : ℕ
  clock : ℕ

section

variable {κ σ H : Type} [CidrOps κ] [DnsSocketOps σ H]

/-- What happens every second: (re)start a DNS query, and re-ARP the gateway until learned, once we
hold a lease; sweep idle NAPT entries. -/
def Router.probe (r : Router κ σ H) (now : ℕ) : Exec (Router κ σ H × List Frame) := do
  let swept : Router κ σ H := { r with fwd := { r.fwd with ct := r.fwd.ct.reap (now / 1000) } }
  if r.client.wan.addr.isSome then
    let asked ←
      match r.client.wan.gw with
      | some gw => if r.fwd.wanNeighKnown gw then pure [] else r.wan.arpGateway true
      | none => pure []
    return ({ swept with client := r.client.dnsStart }, asked)
  else return (swept, [])

/-- ARP a new gateway now, so that the first forwarded frame finds its MAC. -/
def WanTask.askNew (t : WanTask κ σ H) (r : Router κ σ H) : Exec (List Frame) :=
  if r.client.wan.gw.isSome ∧ r.client.wan.gw ≠ t.prevGw then r.wan.arpGateway true else return []

/-- A turn of `wan_task` at the time `now`, after `iface.poll` and up to the forwarding loop: the
requests it sends.  The inner device always has a TX token. -/
def WanTask.turn (t : WanTask κ σ H) (ev : DhcpEvent κ) (now : ℕ) :
    Exec (WanTask κ σ H × List Frame) := do
  let r := t.router.applyLease ev
  let asked ← t.askNew r
  let gw := r.client.wan.gw
  let r : Router κ σ H := { r with client := r.client.dnsHarvest }
  if now < t.nextPing then
    return ({ router := r, prevGw := gw, nextPing := t.nextPing, clock := now }, asked)
  else
    let (r, again) ← r.probe now
    return ({ router := r, prevGw := gw, nextPing := now + probePeriod, clock := now },
      asked ++ again)

end

inductive WanTaskEvent (κ : Type)
  /-- A step of either task that changes no lease. -/
  | router (ev : RouterEvent κ)
  /-- A turn of `wan_task` processed the DHCP event and sent the requests. -/
  | turn (ev : DhcpEvent κ) (now : ℕ) (asked : List Frame)

section System

variable {κ σ H : Type} [CidrOps κ] [Ipv4PacketOps] [DnsSocketOps σ H]

/-- One step of the router with its WAN task. -/
inductive WanTaskStep : WanTask κ σ H → WanTaskEvent κ → WanTask κ σ H → Prop
  | router {t : WanTask κ σ H} {ev : RouterEvent κ} {r : Router κ σ H} :
      (∀ dhcp, ev ≠ .lease dhcp) → RouterStep t.router ev r →
      WanTaskStep t (.router ev) { t with router := r }
  | turn {t t' : WanTask κ σ H} {ev : DhcpEvent κ} {now : ℕ} {asked : List Frame} :
      t.clock ≤ now → t.turn ev now = .ok (t', asked) → WanTaskStep t (.turn ev now asked) t'

variable (κ σ H) in
/-- The router with its WAN task, before the first lease. -/
def wanTaskSystem : System (WanTask κ σ H) (WanTaskEvent κ) where
  init t := t.router.Start ∧ t.prevGw = none ∧ t.nextPing = t.clock
  step := WanTaskStep

/-- The lease is of an address; the DHCP client takes no other. -/
def LeasesAddress (_ : WanTask κ σ H) : WanTaskEvent κ → Prop
  | .turn (.configured cidr _ _) _ _ => (CidrOps.address cidr).isUnspecified = false
  | _ => True

/-- A turn less than a period ago has left the gateway known, or asked for it. -/
def Attended (ls : List (WanTaskEvent κ)) (t : WanTask κ σ H) (gw : Ipv4Address) : Prop :=
  ∃ pre ev now asked post t₁, ls = pre ++ .turn ev now asked :: post ∧
    t.clock < t.nextPing ∧ t.nextPing ≤ now + probePeriod ∧
    ((wanTaskSystem κ σ H).restrict LeasesAddress).Run (pre ++ [.turn ev now asked]) t₁ ∧
    ((wanTaskSystem κ σ H).restrict LeasesAddress).Path t₁ post t ∧
    (t₁.router.fwd.wanNeighKnown gw = true ∨ arpRequest t₁.router.wan.cfg gw ∈ asked)

/-! ### A turn -/

omit [CidrOps κ] [Ipv4PacketOps] in
theorem WanClient.dnsStart_lease (c : WanClient κ σ H) :
    c.dnsStart.wan.addr = c.wan.addr ∧ c.dnsStart.wan.gw = c.wan.gw := by
  unfold WanClient.dnsStart
  split_ifs
  · exact ⟨rfl, rfl⟩
  · split <;> exact ⟨rfl, rfl⟩

omit [CidrOps κ] [Ipv4PacketOps] in
theorem WanClient.dnsHarvest_lease (c : WanClient κ σ H) :
    c.dnsHarvest.wan.addr = c.wan.addr ∧ c.dnsHarvest.wan.gw = c.wan.gw := by
  unfold WanClient.dnsHarvest
  split
  · exact ⟨rfl, rfl⟩
  · split <;> exact ⟨rfl, rfl⟩

/-- The lease of a router and what the WAN device makes of it: a gateway comes with an address, and
the device has both. -/
structure Leased (r : Router κ σ H) : Prop where
  wired : r.wan.cfg.iface = .wan
  addr : r.client.wan.gw.isSome → r.client.wan.addr.isSome
  synced : Synced r
  specified : ∀ cidr, r.client.wan.addr = some cidr → (CidrOps.address cidr).isUnspecified = false

omit [Ipv4PacketOps] [DnsSocketOps σ H] in
theorem Leased.congr {r r' : Router κ σ H} (h : Leased r) (hw : r'.wan = r.wan)
    (ha : r'.client.wan.addr = r.client.wan.addr) (hg : r'.client.wan.gw = r.client.wan.gw) :
    Leased r' := by
  refine ⟨by rw [hw]; exact h.wired, by rw [ha, hg]; exact h.addr, fun cidr hc => ?_,
    fun cidr hc => ?_⟩
  · rw [hw, hg]
    exact h.synced cidr (ha.symm.trans hc)
  · exact h.specified cidr (ha.symm.trans hc)

omit [Ipv4PacketOps] in
theorem Leased.applyLease {r : Router κ σ H} (h : Leased r) {ev : DhcpEvent κ}
    (hev : ∀ cidr router servers, ev = .configured cidr router servers →
      (CidrOps.address cidr).isUnspecified = false) : Leased (r.applyLease ev) := by
  have hsynced : Synced (r.applyLease ev) := by
    intro cidr ha
    have ha' : (r.client.dhcpApply ev).wan.addr = some cidr := ha
    simp [Router.applyLease, Router.syncLease, ha', ForwardingDevice.setLease]
  have hwired : (r.applyLease ev).wan.cfg.iface = .wan := by
    simp only [Router.applyLease, Router.syncLease]
    split
    · exact h.wired
    · exact h.wired
  cases ev with
  | none => exact ⟨hwired, h.addr, hsynced, h.specified⟩
  | deconfigured =>
    refine ⟨hwired, fun hg => ?_, hsynced, fun cidr ha => ?_⟩
    · cases hg
    · cases ha
  | configured cidr router servers =>
    refine ⟨hwired, fun _ => rfl, hsynced, fun cidr' ha => ?_⟩
    obtain rfl : cidr = cidr' := Option.some_inj.1 ha
    exact hev cidr router servers rfl

omit [Ipv4PacketOps] [DnsSocketOps σ H] in
/-- A leased gateway is asked for. -/
theorem Leased.arpGateway {r : Router κ σ H} (h : Leased r) {gw : Ipv4Address}
    (hgw : r.client.wan.gw = some gw) : r.wan.arpGateway true = .ok [arpRequest r.wan.cfg gw] := by
  obtain ⟨cidr, ha⟩ := Option.isSome_iff_exists.1 (h.addr (by rw [hgw]; rfl))
  obtain ⟨hip, -, hgate⟩ := h.synced cidr ha
  exact arpGateway_eq (hgate.trans hgw) (by rw [hip]; exact h.specified cidr ha)

/-- What a turn leaves. -/
structure TurnDone (t : WanTask κ σ H) (ev : DhcpEvent κ) (now : ℕ) (t' : WanTask κ σ H)
    (asked : List Frame) : Prop where
  wan : t'.router.wan = (t.router.applyLease ev).wan
  addr : t'.router.client.wan.addr = (t.router.applyLease ev).client.wan.addr
  gw : t'.router.client.wan.gw = (t.router.applyLease ev).client.wan.gw
  neigh : t'.router.fwd.wanNeigh = t.router.fwd.wanNeigh
  prevGw : t'.prevGw = t'.router.client.wan.gw
  clock : t'.clock = now
  nextPing : t'.nextPing = if now < t.nextPing then t.nextPing else now + probePeriod
  /-- A new gateway is asked for. -/
  fresh : ∀ gw, t'.router.client.wan.gw = some gw → t.prevGw ≠ some gw →
    arpRequest t'.router.wan.cfg gw ∈ asked
  /-- Every second a gateway is asked for, or known. -/
  probed : ∀ gw, t'.router.client.wan.gw = some gw → t.nextPing ≤ now →
    t'.router.fwd.wanNeighKnown gw = true ∨ arpRequest t'.router.wan.cfg gw ∈ asked

omit [Ipv4PacketOps] in
/-- The probe, after a lease update. -/
theorem Router.probe_spec {r : Router κ σ H} (h : Leased r) (now : ℕ) :
    ∃ r' again, r.probe now = .ok (r', again) ∧ r'.wan = r.wan ∧
      r'.client.wan.addr = r.client.wan.addr ∧ r'.client.wan.gw = r.client.wan.gw ∧
      r'.fwd.wanNeigh = r.fwd.wanNeigh ∧
      ∀ gw, r.client.wan.gw = some gw →
        r.fwd.wanNeighKnown gw = true ∨ arpRequest r.wan.cfg gw ∈ again := by
  obtain ⟨haddr, hgate⟩ := r.client.dnsStart_lease
  unfold Router.probe
  by_cases ha : r.client.wan.addr.isSome
  · simp only [if_pos ha]
    cases hgw : r.client.wan.gw with
    | none => exact ⟨_, _, rfl, rfl, haddr, hgate.trans hgw, rfl, fun _ h => by cases h⟩
    | some gw =>
      by_cases hk : r.fwd.wanNeighKnown gw
      · simp only [if_pos hk]
        refine ⟨_, _, rfl, rfl, haddr, hgate.trans hgw, rfl, ?_⟩
        rintro _ ⟨⟩
        exact .inl hk
      · simp only [if_neg hk, h.arpGateway hgw]
        refine ⟨_, _, rfl, rfl, haddr, hgate.trans hgw, rfl, ?_⟩
        rintro _ ⟨⟩
        exact .inr List.mem_cons_self
  · rw [if_neg ha]
    exact ⟨_, _, rfl, rfl, rfl, rfl, rfl, fun gw hgw => absurd (h.addr (by rw [hgw]; rfl)) ha⟩

omit [Ipv4PacketOps] [DnsSocketOps σ H] in
theorem WanTask.askNew_spec (t : WanTask κ σ H) {r : Router κ σ H} (h : Leased r) :
    ∃ asked, t.askNew r = .ok asked ∧ ∀ gw, r.client.wan.gw = some gw → t.prevGw ≠ some gw →
      arpRequest r.wan.cfg gw ∈ asked := by
  rw [WanTask.askNew]
  split_ifs with hnew
  · obtain ⟨gw, hgw⟩ := Option.isSome_iff_exists.1 hnew.1
    refine ⟨_, h.arpGateway hgw, fun gw' hgw' _ => ?_⟩
    obtain rfl := Option.some_inj.1 (hgw.symm.trans hgw')
    exact List.mem_cons_self
  · refine ⟨[], rfl, fun gw hgw hne => absurd ⟨?_, ?_⟩ hnew⟩
    · rw [hgw]
      rfl
    · rw [hgw]
      exact Ne.symm hne

omit [Ipv4PacketOps] in
/-- **A turn** returns, and asks for a gateway that is new, or not known when it probes. -/
theorem WanTask.turn_spec {t : WanTask κ σ H} {ev : DhcpEvent κ}
    (h : Leased (t.router.applyLease ev)) (now : ℕ) :
    ∃ t' asked, t.turn ev now = .ok (t', asked) ∧ TurnDone t ev now t' asked := by
  set r := t.router.applyLease ev with hr
  obtain ⟨haddr, hgate⟩ := r.client.dnsHarvest_lease
  have hneigh : r.fwd.wanNeigh = t.router.fwd.wanNeigh := rfl
  have hleased : Leased { r with client := r.client.dnsHarvest } := h.congr rfl haddr hgate
  obtain ⟨asked, hasked, hfresh⟩ := t.askNew_spec h
  unfold WanTask.turn
  simp only [← hr, hasked, Exec.ok_bind]
  by_cases hnow : now < t.nextPing
  · simp only [if_pos hnow]
    refine ⟨_, _, rfl, ?_⟩
    exact ⟨rfl, haddr, hgate, hneigh, hgate.symm, rfl, (if_pos hnow).symm,
      fun gw hgw => hfresh gw (hgate.symm.trans hgw), fun _ _ hle => absurd hnow (Nat.not_lt.2 hle)⟩
  · simp only [if_neg hnow]
    obtain ⟨r', again, hprobe, hwan, hra, hrg, hrn, hknown⟩ := Router.probe_spec hleased now
    simp only [hprobe, Exec.ok_bind]
    refine ⟨_, _, rfl, ?_⟩
    refine ⟨hwan, hra.trans haddr, hrg.trans hgate, hrn.trans hneigh, (hrg.trans hgate).symm, rfl,
      (if_neg hnow).symm, fun gw hgw hne => ?_, fun gw hgw _ => ?_⟩
    · rw [hwan]
      exact List.mem_append_left _ (hfresh gw ((hrg.trans hgate).symm.trans hgw) hne)
    · rw [FwdState.wanNeighKnown, hrn, hwan]
      exact (hknown gw (hrg.symm.trans hgw)).imp_right (List.mem_append_right _)

/-! ### Runs -/

variable {ls : List (WanTaskEvent κ)} {t t' : WanTask κ σ H} {l : WanTaskEvent κ}

/-- A step that leaves time in the period leaves a gateway attended. -/
theorem Attended.snoc {gw : Ipv4Address} (h : Attended ls t gw)
    (hst : ((wanTaskSystem κ σ H).restrict LeasesAddress).step t l t')
    (hlt : t'.clock < t'.nextPing) (hle : t'.nextPing ≤ t.nextPing) :
    Attended (ls ++ [l]) t' gw := by
  obtain ⟨pre, ev, now, asked, post, t₁, rfl, -, hdue, hrun, hpath, hasked⟩ := h
  exact ⟨pre, ev, now, asked, post ++ [l], t₁, by simp, hlt, hle.trans hdue, hrun,
    hpath.snoc hst, hasked⟩

/-- The lease, its gateway attended to, and the time of the next probe. -/
structure GatewayInv (ls : List (WanTaskEvent κ)) (t : WanTask κ σ H) : Prop where
  leased : Leased t.router
  prevGw : t.prevGw = t.router.client.wan.gw
  due : t.nextPing ≤ t.clock + probePeriod
  attended : ∀ gw, t.router.client.wan.gw = some gw → Attended ls t gw

/-- **A turn** attends to the gateway of the lease. -/
theorem GatewayInv.turn {ev : DhcpEvent κ} {now : ℕ} {asked : List Frame}
    (hrun : ((wanTaskSystem κ σ H).restrict LeasesAddress).Run ls t) (h : GatewayInv ls t)
    (hev : LeasesAddress t (.turn ev now asked)) (hclock : t.clock ≤ now)
    (hturn : t.turn ev now = .ok (t', asked)) :
    GatewayInv (ls ++ [.turn ev now asked]) t' := by
  have hleased : Leased (t.router.applyLease ev) :=
    h.leased.applyLease fun cidr router servers heq => by
      subst heq
      exact hev
  obtain ⟨t'', asked', hturn', hdone⟩ := WanTask.turn_spec hleased now
  obtain ⟨rfl, rfl⟩ : t' = t'' ∧ asked = asked' := by
    rw [hturn] at hturn'
    exact Prod.mk.inj (Except.ok.inj hturn')
  have hdue : t'.nextPing ≤ now + probePeriod := by
    have hold := h.due
    rw [hdone.nextPing]
    split_ifs <;> omega
  have hlt : t'.clock < t'.nextPing := by
    rw [hdone.clock, hdone.nextPing, probePeriod]
    split_ifs <;> omega
  have hnow : ∀ gw, (t'.router.fwd.wanNeighKnown gw = true ∨
      arpRequest t'.router.wan.cfg gw ∈ asked) → Attended (ls ++ [.turn ev now asked]) t' gw :=
    fun gw hgw => ⟨ls, ev, now, asked, [], t', rfl, hlt, hdue,
      hrun.snoc ⟨hev, .turn hclock hturn⟩, .nil, hgw⟩
  refine ⟨hleased.congr hdone.wan hdone.addr hdone.gw, hdone.prevGw, hdone.clock ▸ hdue,
    fun gw hgw => ?_⟩
  by_cases hprobe : t.nextPing ≤ now
  · exact hnow gw (hdone.probed gw hgw hprobe)
  · by_cases hprev : t.prevGw = some gw
    · -- the gateway is the one of the turn before
      refine (h.attended gw (h.prevGw.symm.trans hprev)).snoc ⟨hev, .turn hclock hturn⟩ hlt ?_
      rw [hdone.nextPing, if_pos (Nat.lt_of_not_le hprobe)]
    · exact hnow gw (.inr (hdone.fresh gw hgw hprev))

/-- Only a lease update changes the lease and the WAN device. -/
theorem RouterStep.lease_frame {r r' : Router κ σ H} {ev : RouterEvent κ}
    (h : RouterStep r ev r') (hev : ∀ dhcp, ev ≠ .lease dhcp) :
    r'.wan = r.wan ∧ r'.client = r.client := by
  cases h with
  | lease ev => exact absurd rfl (hev ev)
  | rx => exact ⟨rfl, rfl⟩
  | drain => exact ⟨rfl, rfl⟩
  | reap => exact ⟨rfl, rfl⟩

/-- **One step.** -/
theorem GatewayInv.step (hrun : ((wanTaskSystem κ σ H).restrict LeasesAddress).Run ls t)
    (h : GatewayInv ls t) (hst : ((wanTaskSystem κ σ H).restrict LeasesAddress).step t l t') :
    GatewayInv (ls ++ [l]) t' := by
  obtain ⟨hev, hst⟩ := hst
  cases hst with
  | turn hclock hturn => exact h.turn hrun hev hclock hturn
  | router hno hstep =>
    obtain ⟨hwan, hclient⟩ := hstep.lease_frame hno
    refine ⟨h.leased.congr hwan (by rw [hclient]) (by rw [hclient]), ?_, h.due, fun gw hgw => ?_⟩
    · rw [hclient]
      exact h.prevGw
    rw [hclient] at hgw
    have hatt := h.attended gw hgw
    obtain ⟨-, -, -, -, -, -, -, hlt, -⟩ := id hatt
    exact hatt.snoc ⟨hev, .router hno hstep⟩ hlt le_rfl

theorem gatewayInv (h : ((wanTaskSystem κ σ H).restrict LeasesAddress).Run ls t) :
    GatewayInv ls t := by
  refine h.induction (J := GatewayInv) (fun t ht => ?_) fun _ _ _ _ hrun hJ hst => hJ.step hrun hst
  obtain ⟨hstart, hprev, hping⟩ := ht
  have haddr : t.router.client.wan.addr = none := by rw [hstart.client]; rfl
  have hgw : t.router.client.wan.gw = none := by rw [hstart.client]; rfl
  refine ⟨⟨hstart.wan.1, fun hg => ?_, fun cidr ha => ?_, fun cidr ha => ?_⟩, hprev.trans hgw.symm,
    hping ▸ Nat.le_add_right _ _, fun gw hg => ?_⟩
  · rw [hgw] at hg
    cases hg
  · rw [haddr] at ha
    cases ha
  · rw [haddr] at ha
    cases ha
  · rw [hgw] at hg
    cases hg

end System

/-! ### The answer, and its use -/

namespace NeighborTable

/-- The entry of an address that was not in the table is the only one of it. -/
theorem insert_of_position_eq_none {t : NeighborTable} {ip : Ipv4Address}
    (hpos : t.position ip = none) (mac : Vector UInt8 6) :
    ∃ i : Fin neighCap, i.val < (t.insert ip mac).used ∧ (t.insert ip mac).slot i = (ip, mac) ∧
      ∀ j : Fin neighCap, j.val < (t.insert ip mac).used →
        ((t.insert ip mac).slot j).1 = ip → j = i := by
  obtain ⟨i, hslot, hcases⟩ := t.insert_cases ip mac
  have hnone := position_eq_none hpos
  refine ⟨i, ?_, by rw [hslot, if_pos rfl], fun j hj hip => ?_⟩
  · rcases hcases with ⟨hi, -, hu, -⟩ | ⟨-, hi, hu, -⟩ | ⟨-, -, -, hu, -⟩
    · rw [hu]
      exact hi
    · omega
    · rw [hu]
      exact i.isLt
  · by_contra hne
    have hval := Fin.val_ne_of_ne hne
    rw [hslot, if_neg hne] at hip
    rcases hcases with ⟨hi, hold, -⟩ | ⟨-, hi, hu, -⟩ | ⟨-, -, hfull, -⟩
    · exact hnone i hi hold
    · exact hnone j (by omega) hip
    · exact hnone j (by rw [hfull]; exact j.isLt) hip

theorem lookup_insert_self (t : NeighborTable) (ip : Ipv4Address) (mac : Vector UInt8 6) :
    (t.insert ip mac).lookup ip = some mac := by
  cases hpos : t.position ip with
  | some i =>
    have hpos' : (t.insert ip mac).position ip = some i := by
      rw [insert, hpos]
      exact hpos
    rw [lookup, hpos', Option.map_some]
    simp [insert, hpos]
  | none =>
    obtain ⟨i, hi, hslot, hunique⟩ := insert_of_position_eq_none hpos mac
    cases hpos' : (t.insert ip mac).position ip with
    | none => exact absurd (congrArg Prod.fst hslot) (position_eq_none hpos' i hi)
    | some j =>
      obtain ⟨hj, hip⟩ := position_eq_some hpos'
      obtain rfl := hunique j hj hip
      rw [lookup, hpos', Option.map_some]
      exact congrArg (some ∘ Prod.snd) hslot

end NeighborTable

section Resolved

variable {κ σ H : Type} [CidrOps κ]

omit [CidrOps κ] in
/-- The answer to a request names the address asked for. -/
theorem arpReply_fields (mac : Vector UInt8 6) (cfg : IfaceCfg κ) (gw : Ipv4Address) :
    IsArp (arpReply mac (arpRequest cfg gw)) ∧ macAt (arpReply mac (arpRequest cfg gw)) 22 = mac ∧
      ipAt (arpReply mac (arpRequest cfg gw)) 28 = gw ∧
      (arpReply mac (arpRequest cfg gw)).length = 42 := by
  have htpa : ipAt (arpRequest cfg gw) 38 = gw := (arpFrame_fields _ _ _ _ _ _ _).2.2.2.1
  obtain ⟨harp, hsha, hspa, -, hlen⟩ := arpFrame_fields (macAt (arpRequest cfg gw) 22) mac 2 mac
    (ipAt (arpRequest cfg gw) 38) (macAt (arpRequest cfg gw) 22) (ipAt (arpRequest cfg gw) 28)
  exact ⟨harp, hsha, hspa.trans htpa, hlen⟩

/-- The answer to a request is learned. -/
theorem learn_arpReply {cfg : IfaceCfg κ} {gw : Ipv4Address} (t : NeighborTable) (cfg₁ : IfaceCfg κ)
    (mac : Vector UInt8 6) (hip : cfg.ourIp.isUnspecified = false)
    (hnet : CidrOps.containsAddr cfg.subnet gw = true) :
    learn cfg t (arpReply mac (arpRequest cfg₁ gw)) = .ok (t.insert gw mac) := by
  obtain ⟨harp, hsha, hspa, hlen⟩ := arpReply_fields mac cfg₁ gw
  have hsrc : learnSource (arpReply mac (arpRequest cfg₁ gw)) = .ok (some (gw, mac)) := by
    rw [learnSource_eq (by omega), if_pos harp, hsha, hspa]
  rw [learn, if_neg (by rw [hip, hlen]; decide), hsrc, Exec.ok_bind]
  simp [hnet]

variable [Ipv4PacketOps] [DnsSocketOps σ H]

/-- What holds of the gateway of a lease. -/
structure GatewayResolved (ls : List (WanTaskEvent κ)) (t : WanTask κ σ H) (gw : Ipv4Address) :
    Prop where
  attended : Attended ls t gw
  /-- The answer to a request, whenever it was sent, makes a gateway on the subnet known when it is
  received. -/
  answered : ∀ (cfg : IfaceCfg κ) (mac : Vector UInt8 6) (ts : ℤ),
    CidrOps.containsAddr t.router.wan.cfg.subnet gw = true →
      ∃ st out, t.router.wan.receiveTurn t.router.fwd (arpReply mac (arpRequest cfg gw)) ts =
        .ok (st, out) ∧ st.wanNeigh.lookup gw = some mac
  /-- A frame that is sent off the subnet goes to the MAC that is known. -/
  used : ∀ (frame : Frame) (now : ℤ) (ready : Bool) (st' : FwdState) (g : Frame),
    34 ≤ frame.length →
    CidrOps.containsAddr t.router.wan.cfg.subnet (ipAt frame 30) = false →
    t.router.wan.egress t.router.fwd frame now ready = .ok (st', some g) →
      ∃ mac, t.router.fwd.wanNeigh.lookup gw = some mac ∧ g.take 6 = mac.toList

/-- **The gateway is resolved.**  In every run, while a lease with a gateway is held, a turn of
`wan_task` less than a period ago asked for its MAC or left it known; the answer makes it known, if
the gateway is on the subnet; and forwarded frames leave the subnet to that MAC only. -/
theorem gateway_resolved [LawfulIpv4Packet] {ls : List (WanTaskEvent κ)} {t : WanTask κ σ H}
    {gw : Ipv4Address} (h : ((wanTaskSystem κ σ H).restrict LeasesAddress).Run ls t)
    (hgw : t.router.client.wan.gw = some gw) : GatewayResolved ls t gw := by
  have hinv := gatewayInv h
  obtain ⟨cidr, ha⟩ := Option.isSome_iff_exists.1 (hinv.leased.addr (by rw [hgw]; rfl))
  obtain ⟨hip, -, hgate⟩ := hinv.leased.synced cidr ha
  have hspec : t.router.wan.cfg.ourIp.isUnspecified = false := by
    rw [hip]
    exact hinv.leased.specified cidr ha
  refine ⟨hinv.attended gw hgw, fun cfg mac ts hnet => ?_,
    fun frame now ready st' g hlen hoff heg => ?_⟩
  · obtain ⟨nt, c, frame, ct, hlearn, -, -, hturn⟩ :=
      t.router.wan.receiveTurn_ok t.router.fwd (arpReply mac (arpRequest cfg gw)) ts
    have hcap : ForwardingDevice.capture (arpReply mac (arpRequest cfg gw)) =
        arpReply mac (arpRequest cfg gw) := by
      rw [ForwardingDevice.capture, (arpReply_fields mac cfg gw).2.2.2]
      exact List.take_of_length_le (arpReply_fields mac cfg gw).2.2.2.le
    rw [hcap, learn_arpReply _ cfg mac hspec hnet] at hlearn
    obtain ⟨st, hst⟩ : ∃ st, st = { t.router.fwd.setNeigh t.router.wan.cfg.iface nt with ct } :=
      ⟨_, rfl⟩
    rw [← hst] at hturn
    refine ⟨(t.router.wan.settle st c frame).1, _, hturn, ?_⟩
    rw [ForwardingDevice.wanNeigh_settle, hst, hinv.leased.wired, ← Except.ok.inj hlearn]
    exact NeighborTable.lookup_insert_self _ gw mac
  · obtain ⟨nh, mac, hnh, hlook, hdst⟩ :=
      (ForwardingDevice.forwarded_of_egress hlen heg).dstMac
    rw [nexthop, hoff, if_neg Bool.false_ne_true, hgate, hgw] at hnh
    obtain rfl := Option.some_inj.1 hnh
    rw [hinv.leased.wired] at hlook
    exact ⟨mac, hlook, hdst⟩

end Resolved

/-! ### A first lease -/

/-- The WAN task before its first lease. -/
def wanTaskStart : WanTask Ipv4Cidr DnsSlots (Fin 2) := ⟨routerStart, none, 0, 0⟩

/-- The gateway of the first lease is asked for in the turn that applies it. -/
theorem gateway_resolved_first :
    ∃ asked t, wanTaskStart.turn dnsLease 0 = .ok (t, asked) ∧
      @GatewayResolved Ipv4Cidr DnsSlots (Fin 2) _ headerOps _ [.turn dnsLease 0 asked] t
        ⟨203, 0, 113, 1⟩ := by
  let _ := headerOps
  have _ := headerOps_lawful
  have hleased : Leased (wanTaskStart.router.applyLease dnsLease) := by
    refine ⟨rfl, fun _ => rfl, fun cidr ha => ?_, fun cidr ha => ?_⟩
    · obtain rfl := Option.some_inj.1 ha
      exact ⟨rfl, rfl, rfl⟩
    · obtain rfl := Option.some_inj.1 ha
      rfl
  obtain ⟨t, asked, hturn, hdone⟩ := WanTask.turn_spec hleased 0
  have h₀ : ((wanTaskSystem Ipv4Cidr DnsSlots (Fin 2)).restrict LeasesAddress).Run []
      wanTaskStart := .init ⟨routerStart_start, rfl, rfl⟩
  have h₁ : ((wanTaskSystem Ipv4Cidr DnsSlots (Fin 2)).restrict LeasesAddress).step wanTaskStart
      (.turn dnsLease 0 asked) t := ⟨rfl, .turn (Nat.le_refl 0) hturn⟩
  exact ⟨asked, t, hturn, gateway_resolved (h₀.snoc h₁) hdone.gw⟩

end Pico10BaseT
