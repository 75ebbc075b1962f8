import Pico10BaseT.Forward.Ingress
import Pico10BaseT.Forward.RoundTrip
import Pico10BaseT.Wan.Dns

/-!
# The router

`net_task` and `wan_task` share one executor: what a task does between two of its await points is
not interrupted by the other.  They meet in the statics of `forward.rs`.  A step of the router is
one turn of a `receive` loop, one frame taken from a queue and sent by `egress`, one lease update of
`wan_task`, or one sweep of the conntrack table; the two tasks interleave in any order.

Events show what the accounting is about: the class of a received frame and the frame that
`try_send` accepted, the frame taken from a queue and the frame transmitted.

* `routerSystem` : all their interleavings.
* `RouterStep.fwd_rx` : a turn of a receive loop, as a turn of the classified frame.
-/

namespace Pico10BaseT

/-- The interface whose device takes the frames that this one diverts. -/
def Iface.other : Iface → Iface
  | .lan => .wan
  | .wan => .lan

/-- The two devices, the statics, and the WAN client. -/
structure Router (κ σ H : Type) where
  lan : ForwardingDevice κ
  wan : ForwardingDevice κ
  fwd : FwdState
  client : WanClient κ σ H

inductive RouterEvent (κ : Type)
  /-- A turn of the receive loop of `i` classed its frame as `c`; `try_send` accepted `sent`. -/
  | rx (i : Iface) (c : Class) (sent : Option Frame)
  /-- The task of `i` took `frame` from its queue, and transmitted `out`. -/
  | drain (i : Iface) (frame : Frame) (out : Option Frame)
  /-- `dhcp_apply` processed `ev`, and the forwarder was synced with the lease. -/
  | lease (ev : DhcpEvent κ)
  | reap

variable {κ σ H : Type}

namespace Router

def device (s : Router κ σ H) : Iface → ForwardingDevice κ
  | .lan => s.lan
  | .wan => s.wan

@[simp] theorem device_with_fwd (s : Router κ σ H) (fwd : FwdState) (i : Iface) :
    device { s with fwd } i = s.device i := by
  cases i <;> rfl

variable [CidrOps κ] [DnsSocketOps σ H]

/-- Sync the forwarder with the lease. -/
def syncLease (dev : ForwardingDevice κ) (wan : WanState κ H) : ForwardingDevice κ :=
  match wan.addr with
  | some cidr => dev.setLease cidr wan.gw
  | none => dev

/-- `dhcp_apply` and the `set_lease` step of `wan_task`. -/
def applyLease (s : Router κ σ H) (ev : DhcpEvent κ) : Router κ σ H :=
  let client := s.client.dhcpApply ev
  { s with client, wan := syncLease s.wan client.wan }

end Router

section

variable [CidrOps κ] [Ipv4PacketOps] [DnsSocketOps σ H]

/-- One step of the router. -/
inductive RouterStep : Router κ σ H → RouterEvent κ → Router κ σ H → Prop
  | rx {s : Router κ σ H} {i : Iface} {buf : List UInt8} {ts : ℤ} {c : Class} {frame : Frame}
      {ct : CtState} {fwd : FwdState} {out : Option Frame} :
      (s.device i).classifyFrame s.fwd.ct (ForwardingDevice.capture buf) ts = .ok (c, frame, ct) →
      (s.device i).receiveTurn s.fwd buf ts = .ok (fwd, out) →
      RouterStep s
        (.rx i c (if c = .transit ∧ (s.fwd.queue i).length < chanDepth then some frame else none))
        { s with fwd }
  | drain {s : Router κ σ H} {i : Iface} {frame : Frame} {q : List Frame} {now : ℤ} {ready : Bool}
      {fwd : FwdState} {out : Option Frame} :
      s.fwd.queue i.other = frame :: q →
      (s.device i).egress (s.fwd.setQueue i.other q) frame now ready = .ok (fwd, out) →
      RouterStep s (.drain i frame out) { s with fwd }
  | lease {s : Router κ σ H} (ev : DhcpEvent κ) : RouterStep s (.lease ev) (s.applyLease ev)
  | reap {s : Router κ σ H} {now : ℕ} :
      RouterStep s .reap { s with fwd := { s.fwd with ct := s.fwd.ct.reap now } }

/-- The router when its tasks start: the LAN side is configured, the WAN side has no lease. -/
structure Router.Start (s : Router κ σ H) : Prop where
  lan : s.lan.cfg.iface = .lan ∧ s.lan.nat = false
  wan : s.wan.cfg.iface = .wan ∧ s.wan.nat = true
  unleased : s.wan.cfg.ourIp = .unspecified
  fwd : s.fwd = .new
  client : s.client.wan = .new

variable (κ σ H) in
/-- The router under any frames, leases and clocks. -/
def routerSystem : System (Router κ σ H) (RouterEvent κ) where
  init := Router.Start
  step := RouterStep

/-! ### What a step does -/

namespace RouterStep

variable {s : Router κ σ H} {i : Iface}

omit [Ipv4PacketOps] [DnsSocketOps σ H] in
/-- A turn of a receive loop settles the frame by the class that the event shows. -/
theorem fwd_rx {buf : List UInt8} {ts : ℤ} {c : Class} {frame : Frame} {ct : CtState}
    {fwd : FwdState} {out : Option Frame}
    (hc : (s.device i).classifyFrame s.fwd.ct (ForwardingDevice.capture buf) ts = .ok (c, frame, ct))
    (hr : (s.device i).receiveTurn s.fwd buf ts = .ok (fwd, out)) :
    ∃ t, learn (s.device i).cfg (s.fwd.neigh (s.device i).cfg.iface)
        (ForwardingDevice.capture buf) = .ok t ∧
      (s.device i).settle { s.fwd.setNeigh (s.device i).cfg.iface t with ct } c frame =
        (fwd, out) := by
  obtain ⟨t, c', frame', ct', ht, hcl, -, hturn⟩ := (s.device i).receiveTurn_ok s.fwd buf ts
  rw [hc] at hcl
  simp only [Except.ok.injEq, Prod.mk.injEq] at hcl
  obtain ⟨rfl, rfl, rfl⟩ := hcl
  rw [hr] at hturn
  exact ⟨t, ht, (Except.ok.inj hturn).symm⟩

end RouterStep

end

/-! ### A router at its start -/

/-- The WAN device before its first lease. -/
def unleasedDev : ForwardingDevice Ipv4Cidr where
  cfg :=
    { (wanDev .unspecified).cfg with
      subnet := ⟨.unspecified, 0⟩, acceptDst := some ⟨⟨192, 168, 4, 1⟩, 24⟩ }
  nat := true

/-- The router before its first lease. -/
def routerStart : Router Ipv4Cidr DnsSlots (Fin 2) where
  lan := lanDev
  wan := unleasedDev
  fwd := .new
  client := wanClientNew

theorem routerStart_start : routerStart.Start := ⟨⟨rfl, rfl⟩, ⟨rfl, rfl⟩, rfl, rfl, rfl⟩

/-- The query of the client, to the MAC of the access point. -/
def lanQuery : Frame := [2, 0, 0, 0, 0, 9] ++ dnsQuery.drop 6

end Pico10BaseT
