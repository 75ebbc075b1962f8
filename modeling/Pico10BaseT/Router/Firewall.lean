import Pico10BaseT.Router.Conserve

/-!
# What reaches the LAN

The WAN device diverts a frame to the LAN in two cases: it is addressed to the LAN subnet, or the
conntrack table answers it.  The table holds the flows of LAN clients only, whatever has expired,
was evicted or got the id of another flow since.

* `CtState.holds_step` : a flow gets into the table by `outbound`.
* `tappedSystem` : the router with the received bytes among its labels.
* `lan_firewall` : a frame that the LAN device is handed was received for the LAN subnet, or answers
  an earlier frame of a client.
-/

namespace Pico10BaseT

/-! ### The flows in the table -/

namespace CtState

variable {s s' : CtState} {t : Tuple}

/-- Some used slot has the flow. -/
def Holds (s : CtState) (t : Tuple) : Prop :=
  ∃ i < ctCap, (s.ct.slot i).used = true ∧ (s.ct.slot i).tuple = t

/-- Writing a slot brings in the flow written, if any. -/
theorem holds_setSlot {i : ℕ} {e : Entry} (hslot : ∀ j, s'.ct.slot j = (s.ct.setSlot i e).slot j)
    (h : s'.Holds t) : e.tuple = t ∨ s.Holds t := by
  obtain ⟨j, hj, hu, ht⟩ := h
  rw [hslot, Conntrack.slot_setSlot] at hu ht
  split_ifs at hu ht
  · exact .inl ht
  · exact .inr ⟨j, hj, hu, ht⟩

/-- Touching the entry of a used slot brings in nothing. -/
theorem holds_touch {i : ℕ} (f : UInt8) (now : ℕ) (hi : i < ctCap)
    (hu : (s.ct.slot i).used = true)
    (hslot : ∀ j, s'.ct.slot j = (s.ct.setSlot i ((s.ct.slot i).touch f now)).slot j)
    (h : s'.Holds t) : s.Holds t := by
  rcases holds_setSlot hslot h with ht | h
  · exact ⟨i, hi, hu, ht⟩
  · exact h

/-- **A flow gets into the table** by an outbound packet of its own. -/
theorem holds_step (hI : s.Inv) {ev : CtEvent} (hst : ctStep s ev s') (h : s'.Holds t) :
    s.Holds t ∨ ∃ f now r, ev = .outbound t f now r := by
  cases ev with
  | outbound t' f now r =>
    rcases outbound_cases hI.cursorRange.1 hst with
      ⟨i, hi, hu, -, -, rfl⟩ | ⟨-, id, c', -, -, -, -, rfl⟩
    · exact .inl (holds_touch f now hi hu (fun _ => rfl) h)
    · rcases holds_setSlot (i := s.ct.pickSlot now) (e := newEntry t' id f now)
        (fun _ => rfl) h with rfl | h
      · exact .inr ⟨f, now, r, rfl⟩
      · exact .inl h
  | inbound proto rip rid w f now r =>
    rcases inbound_cases hst with ⟨i, hi, hp, -, rfl⟩ | ⟨-, -, rfl⟩
    · exact .inl (holds_touch f now hi (Entry.isReply_iff.1 hp).1 (fun _ => rfl) h)
    · exact .inl h
  | reap now =>
    obtain rfl : s.reap now = s' := hst
    obtain ⟨i, hi, hu, ht⟩ := h
    obtain ⟨hu', he⟩ := slot_reap_of_used hu
    exact .inl ⟨i, hi, hu', he ▸ ht⟩

/-- An answer is about a flow in the table. -/
theorem holds_of_inbound {proto : Proto} {rip ip : Ipv4Address} {rid wid id : UInt16} {f : UInt8}
    {now : ℕ} (h : s.inbound proto rip rid wid f now = (s', some (ip, id))) :
    s.Holds ⟨proto, ip, id, rip, rid⟩ := by
  rcases inbound_cases h with ⟨i, hi, hp, hr, -⟩ | ⟨-, hr, -⟩
  · obtain ⟨hu, -, ht, -⟩ := Entry.isReply_iff.1 hp
    simp only [Option.some.injEq, Prod.mk.injEq] at hr
    obtain ⟨rfl, rfl⟩ := hr
    exact ⟨i, hi, hu, ht⟩
  · cases hr

end CtState

/-! ### The frames of a client -/

/-- A frame with the length, the fields and the flags of `frame` that the parser looks at parses
like it, but for the ids. -/
theorem IsL4.of_fields {frame g : Frame} {l4 : L4} (h : IsL4 frame l4)
    (hlen : g.length = frame.length) (h12 : wordAt g 12 = wordAt frame 12)
    (h14 : byteAt g 14 = byteAt frame 14) (h23 : byteAt g 23 = byteAt frame 23)
    (htcp : l4.proto = .tcp → byteAt g (l4.l4Off + 13) = byteAt frame (l4.l4Off + 13))
    (hecho : l4.proto = .icmpEcho → byteAt g l4.l4Off = byteAt frame l4.l4Off) :
    IsL4 g { l4 with
      srcId := wordAt g (l4.l4Off + if l4.proto = .icmpEcho then 4 else 0)
      dstId := if l4.proto = .icmpEcho then 0 else wordAt g (l4.l4Off + 2) } where
  etype := h12.trans h.etype
  l4Off := h14 ▸ h.l4Off
  ihl := h.ihl
  number := h23.trans h.number
  fits := hlen ▸ h.fits
  csumOff := h.csumOff
  srcId := rfl
  dstId := rfl
  tcpFlags := by
    rw [h.tcpFlags]
    by_cases hp : l4.proto = .tcp
    · rw [if_pos hp, if_pos hp, htcp hp]
    · rw [if_neg hp, if_neg hp]
  echo hp := by
    rw [hecho hp]
    exact h.echo hp

/-- The flow of a frame to a client, as the client's own frames have it. -/
def clientTuple (g : Frame) (l4 : L4) : Tuple where
  proto := l4.proto
  srcIp := ipAt g 30
  srcId := wordAt g (l4.l4Off + l4.idPos 2)
  dstIp := ipAt g 26
  dstId := if l4.proto = .icmpEcho then 0 else l4.srcId

/-- A reply rewritten to the client parses, as a frame of the flow that the table answered with. -/
theorem Rewritten.clientTuple_eq {frame g : Frame} {l4 : L4} {ip : Ipv4Address} {id : UInt16}
    (hl4 : IsL4 frame l4) (h : Rewritten 30 2 frame l4 ip id g) :
    ∃ g4, IsL4 g g4 ∧ clientTuple g g4 =
      ⟨l4.proto, ip, id, ipAt frame 26, (ForwardingDevice.replyIds l4).1⟩ := by
  have hihl := hl4.ihl
  have hcs := hl4.csumOff
  have hother := h.other
  have hlow : ∀ j < 30, byteAt g j = byteAt frame j := fun j hj =>
    hother j (by omega) (by omega) (by omega)
  have hword : ∀ j < 29, wordAt g j = wordAt frame j := fun j hj => by
    rw [wordAt, wordAt, hlow j (by omega), hlow (j + 1) (by omega)]
  refine ⟨_, hl4.of_fields h.length (hword 12 (by omega)) (hlow 14 (by omega))
    (hlow 23 (by omega)) (fun hp => ?_) (fun hp => ?_), ?_⟩
  · have hpos : l4.idPos 2 = 2 := by simp [L4.idPos, hp]
    have hcp : l4.proto.csumPos = 16 := by rw [hp]; rfl
    exact hother _ (by omega) (by omega) (by omega)
  · have hpos : l4.idPos 2 = 4 := by simp [L4.idPos, hp]
    have hcp : l4.proto.csumPos = 2 := by rw [hp]; rfl
    exact hother _ (by omega) (by omega) (by omega)
  · have hsrc : ipAt g 26 = ipAt frame 26 := ipAt_congr fun j hj hj' => hlow j (by omega)
    rw [clientTuple, h.ip, hsrc, ForwardingDevice.replyIds]
    have hid := h.id
    by_cases hp : l4.proto = .icmpEcho
    · simp only [L4.idPos, if_pos hp] at hid ⊢
      rw [hid]
    · have hpos : l4.idPos 2 = 2 := if_neg hp
      have hcp : 6 ≤ l4.proto.csumPos := by cases hc : l4.proto <;> simp_all [Proto.csumPos]
      have hport : wordAt g l4.l4Off = wordAt frame l4.l4Off := by
        rw [wordAt, wordAt, hother _ (by omega) (by omega) (by omega),
          hother _ (by omega) (by omega) (by omega)]
      simp only [L4.idPos, if_neg hp] at hid ⊢
      rw [hid, Nat.add_zero, hport, hl4.srcId, if_neg hp, Nat.add_zero]

/-! ### Runs of the router -/

section Tap

variable {κ σ H : Type} [CidrOps κ] [Ipv4PacketOps] [DnsSocketOps σ H]

/-- A step of the router, with the bytes received if it is a turn of a receive loop. -/
inductive TappedStep : Router κ σ H → RouterEvent κ × List UInt8 → Router κ σ H → Prop
  | rx {s : Router κ σ H} {i : Iface} {buf : List UInt8} {ts : ℤ} {c : Class} {frame : Frame}
      {ct : CtState} {fwd : FwdState} {out : Option Frame} :
      (s.device i).classifyFrame s.fwd.ct (ForwardingDevice.capture buf) ts = .ok (c, frame, ct) →
      (s.device i).receiveTurn s.fwd buf ts = .ok (fwd, out) →
      TappedStep s
        (.rx i c (if c = .transit ∧ (s.fwd.queue i).length < chanDepth then some frame else none),
          buf)
        { s with fwd }
  | other {s s' : Router κ σ H} {ev : RouterEvent κ} :
      RouterStep s ev s' → (∀ i c sent, ev ≠ .rx i c sent) → TappedStep s (ev, []) s'

variable (κ σ H) in
/-- The router under any frames, leases and clocks, tapped. -/
def tappedSystem : System (Router κ σ H) (RouterEvent κ × List UInt8) where
  init := Router.Start
  step := TappedStep

variable {tr : List (RouterEvent κ × List UInt8)} {s s' : Router κ σ H}

theorem TappedStep.routerStep {l : RouterEvent κ × List UInt8} (h : TappedStep s l s') :
    RouterStep s l.1 s' := by
  cases h with
  | rx hc hr => exact .rx hc hr
  | other hst => exact hst

/-- The tap hinders no step. -/
theorem RouterStep.tapped {ev : RouterEvent κ} (h : RouterStep s ev s') :
    ∃ buf, TappedStep s (ev, buf) s' := by
  cases h with
  | rx hc hr => exact ⟨_, .rx hc hr⟩
  | drain hold he => exact ⟨[], .other (.drain hold he) (by simp)⟩
  | lease ev => exact ⟨[], .other (.lease ev) (by simp)⟩
  | reap => exact ⟨[], .other .reap (by simp)⟩

theorem run_of_tapped (h : (tappedSystem κ σ H).Run tr s) :
    (routerSystem κ σ H).Run (tr.map Prod.fst) s := by
  induction h with
  | init h => exact .init h
  | snoc _ hst ih =>
    rw [List.map_append]
    exact ih.snoc (TappedStep.routerStep hst)

end Tap

section Runs

variable {κ σ H : Type} [CidrOps κ]

/-- The WAN device was handed a LAN frame of the flow. -/
def Opened (tr : List (RouterEvent κ × List UInt8)) (t : Tuple) : Prop :=
  ∃ frame out l4, RouterEvent.drain .wan frame out ∈ tr.map Prod.fst ∧ IsL4 frame l4 ∧
    outTuple frame l4 = t

/-- What the WAN device makes of the received bytes may go to the LAN: they are addressed to it, and
left as they are, or the frame belongs to a flow of a client. -/
def Admitted (net : κ) (tr : List (RouterEvent κ × List UInt8)) (buf g : Frame) : Prop :=
  (g = ForwardingDevice.capture buf ∧ CidrOps.containsAddr net (ipAt g 30) = true) ∨
    ∃ l4, IsL4 g l4 ∧ Opened tr (clientTuple g l4)

/-- Every flow in the table was opened from the LAN, and every queued frame was admitted. -/
structure Guarded (net : κ) (tr : List (RouterEvent κ × List UInt8)) (s : Router κ σ H) :
    Prop where
  plain : s.lan.nat = false
  accept : s.wan.cfg.acceptDst = some net
  inv : s.fwd.ct.Inv
  opened : ∀ t, s.fwd.ct.Holds t → Opened tr t
  queue : ∀ g ∈ s.fwd.queue .wan, ∃ buf, (.rx .wan .transit (some g), buf) ∈ tr ∧
    Admitted net tr buf g

variable {net : κ} {tr : List (RouterEvent κ × List UInt8)} {l : RouterEvent κ × List UInt8}
  {s s' : Router κ σ H}

omit [CidrOps κ] in
theorem Opened.snoc {t : Tuple} (h : Opened tr t) : Opened (tr ++ [l]) t := by
  obtain ⟨frame, out, l4, hmem, hl4, ht⟩ := h
  exact ⟨frame, out, l4, by rw [List.map_append]; exact List.mem_append_left _ hmem, hl4, ht⟩

theorem Admitted.snoc {buf g : Frame} (h : Admitted net tr buf g) :
    Admitted net (tr ++ [l]) buf g :=
  h.imp_right fun ⟨l4, hl4, hopened⟩ => ⟨l4, hl4, hopened.snoc⟩

/-- What a device classes: the WAN device diverts admitted frames, and the table answers about what
it holds. -/
theorem Guarded.classified (h : Guarded net tr s) (i : Iface) {buf g : Frame} {ts : ℤ} {c : Class}
    {ct : CtState}
    (hc : (s.device i).classifyFrame s.fwd.ct (ForwardingDevice.capture buf) ts =
      .ok (c, g, ct)) :
    ct.Inv ∧ (∀ t, ct.Holds t → s.fwd.ct.Holds t) ∧
      (i = .wan → c = .transit → Admitted net tr buf g) := by
  rcases (s.device i).classifyFrame_cases s.fwd.ct (ForwardingDevice.capture buf) ts with
    ⟨l4, ct', ip, id, g', hask, hin, hcl, hrw⟩ | ⟨-, c', hc', hcl⟩
  · have heq := hc.symm.trans hcl
    simp only [Except.ok.injEq, Prod.mk.injEq] at heq
    obtain ⟨rfl, rfl, rfl⟩ := heq
    have hstep : ctStep s.fwd.ct (.inbound _ _ _ _ _ _ _) ct := hin
    refine ⟨h.inv.step hstep, fun t ht => ?_, fun _ _ => .inr ?_⟩
    · rcases CtState.holds_step h.inv hstep ht with ht | ⟨_, _, _, hev⟩
      · exact ht
      · cases hev
    · obtain ⟨g4, hg4, htuple⟩ := hrw.clientTuple_eq hask.parsed
      exact ⟨g4, hg4, htuple ▸ h.opened _ (CtState.holds_of_inbound hin)⟩
  · have heq := hc.symm.trans hcl
    simp only [Except.ok.injEq, Prod.mk.injEq] at heq
    obtain ⟨rfl, rfl, rfl⟩ := heq
    refine ⟨h.inv, fun _ ht => ht, ?_⟩
    rintro rfl rfl
    rw [Router.device, classify_eq, h.accept] at hc'
    split_ifs at hc' with hto
    · simp only [Except.ok.injEq] at hc'
      split_ifs at hc' with hdst
      exact .inl ⟨rfl, hdst⟩
    · cases hc'

omit [CidrOps κ] in
/-- What settling a frame leaves in the table and in the queues. -/
theorem ForwardingDevice.settle_spec (dev : ForwardingDevice κ) (st : FwdState) (c : Class)
    (frame : Frame) : (dev.settle st c frame).1.ct = st.ct ∧
      ∀ j, ∀ g ∈ (dev.settle st c frame).1.queue j,
        g ∈ st.queue j ∨
          ((c = .transit ∧ (st.queue dev.cfg.iface).length < chanDepth) ∧ j = dev.cfg.iface ∧
            g = frame) := by
  cases c with
  | «local» => exact ⟨rfl, fun j g hg => .inl hg⟩
  | drop => exact ⟨rfl, fun j g hg => .inl (@FwdState.queue_countDrop st .other j ▸ hg)⟩
  | transit =>
    simp only [settle]
    by_cases hroom : (st.queue dev.cfg.iface).length < chanDepth
    · refine ⟨?_, fun j g hg => ?_⟩
      · simp only [divert, trySend, if_pos hroom]
        cases dev.cfg.iface <;> rfl
      · rw [(FwdState.divert_of_lt dev frame hroom).1] at hg
        split_ifs at hg with hj
        · rcases List.mem_append.1 hg with hg | hg
          · exact .inl hg
          · exact .inr ⟨⟨trivial, hroom⟩, hj, List.mem_singleton.1 hg⟩
        · exact .inl hg
    · rw [FwdState.divert_of_not_lt dev frame hroom]
      exact ⟨rfl, fun j g hg => .inl (@FwdState.queue_countDrop st .qfull j ▸ hg)⟩

section Steps

variable [Ipv4PacketOps]

/-- The routing filter of the WAN device is never changed. -/
theorem acceptDst_step [DnsSocketOps σ H] {ev : RouterEvent κ} (hst : RouterStep s ev s') :
    s'.wan.cfg.acceptDst = s.wan.cfg.acceptDst := by
  cases hst with
  | lease ev =>
    simp only [Router.applyLease, Router.syncLease]
    split <;> rfl
  | rx | drain | reap => rfl

omit [Ipv4PacketOps] in
/-- A received frame: the WAN device queues it if it is admitted. -/
theorem Guarded.rx (h : Guarded net tr s) (hwired : ∀ i, (s.device i).cfg.iface = i) {i : Iface}
    {buf : List UInt8} {ts : ℤ} {c : Class} {frame : Frame} {ct : CtState} {fwd : FwdState}
    {out : Option Frame}
    (hc : (s.device i).classifyFrame s.fwd.ct (ForwardingDevice.capture buf) ts =
      .ok (c, frame, ct))
    (hr : (s.device i).receiveTurn s.fwd buf ts = .ok (fwd, out)) :
    Guarded net (tr ++ [(.rx i c
      (if c = .transit ∧ (s.fwd.queue i).length < chanDepth then some frame else none), buf)])
      { s with fwd } := by
  obtain ⟨t, -, hset⟩ := RouterStep.fwd_rx hc hr
  obtain ⟨hinv, hholds, hadm⟩ := h.classified i hc
  obtain ⟨hct, hq⟩ := (s.device i).settle_spec
    { s.fwd.setNeigh (s.device i).cfg.iface t with ct } c frame
  rw [hset] at hct hq
  have hct : fwd.ct = ct := hct
  refine ⟨h.plain, h.accept, hct.symm ▸ hinv, fun t ht => ?_, fun g hg => ?_⟩
  · exact (h.opened t (hholds t (hct ▸ ht))).snoc
  · rcases hq .wan g hg with hold | ⟨⟨htransit, hroom⟩, hi, rfl⟩
    · rw [hwired] at hold
      have hold : g ∈ s.fwd.queue .wan := by cases i <;> exact hold
      obtain ⟨buf', hmem, hadm'⟩ := h.queue g hold
      exact ⟨buf', List.mem_append_left _ hmem, hadm'.snoc⟩
    · rw [hwired] at hi hroom
      obtain rfl := hi
      have hroom : (s.fwd.queue .wan).length < chanDepth := hroom
      refine ⟨buf, List.mem_append_right _ ?_, (hadm rfl htransit).snoc⟩
      rw [htransit, if_pos ⟨rfl, hroom⟩]
      exact List.mem_singleton_self _

/-- A frame taken from a queue: the WAN device opens its flow. -/
theorem Guarded.drain [LawfulIpv4Packet] (h : Guarded net tr s) {i : Iface} {frame : Frame}
    {q : List Frame} {now : ℤ} {ready : Bool} {fwd : FwdState} {out : Option Frame}
    (hlen : 34 ≤ frame.length) (hold : s.fwd.queue i.other = frame :: q)
    (he : (s.device i).egress (s.fwd.setQueue i.other q) frame now ready = .ok (fwd, out)) :
    Guarded net (tr ++ [(.drain i frame out, [])]) { s with fwd } := by
  have hct₀ : (s.fwd.setQueue i.other q).ct = s.fwd.ct := by cases i <;> rfl
  have hct : fwd.ct.Inv ∧
      ∀ t, fwd.ct.Holds t → Opened (tr ++ [(.drain i frame out, [])]) t := by
    obtain ⟨n, hnapt⟩ := ForwardingDevice.napt_of_egress he
    rw [hct₀] at hnapt
    rcases (s.device i).egressNapt_cases s.fwd.ct frame now with
      ⟨-, hcase⟩ | ⟨l4, ct', r, n', hnat, hl4, hout, hcase, -⟩
    · have heq := hnapt.symm.trans hcase
      simp only [Except.ok.injEq, Prod.mk.injEq] at heq
      rw [heq.1]
      exact ⟨h.inv, fun t ht => (h.opened t ht).snoc⟩
    · have heq := hnapt.symm.trans hcase
      simp only [Except.ok.injEq, Prod.mk.injEq] at heq
      rw [heq.1]
      have hstep : ctStep s.fwd.ct (.outbound _ _ _ _) ct' := hout
      refine ⟨h.inv.step hstep, fun t ht => ?_⟩
      rcases CtState.holds_step h.inv hstep ht with ht | ⟨_, _, _, hev⟩
      · exact (h.opened t ht).snoc
      · cases i with
        | lan => exact absurd hnat (by rw [Router.device, h.plain]; decide)
        | wan =>
          cases hev
          exact ⟨frame, out, l4, by simp, hl4, rfl⟩
  obtain ⟨fwd', out', he', hdone⟩ :=
    (s.device i).egress_cases (s.fwd.setQueue i.other q) hlen now ready
  obtain rfl : fwd = fwd' := by
    have heq := he.symm.trans he'
    exact (Prod.mk.inj (Except.ok.inj heq)).1
  refine ⟨h.plain, h.accept, hct.1, hct.2, fun g hg => ?_⟩
  have hmem : g ∈ s.fwd.queue .wan := by
    have hq : fwd.queue .wan = (s.fwd.setQueue i.other q).queue .wan := hdone.wanToLan
    rw [hq, FwdState.queue_setQueue] at hg
    split_ifs at hg with hi
    · exact hi ▸ hold ▸ List.mem_cons_of_mem _ hg
    · exact hg
  obtain ⟨buf, hrx, hadm⟩ := h.queue g hmem
  exact ⟨buf, List.mem_append_left _ hrx, hadm.snoc⟩

variable [DnsSocketOps σ H] [LawfulIpv4Packet]

/-- **Every step keeps the guard.** -/
theorem Guarded.step (h : Guarded net tr s) {tr' : List (RouterEvent κ)} (hC : Conserved tr' s)
    (hst : TappedStep s l s') : Guarded net (tr ++ [l]) s' := by
  have hkept : ∀ g ∈ s.fwd.queue .wan, ∃ buf,
      (.rx .wan .transit (some g), buf) ∈ tr ++ [l] ∧ Admitted net (tr ++ [l]) buf g := by
    intro g hg
    obtain ⟨buf, hrx, hadm⟩ := h.queue g hg
    exact ⟨buf, List.mem_append_left _ hrx, hadm.snoc⟩
  cases hst with
  | rx hc hr => exact h.rx hC.wired hc hr
  | @other _ ev hst hrx =>
    have haccept := (acceptDst_step hst).trans h.accept
    cases hst with
    | @rx i buf ts c frame ct fwd out => exact absurd rfl (hrx _ _ _)
    | @drain i frame q now ready fwd out hold he =>
      exact h.drain (hC.long i.other frame (hold ▸ List.mem_cons_self)) hold he
    | lease ev => exact ⟨h.plain, haccept, h.inv, fun t ht => (h.opened t ht).snoc, hkept⟩
    | @reap now =>
      have hstep : ctStep s.fwd.ct (.reap now) (s.fwd.ct.reap now) := rfl
      refine ⟨h.plain, haccept, h.inv.step hstep, fun t ht => ?_, hkept⟩
      rcases CtState.holds_step h.inv hstep ht with ht | ⟨_, _, _, hev⟩
      · exact (h.opened t ht).snoc
      · cases hev

theorem router_guarded (h : (tappedSystem κ σ H).Run tr s)
    (hnet : s.wan.cfg.acceptDst = some net) : Guarded net tr s := by
  refine h.induction (J := fun tr s => s.wan.cfg.acceptDst = some net → Guarded net tr s)
    (fun s hs hnet => ⟨hs.lan.2, hnet, ?_, fun t ht => ?_, fun g hg => ?_⟩)
    (fun tr s l s' hrun ih hst hnet => ?_) hnet
  · rw [hs.fwd]
    exact ct_invariant (.init rfl)
  · rw [hs.fwd] at ht
    obtain ⟨i, -, hu, -⟩ := ht
    have hfree : (FwdState.new.ct.ct.slot i).used = false := CtState.used_slot_new i
    rw [hfree] at hu
    cases hu
  · rw [hs.fwd] at hg
    cases hg
  · exact (ih ((acceptDst_step (TappedStep.routerStep hst)).symm.trans hnet)).step
      (router_conserved (run_of_tapped hrun)) hst

/-- **The LAN is guarded.**  In every run of the router, from any frames, leases and clocks, a frame
that the LAN device is handed is what the WAN device made of bytes received before: these were
addressed to the LAN subnet and are left as they are, or the frame is the reverse of a frame from a
client that the WAN device was handed before, from the address and port that the client wrote to,
to those it wrote from.  What is then transmitted has the same addresses, ports and payload. -/
theorem lan_firewall {frame : Frame} {out : Option Frame} (h : (tappedSystem κ σ H).Run tr s)
    (hnet : s.wan.cfg.acceptDst = some net)
    (hst : (routerSystem κ σ H).step s (.drain .lan frame out) s') :
    (∃ buf, (.rx .wan .transit (some frame), buf) ∈ tr ∧ Admitted net tr buf frame) ∧
      ∀ g, out = some g → ∀ j, 12 ≤ j → j ≠ 22 → j ≠ 24 → j ≠ 25 →
        byteAt g j = byteAt frame j := by
  have hG := router_guarded h hnet
  have hC := router_conserved (run_of_tapped h)
  cases hst with
  | @drain _ _ q now ready fwd out hold he =>
    have hmem : frame ∈ s.fwd.queue .wan := hold ▸ List.mem_cons_self
    refine ⟨hG.queue frame hmem, ?_⟩
    rintro g rfl j h12 h22 h24 h25
    exact (ForwardingDevice.forwarded_of_egress (hC.long .wan frame hmem) he).plain
      (.inl hG.plain) j h12 h22 h24 h25

end Steps

end Runs

/-! ### A query and its reply -/

/-- The turns of a query through both devices and of its reply back: the classes, each classified
frame and the queue that it is taken from, and where the LAN device transmits to. -/
def replyRun [Ipv4PacketOps] : Exec (List Class × List (List Frame) × Option Ipv4Address) := do
  let dev := (routerStart.applyLease dnsLease).wan
  let reply := dnsReply ⟨203, 0, 113, 9⟩
  let (c₁, f₁, _) ← lanDev.classifyFrame .new (ForwardingDevice.capture lanQuery) 0
  let (fwd₁, _) ← lanDev.receiveTurn .new lanQuery 0
  let (fwd₂, _) ← dev.egress (fwd₁.setQueue .lan []) f₁ 0 true
  let (c₂, f₂, _) ← dev.classifyFrame fwd₂.ct (ForwardingDevice.capture reply) 0
  let (fwd₃, _) ← dev.receiveTurn fwd₂ reply 0
  let (_, out) ← lanDev.egress (fwd₃.setQueue .wan []) f₂ 0 true
  return ([c₁, c₂], [[f₁], fwd₁.queue .lan, [f₂], fwd₃.queue .wan], out.map (ipAt · 30))

/-- The reply to the query of a client goes to the client. -/
theorem lan_firewall_reply : ∃ tr s s' g,
    (@tappedSystem Ipv4Cidr DnsSlots (Fin 2) _ headerOps _).Run tr s ∧
      (@routerSystem Ipv4Cidr DnsSlots (Fin 2) _ headerOps _).step s
        (.drain .lan forLanClient (some g)) s' ∧ ipAt g 30 = ⟨192, 168, 4, 10⟩ ∧
      ∃ buf, (.rx .wan .transit (some forLanClient), buf) ∈ tr ∧
        Admitted (⟨⟨192, 168, 4, 1⟩, 24⟩ : Ipv4Cidr) tr buf forLanClient := by
  let _ := headerOps
  have _ := headerOps_lawful
  have hreply : replyRun = .ok ([.transit, .transit],
      [[lanQuery], [lanQuery], [forLanClient], [forLanClient]], some ⟨192, 168, 4, 10⟩) := by
    decide +kernel
  simp only [replyRun, Exec.bind_eq_ok, Prod.exists, Exec.pure_eq, Except.ok.injEq,
    Prod.mk.injEq, List.cons.injEq, and_true] at hreply
  obtain ⟨c₁, f₁, ct₁, hc₁, fwd₁, out₁, hr₁, fwd₂, out₂, he₂, c₃, f₃, ct₃, hc₃, fwd₃, out₃, hr₃,
    fwd₄, out₄, he₄, ⟨rfl, rfl⟩, ⟨rfl, hq₁, rfl, hq₃⟩, hout⟩ := hreply
  obtain ⟨g, rfl, hg⟩ := Option.map_eq_some_iff.1 hout
  have h₀ : (tappedSystem Ipv4Cidr DnsSlots (Fin 2)).Run [] routerStart := .init routerStart_start
  have h₁ := h₀.snoc (.other (.lease dnsLease) (by simp))
  have h₂ := h₁.snoc (.rx (i := .lan) hc₁ hr₁)
  have h₃ := h₂.snoc (.other (.drain (i := .wan) hq₁ he₂) (by simp))
  have h₄ := h₃.snoc (.rx (i := .wan) hc₃ hr₃)
  have hst : (routerSystem Ipv4Cidr DnsSlots (Fin 2)).step
      { routerStart.applyLease dnsLease with fwd := fwd₃ } (.drain .lan forLanClient (some g))
      { routerStart.applyLease dnsLease with fwd := fwd₄ } := .drain hq₃ he₄
  have hnet : (routerStart.applyLease dnsLease).wan.cfg.acceptDst =
      some (⟨⟨192, 168, 4, 1⟩, 24⟩ : Ipv4Cidr) := rfl
  obtain ⟨hadm, -⟩ := lan_firewall h₄ hnet hst
  exact ⟨_, _, _, g, h₄, hst, hg, hadm⟩

end Pico10BaseT
