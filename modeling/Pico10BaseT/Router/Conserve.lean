import Pico10BaseT.Router.Basic

/-!
# Conservation of diverted frames

Per direction, the frames that `try_send` accepted are those handed to the other device's egress
followed by those still queued, and every diverted, refused or dropped frame is counted where it is
counted out again.  `Conserved` says so of a run; every step keeps it, whichever task it belongs to
and however egress ends.
-/

namespace Pico10BaseT

namespace FwdStats

/-- The sum of the reason counters. -/
def reasons (s : FwdStats) : UInt32 :=
  s.dropBy .qfull + s.dropBy .nonh + s.dropBy .nat + s.dropBy .txbusy + s.dropBy .other

variable (s : FwdStats)

@[simp] theorem drop_countDrop (r : DropReason) : (s.countDrop r).drop = s.drop + 1 := rfl
@[simp] theorem sent_countDrop (r : DropReason) : (s.countDrop r).sent = s.sent := rfl
@[simp] theorem l2w_countDrop (r : DropReason) : (s.countDrop r).l2w = s.l2w := rfl
@[simp] theorem w2l_countDrop (r : DropReason) : (s.countDrop r).w2l = s.w2l := rfl

theorem dropBy_countDrop (r r' : DropReason) :
    (s.countDrop r).dropBy r' = if r' = r then s.dropBy r' + 1 else s.dropBy r' := by
  by_cases h : r' = r
  · simp [countDrop, h]
  · simp [countDrop, h]

@[simp] theorem reasons_countDrop (r : DropReason) : (s.countDrop r).reasons = s.reasons + 1 := by
  cases r <;> simp [reasons, dropBy_countDrop] <;> grind

end FwdStats

namespace FwdState

variable {st st' : FwdState}

@[simp] theorem queue_setQueue (i j : Iface) (q : List Frame) :
    (st.setQueue i q).queue j = if j = i then q else st.queue j := by
  cases i <;> cases j <;> rfl

@[simp] theorem stats_setQueue (i : Iface) (q : List Frame) :
    (st.setQueue i q).stats = st.stats := by
  cases i <;> rfl

@[simp] theorem queue_countDrop (r : DropReason) (j : Iface) :
    (st.countDrop r).queue j = st.queue j := by
  cases j <;> rfl

section Divert

variable {κ : Type} (dev : ForwardingDevice κ) (frame : Frame)

/-- A diverted frame goes to the end of the channel that has room. -/
theorem divert_of_lt (h : (st.queue dev.cfg.iface).length < chanDepth) :
    (∀ j, (dev.divert st frame).queue j =
      if j = dev.cfg.iface then st.queue j ++ [frame] else st.queue j) ∧
    ∃ depth, (dev.divert st frame).stats = st.stats.countDiverted dev.cfg.iface depth := by
  simp only [ForwardingDevice.divert, trySend, if_pos h]
  refine ⟨fun j => ?_, (st.queue dev.cfg.iface ++ [frame]).length, ?_⟩
  · cases dev.cfg.iface <;> cases j <;> rfl
  · cases dev.cfg.iface <;> rfl

/-- A full channel refuses a frame. -/
theorem divert_of_not_lt (h : ¬(st.queue dev.cfg.iface).length < chanDepth) :
    dev.divert st frame = st.countDrop .qfull := by
  simp only [ForwardingDevice.divert, trySend, if_neg h]

end Divert

/-- Frames in the two queues. -/
def queued (st : FwdState) : ℕ := (st.queue .lan).length + (st.queue .wan).length

/-- The counters balance when `n` frames were classed `Drop` on ingress. -/
structure Balanced (st : FwdState) (n : ℕ) : Prop where
  account : st.stats.l2w + st.stats.w2l + st.stats.dropBy .qfull + UInt32.ofNat n =
    st.stats.sent + st.stats.drop + UInt32.ofNat st.queued
  reasons : st.stats.drop = st.stats.reasons

namespace Balanced

variable {n : ℕ}

theorem congr (h : st.Balanced n) (hs : st'.stats = st.stats) (hq : ∀ i, st'.queue i = st.queue i) :
    st'.Balanced n := by
  have hqd : st'.queued = st.queued := by rw [queued, queued, hq, hq]
  exact ⟨by rw [hs, hqd]; exact h.account, by rw [hs]; exact h.reasons⟩

/-- A frame is accepted. -/
theorem accept (h : st.Balanced n) {i : Iface} {depth : ℕ}
    (hs : st'.stats = st.stats.countDiverted i depth) (hq : st'.queued = st.queued + 1) :
    st'.Balanced n := by
  have ha := h.account
  have hr := h.reasons
  constructor
  · rw [hs, hq, UInt32.ofNat_add]
    cases i <;> simp only [FwdStats.countDiverted] <;> grind
  · rw [hs]
    cases i <;> exact hr

/-- A frame is refused. -/
theorem refuse (h : st.Balanced n) (hs : st'.stats = st.stats.countDrop .qfull)
    (hq : st'.queued = st.queued) : st'.Balanced n := by
  have ha := h.account
  have hr := h.reasons
  constructor
  · rw [hs, hq]
    simp only [FwdStats.l2w_countDrop, FwdStats.w2l_countDrop, FwdStats.dropBy_countDrop, if_true,
      FwdStats.sent_countDrop, FwdStats.drop_countDrop]
    grind
  · rw [hs, FwdStats.drop_countDrop, FwdStats.reasons_countDrop, hr]

/-- A frame is dropped on ingress. -/
theorem ingressDrop (h : st.Balanced n) (hs : st'.stats = st.stats.countDrop .other)
    (hq : st'.queued = st.queued) : st'.Balanced (n + 1) := by
  have ha := h.account
  have hr := h.reasons
  constructor
  · rw [hs, hq, UInt32.ofNat_add]
    simp only [FwdStats.l2w_countDrop, FwdStats.w2l_countDrop, FwdStats.dropBy_countDrop,
      reduceCtorEq, if_false, FwdStats.sent_countDrop, FwdStats.drop_countDrop]
    grind
  · rw [hs, FwdStats.drop_countDrop, FwdStats.reasons_countDrop, hr]

/-- A frame leaves a queue and is sent. -/
theorem send (h : st.Balanced n) {i : Iface} {len : ℕ}
    (hs : st'.stats = st.stats.countSent i len) (hq : st.queued = st'.queued + 1) :
    st'.Balanced n := by
  have ha := h.account
  have hr := h.reasons
  rw [hq, UInt32.ofNat_add] at ha
  constructor
  · rw [hs]
    cases i <;> simp only [FwdStats.countSent] <;> grind
  · rw [hs]
    cases i <;> exact hr

/-- A frame leaves a queue and is dropped. -/
theorem egressDrop (h : st.Balanced n) {r : DropReason} (hne : r ≠ .qfull)
    (hs : st'.stats = st.stats.countDrop r) (hq : st.queued = st'.queued + 1) :
    st'.Balanced n := by
  have ha := h.account
  have hr := h.reasons
  rw [hq, UInt32.ofNat_add] at ha
  constructor
  · rw [hs]
    simp only [FwdStats.l2w_countDrop, FwdStats.w2l_countDrop, FwdStats.dropBy_countDrop,
      if_neg (Ne.symm hne), FwdStats.sent_countDrop, FwdStats.drop_countDrop]
    grind
  · rw [hs, FwdStats.drop_countDrop, FwdStats.reasons_countDrop, hr]

end Balanced

end FwdState

/-! ### The events of a run -/

namespace RouterEvent

variable {κ : Type}

/-- The frame that `try_send` accepted on the channel of `i`. -/
def accepted (i : Iface) : RouterEvent κ → Option Frame
  | .rx j _ sent => if j = i then sent else none
  | _ => none

/-- The frame taken from the channel of `i` and handed to the other device's egress. -/
def handed (i : Iface) : RouterEvent κ → Option Frame
  | .drain j frame _ => if j.other = i then some frame else none
  | _ => none

/-- The frame was classed `Drop` on ingress. -/
def ingressDrop : RouterEvent κ → Bool
  | .rx _ c _ => c = .drop
  | _ => false

end RouterEvent

section Trace

variable {κ : Type}

/-- The frames that `try_send` accepted on the channel of `i`, in order. -/
def accepted (i : Iface) (tr : List (RouterEvent κ)) : List Frame := tr.filterMap (·.accepted i)

/-- The frames of the channel of `i` handed to the other device's egress, in order. -/
def handed (i : Iface) (tr : List (RouterEvent κ)) : List Frame := tr.filterMap (·.handed i)

/-- The frames classed `Drop` on ingress. -/
def ingressDrops (tr : List (RouterEvent κ)) : ℕ := tr.countP (·.ingressDrop)

variable (i : Iface) (tr : List (RouterEvent κ)) (ev : RouterEvent κ)

theorem accepted_snoc : accepted i (tr ++ [ev]) = accepted i tr ++ (ev.accepted i).toList := by
  cases h : ev.accepted i <;> simp [accepted, h]

theorem handed_snoc : handed i (tr ++ [ev]) = handed i tr ++ (ev.handed i).toList := by
  cases h : ev.handed i <;> simp [handed, h]

theorem ingressDrops_snoc :
    ingressDrops (tr ++ [ev]) = ingressDrops tr + if ev.ingressDrop then 1 else 0 := by
  simp [ingressDrops, List.countP_append, List.countP_cons]

end Trace

/-- The accounts of a run: the accepted frames of each direction are those handed on and those
queued, the queues are within their depth and hold IPv4-sized frames, and the counters balance. -/
structure Conserved {κ σ H : Type} (tr : List (RouterEvent κ)) (s : Router κ σ H) : Prop where
  wired : ∀ i, (s.device i).cfg.iface = i
  fifo : ∀ i, accepted i tr = handed i tr ++ s.fwd.queue i
  depth : ∀ i, (s.fwd.queue i).length ≤ chanDepth
  long : ∀ i, ∀ frame ∈ s.fwd.queue i, 34 ≤ frame.length
  balanced : s.fwd.Balanced (ingressDrops tr)

namespace Conserved

section

variable {κ σ H : Type} {tr : List (RouterEvent κ)} {ev : RouterEvent κ} {s s' : Router κ σ H}

/-- A step keeps the accounts if, on each channel, the frame handed on and the queue after it are
the queue before it and the accepted frame. -/
theorem snoc (h : Conserved tr s) (hw : ∀ i, (s'.device i).cfg.iface = i)
    (hflow : ∀ i, (ev.handed i).toList ++ s'.fwd.queue i =
      s.fwd.queue i ++ (ev.accepted i).toList)
    (hdepth : ∀ i, (s'.fwd.queue i).length ≤ chanDepth)
    (hlong : ∀ i frame, ev.accepted i = some frame → 34 ≤ frame.length)
    (hb : s'.fwd.Balanced (ingressDrops (tr ++ [ev]))) : Conserved (tr ++ [ev]) s' := by
  refine ⟨hw, fun i => ?_, hdepth, fun i frame hf => ?_, hb⟩
  · rw [accepted_snoc, handed_snoc, h.fifo, List.append_assoc, List.append_assoc, hflow]
  · have hm : frame ∈ s.fwd.queue i ++ (ev.accepted i).toList :=
      hflow i ▸ List.mem_append_right _ hf
    rcases List.mem_append.1 hm with hm | hm
    · exact h.long i frame hm
    · exact hlong i frame (Option.mem_toList.1 hm)

/-- A step that moves no frame. -/
theorem quiet (h : Conserved tr s) (hw : ∀ i, (s'.device i).cfg.iface = i)
    (ha : ∀ i, ev.accepted i = none) (hh : ∀ i, ev.handed i = none)
    (hq : ∀ i, s'.fwd.queue i = s.fwd.queue i)
    (hb : s'.fwd.Balanced (ingressDrops (tr ++ [ev]))) : Conserved (tr ++ [ev]) s' := by
  refine h.snoc hw (fun i => ?_) (fun i => ?_) (fun i frame hf => ?_) hb
  · simp [ha, hh, hq]
  · rw [hq]
    exact h.depth i
  · rw [ha] at hf
    cases hf

/-- The frame of a transit verdict is diverted; `st` is what the turn has learned so far. -/
theorem diverted (h : Conserved tr s) {st : FwdState} {i : Iface} {frame : Frame}
    (hq : ∀ j, st.queue j = s.fwd.queue j) (hb : st.Balanced (ingressDrops tr))
    (hlen : 34 ≤ frame.length) (hroom : (s.fwd.queue i).length < chanDepth) :
    Conserved (tr ++ [.rx i .transit (some frame)])
      { s with fwd := (s.device i).divert st frame } := by
  obtain ⟨hq', depth, hs'⟩ := FwdState.divert_of_lt (s.device i) frame (by rwa [h.wired, hq])
  simp only [h.wired, hq] at hq' hs'
  refine h.snoc (fun j => ?_) (fun j => ?_) (fun j => ?_) (fun j f hf => ?_) ?_
  · rw [Router.device_with_fwd, h.wired]
  · rw [hq']
    by_cases hj : j = i
    · simp [RouterEvent.accepted, RouterEvent.handed, hj]
    · simp [RouterEvent.accepted, RouterEvent.handed, hj, Ne.symm hj]
  · rw [hq']
    split_ifs with hj
    · rw [List.length_append, List.length_singleton, hj]
      exact hroom
    · exact h.depth j
  · simp only [RouterEvent.accepted] at hf
    split_ifs at hf
    cases hf
    exact hlen
  · rw [ingressDrops_snoc]
    refine hb.accept hs' ?_
    rw [FwdState.queued, FwdState.queued, hq', hq', hq, hq]
    cases i <;> simp <;> omega

/-- The frame of a transit verdict finds its channel full. -/
theorem refused (h : Conserved tr s) {st : FwdState} {i : Iface}
    (hq : ∀ j, st.queue j = s.fwd.queue j) (hb : st.Balanced (ingressDrops tr)) (frame : Frame)
    (hfull : ¬(s.fwd.queue i).length < chanDepth) :
    Conserved (tr ++ [.rx i .transit none])
      { s with fwd := (s.device i).divert st frame } := by
  rw [FwdState.divert_of_not_lt _ _ (by rwa [h.wired, hq])]
  refine h.quiet (fun j => ?_) (fun j => ?_) (fun j => rfl) (fun j => ?_) ?_
  · rw [Router.device_with_fwd, h.wired]
  · simp [RouterEvent.accepted]
  · rw [FwdState.queue_countDrop, hq]
  · rw [ingressDrops_snoc]
    exact hb.refuse rfl rfl

end

variable {κ σ H : Type} [CidrOps κ] [Ipv4PacketOps] [DnsSocketOps σ H]
  {tr : List (RouterEvent κ)} {s : Router κ σ H} {i : Iface}

omit [Ipv4PacketOps] [DnsSocketOps σ H] in
/-- A turn of a receive loop. -/
theorem rx (h : Conserved tr s) {buf : List UInt8} {ts : ℤ} {c : Class} {frame : Frame}
    {ct : CtState} {fwd : FwdState} {out : Option Frame}
    (hc : (s.device i).classifyFrame s.fwd.ct (ForwardingDevice.capture buf) ts = .ok (c, frame, ct))
    (hr : (s.device i).receiveTurn s.fwd buf ts = .ok (fwd, out)) :
    Conserved (tr ++ [.rx i c
      (if c = .transit ∧ (s.fwd.queue i).length < chanDepth then some frame else none)])
      { s with fwd } := by
  obtain ⟨t, -, hset⟩ := RouterStep.fwd_rx hc hr
  rw [h.wired] at hset
  generalize hst : { s.fwd.setNeigh i t with ct } = st at hset
  have hq : ∀ j, st.queue j = s.fwd.queue j := fun j => by
    rw [← hst]
    cases i <;> cases j <;> rfl
  have hs : st.stats = s.fwd.stats := by
    rw [← hst]
    cases i <;> rfl
  have hst' : st.Balanced (ingressDrops tr) := h.balanced.congr hs hq
  have hw : ∀ j, (Router.device { s with fwd } j).cfg.iface = j := fun j => by
    rw [Router.device_with_fwd, h.wired]
  have hd : ∀ sent, ingressDrops (tr ++ [.rx i c sent]) =
      ingressDrops tr + if c = .drop then 1 else 0 := fun sent => by
    simp [ingressDrops_snoc, RouterEvent.ingressDrop]
  cases c with
  | «local» =>
    cases hset
    refine h.quiet hw (fun j => ?_) (fun j => rfl) hq ?_
    · simp [RouterEvent.accepted]
    · rw [hd]
      exact hst'
  | drop =>
    cases hset
    refine h.quiet hw (fun j => ?_) (fun j => rfl) (fun j => ?_) ?_
    · simp [RouterEvent.accepted]
    · rw [FwdState.queue_countDrop, hq]
    · rw [hd]
      exact hst'.ingressDrop rfl rfl
  | transit =>
    have hlen := ForwardingDevice.length_of_classifyFrame hc (by simp)
    simp only [ForwardingDevice.settle, Prod.mk.injEq] at hset
    obtain ⟨rfl, -⟩ := hset
    by_cases hroom : (s.fwd.queue i).length < chanDepth
    · rw [if_pos ⟨rfl, hroom⟩]
      exact h.diverted hq hst' hlen hroom
    · rw [if_neg fun hsent => hroom hsent.2]
      exact h.refused hq hst' frame hroom

omit [DnsSocketOps σ H] in
/-- A queued frame is taken and handed to egress, however that ends. -/
theorem drain [LawfulIpv4Packet] (h : Conserved tr s) {frame : Frame} {q : List Frame} {now : ℤ}
    {ready : Bool} {fwd : FwdState} {out : Option Frame}
    (hold : s.fwd.queue i.other = frame :: q)
    (he : (s.device i).egress (s.fwd.setQueue i.other q) frame now ready = .ok (fwd, out)) :
    Conserved (tr ++ [.drain i frame out]) { s with fwd } := by
  have hlen : 34 ≤ frame.length := h.long i.other frame (hold ▸ List.mem_cons_self)
  obtain ⟨fwd', out', he', hdone⟩ :=
    (s.device i).egress_cases (s.fwd.setQueue i.other q) hlen now ready
  rw [he] at he'
  cases he'
  have hq : ∀ j, fwd.queue j = if j = i.other then q else s.fwd.queue j := fun j => by
    rw [← FwdState.queue_setQueue]
    cases j
    · exact hdone.lanToWan
    · exact hdone.wanToLan
  have hqd : s.fwd.queued = fwd.queued + 1 := by
    rw [FwdState.queued, FwdState.queued, hq, hq]
    cases i <;> simp only [Iface.other] at hold ⊢ <;> simp [hold] <;> omega
  refine h.snoc (fun j => ?_) (fun j => ?_) (fun j => ?_) (fun j f hf => ?_) ?_
  · rw [Router.device_with_fwd, h.wired]
  · rw [hq]
    by_cases hj : i.other = j
    · subst hj
      simp [RouterEvent.accepted, RouterEvent.handed, hold]
    · simp [RouterEvent.accepted, RouterEvent.handed, hj, Ne.symm hj]
  · have hd := h.depth j
    rw [hq]
    split_ifs with hj
    · rw [hj, hold, List.length_cons] at hd
      omega
    · exact hd
  · cases hf
  · have hd : ingressDrops (tr ++ [.drain i frame out]) = ingressDrops tr := by
      simp [ingressDrops_snoc, RouterEvent.ingressDrop]
    rw [hd]
    have hs := s.fwd.stats_setQueue i.other q
    cases out with
    | some g => exact h.balanced.send ((hdone.sent g rfl).2.trans (by rw [hs])) hqd
    | none =>
      obtain ⟨r, hne, hdrop⟩ := hdone.dropped rfl
      exact h.balanced.egressDrop hne (hdrop.trans (by rw [hs])) hqd

/-- **Every step keeps the accounts.** -/
theorem step [LawfulIpv4Packet] (h : Conserved tr s) {ev : RouterEvent κ} {s' : Router κ σ H}
    (hst : RouterStep s ev s') : Conserved (tr ++ [ev]) s' := by
  cases hst with
  | rx hc hr => exact h.rx hc hr
  | drain hold he => exact h.drain hold he
  | lease ev =>
    refine h.quiet (fun j => ?_) (fun _ => rfl) (fun _ => rfl) (fun _ => rfl) ?_
    · cases j with
      | lan => exact h.wired .lan
      | wan =>
        have hw := h.wired .wan
        simp only [Router.device, Router.applyLease, Router.syncLease] at hw ⊢
        split <;> exact hw
    · rw [ingressDrops_snoc]
      exact h.balanced
  | reap =>
    refine h.quiet (fun j => ?_) (fun _ => rfl) (fun _ => rfl) (fun j => ?_) ?_
    · rw [Router.device_with_fwd, h.wired]
    · cases j <;> rfl
    · rw [ingressDrops_snoc]
      exact h.balanced.congr rfl fun j => by cases j <;> rfl

end Conserved

/-- **The run form.** -/
theorem router_conserved {κ σ H : Type} [CidrOps κ] [Ipv4PacketOps] [DnsSocketOps σ H]
    [LawfulIpv4Packet] {tr : List (RouterEvent κ)} {s : Router κ σ H}
    (h : (routerSystem κ σ H).Run tr s) : Conserved tr s := by
  refine h.induction (J := Conserved) (fun s hs => ⟨fun i => ?_, fun i => ?_, fun i => ?_,
    fun i frame hf => ?_, ?_⟩) fun _ _ _ _ _ hC hst => hC.step hst
  · cases i
    · exact hs.lan.1
    · exact hs.wan.1
  · rw [hs.fwd]
    cases i <;> rfl
  · rw [hs.fwd]
    cases i <;> exact Nat.zero_le _
  · rw [hs.fwd] at hf
    cases i <;> cases hf
  · rw [hs.fwd]
    exact ⟨rfl, rfl⟩

/-- **Diverted frames are conserved and ordered**, in every interleaving of the two tasks with any
frames, leases and clocks.  Per direction the frames accepted by `try_send` are, in order and byte by
byte, those handed to the other device's egress and then those still queued, at most `CHAN_DEPTH`.
Modulo `2^32` the diverted, refused and dropped frames balance with those sent, dropped and queued,
and the drops are the sum of their reasons.  No step faults: any received frame is settled, and any
queued frame can be handed on. -/
theorem diverted_conserved {κ σ H : Type} [CidrOps κ] [Ipv4PacketOps] [DnsSocketOps σ H]
    [LawfulIpv4Packet] {tr : List (RouterEvent κ)} {s : Router κ σ H}
    (h : (routerSystem κ σ H).Run tr s) :
    (∀ i, accepted i tr = handed i tr ++ s.fwd.queue i ∧ (s.fwd.queue i).length ≤ chanDepth) ∧
    s.fwd.stats.l2w + s.fwd.stats.w2l + s.fwd.stats.dropBy .qfull +
        UInt32.ofNat (ingressDrops tr) =
      s.fwd.stats.sent + s.fwd.stats.drop +
        UInt32.ofNat (s.fwd.lanToWan.length + s.fwd.wanToLan.length) ∧
    s.fwd.stats.drop = s.fwd.stats.dropBy .qfull + s.fwd.stats.dropBy .nonh +
      s.fwd.stats.dropBy .nat + s.fwd.stats.dropBy .txbusy + s.fwd.stats.dropBy .other ∧
    (∀ i buf ts, ∃ c frame ct fwd out,
      (s.device i).classifyFrame s.fwd.ct (ForwardingDevice.capture buf) ts =
        .ok (c, frame, ct) ∧
      (s.device i).receiveTurn s.fwd buf ts = .ok (fwd, out)) ∧
    ∀ i frame q, s.fwd.queue i.other = frame :: q → ∀ now ready, ∃ fwd out,
      (s.device i).egress (s.fwd.setQueue i.other q) frame now ready = .ok (fwd, out) := by
  have hC := router_conserved h
  refine ⟨fun i => ⟨hC.fifo i, hC.depth i⟩, hC.balanced.account, hC.balanced.reasons, ?_, ?_⟩
  · intro i buf ts
    obtain ⟨t, c, frame, ct, -, hcl, -, hturn⟩ := (s.device i).receiveTurn_ok s.fwd buf ts
    exact ⟨c, frame, ct, _, _, hcl, hturn⟩
  · intro i frame q hold now ready
    have hlen : 34 ≤ frame.length := hC.long i.other frame (hold ▸ List.mem_cons_self)
    obtain ⟨fwd, out, he, -⟩ :=
      (s.device i).egress_cases (s.fwd.setQueue i.other q) hlen now ready
    exact ⟨fwd, out, he⟩

/-- A frame of the gateway to us. -/
def fromGateway : Frame := udpHeaders ⟨203, 0, 113, 1⟩ 53 ⟨203, 0, 113, 9⟩ 1024 0

/-- The turns of a frame from the gateway and of the query of a client: the classes, the classified
query and the queue that it is taken from, and where the WAN device transmits it from. -/
def queryRun [Ipv4PacketOps] : Exec (List Class × List (List Frame) × Option Ipv4Address) := do
  let dev := (routerStart.applyLease dnsLease).wan
  let (c₁, _, _) ← dev.classifyFrame .new (ForwardingDevice.capture fromGateway) 0
  let (fwd₁, _) ← dev.receiveTurn .new fromGateway 0
  let (c₂, f₂, _) ← lanDev.classifyFrame fwd₁.ct (ForwardingDevice.capture lanQuery) 0
  let (fwd₂, _) ← lanDev.receiveTurn fwd₁ lanQuery 0
  let (_, out) ← dev.egress (fwd₂.setQueue .lan []) f₂ 0 true
  return ([c₁, c₂], [fwd₁.queue .lan, [f₂], fwd₂.queue .lan], out.map (ipAt · 26))

/-- The query of a client is queued, handed on and transmitted from the leased address: nothing
waits. -/
theorem diverted_conserved_query :
    ∃ g s, (@routerSystem Ipv4Cidr DnsSlots (Fin 2) _ headerOps _).Run
        [.lease dnsLease, .rx .wan .local none, .rx .lan .transit (some lanQuery),
          .drain .wan lanQuery (some g)] s ∧
      ipAt g 26 = ⟨203, 0, 113, 9⟩ ∧ s.fwd.queue .lan = [] ∧ s.fwd.queue .wan = [] ∧
      s.fwd.stats.l2w + s.fwd.stats.w2l + s.fwd.stats.dropBy .qfull =
        s.fwd.stats.sent + s.fwd.stats.drop := by
  let _ := headerOps
  have _ := headerOps_lawful
  have hquery : queryRun = .ok ([.local, .transit], [[], [lanQuery], [lanQuery]],
      some ⟨203, 0, 113, 9⟩) := by
    decide +kernel
  simp only [queryRun, Exec.bind_eq_ok, Prod.exists, Exec.pure_eq, Except.ok.injEq,
    Prod.mk.injEq, List.cons.injEq, and_true] at hquery
  obtain ⟨c₁, f₁, ct₁, hc₁, fwd₁, out₁, hr₁, c₂, f₂, ct₂, hc₂, fwd₂, out₂, hr₂, fwd₃, out₃, he,
    ⟨rfl, rfl⟩, ⟨hempty, rfl, hq⟩, hout⟩ := hquery
  obtain ⟨g, rfl, hg⟩ := Option.map_eq_some_iff.1 hout
  have h₀ : (routerSystem Ipv4Cidr DnsSlots (Fin 2)).Run [] routerStart := .init routerStart_start
  have hroom : Class.transit = .transit ∧ (fwd₁.queue .lan).length < chanDepth :=
    ⟨rfl, by rw [hempty]; decide⟩
  have hrx := RouterStep.rx (i := .lan)
    (s := { routerStart.applyLease dnsLease with fwd := fwd₁ }) hc₂ hr₂
  rw [if_pos hroom] at hrx
  have h₁ := ((h₀.snoc (.lease dnsLease)).snoc (.rx (i := .wan) hc₁ hr₁)).snoc hrx
  have h₂ := h₁.snoc (.drain (i := .wan) hq he)
  obtain ⟨hfifo, haccount, -⟩ := diverted_conserved h₂
  have hlan : [lanQuery] = [lanQuery] ++ fwd₃.queue .lan := (hfifo .lan).1
  have hwan : [] = fwd₃.queue .wan := (hfifo .wan).1
  have hlan := List.self_eq_append_right.1 hlan
  have hwaiting : UInt32.ofNat (fwd₃.lanToWan.length + fwd₃.wanToLan.length) = 0 := by
    rw [show fwd₃.lanToWan = [] from hlan, show fwd₃.wanToLan = [] from hwan.symm]
    rfl
  refine ⟨g, _, h₂, hg, hlan, hwan.symm, ?_⟩
  dsimp only at haccount ⊢
  rw [hwaiting] at haccount
  simpa [ingressDrops, RouterEvent.ingressDrop] using haccount

end Pico10BaseT
