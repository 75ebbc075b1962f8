import Pico10BaseT.Conntrack.Invariant
import Pico10BaseT.Forward.Egress

/-!
# Ingress

`ForwardingDevice::receive`: the loop that skims transit and drop frames off the inner device until
a frame for the local stack arrives.  One turn of it learns, classifies, and diverts or drops; a
local frame ends the loop and is replayed to smoltcp.

* `ForwardingDevice.classifyFrame_cases` : everything `classify_frame` can do.
* `ForwardingDevice.receiveTurn_ok` : everything one turn can do.
-/

namespace Pico10BaseT

/-- Per-direction forward-queue depth. -/
def chanDepth : ℕ := 4

namespace FwdStats

/-- Count a diverted frame, and the queue depth after it. -/
def countDiverted (s : FwdStats) (iface : Iface) (depth : ℕ) : FwdStats :=
  match iface with
  | .lan => { s with l2w := s.l2w + 1, qhwmL2w := max s.qhwmL2w (UInt32.ofNat depth) }
  | .wan => { s with w2l := s.w2l + 1, qhwmW2l := max s.qhwmW2l (UInt32.ofNat depth) }

end FwdStats

namespace FwdState

def setNeigh (st : FwdState) (iface : Iface) (t : NeighborTable) : FwdState :=
  match iface with
  | .lan => { st with lanNeigh := t }
  | .wan => { st with wanNeigh := t }

/-- The channel that the device of an interface diverts to. -/
def queue (st : FwdState) : Iface → List Frame
  | .lan => st.lanToWan
  | .wan => st.wanToLan

def setQueue (st : FwdState) (iface : Iface) (q : List Frame) : FwdState :=
  match iface with
  | .lan => { st with lanToWan := q }
  | .wan => { st with wanToLan := q }

end FwdState

/-- `try_send` of a channel; `none` when it is full. -/
def trySend (q : List Frame) (frame : Frame) : Option (List Frame) :=
  if q.length < chanDepth then some (q ++ [frame]) else none

variable {κ : Type} [CidrOps κ]

namespace ForwardingDevice

/-- Max bytes of a forwarded L2 frame. -/
def frameCap : ℕ := 1600

/-- The frame that `receive` takes from a token of the inner device. -/
def capture (buf : List UInt8) : Frame := buf.take (min buf.length frameCap)

/-- Push a transit frame onto the channel of the device. -/
def divert (dev : ForwardingDevice κ) (st : FwdState) (frame : Frame) : FwdState :=
  match trySend (st.queue dev.cfg.iface) frame with
  | some q =>
    let st := st.setQueue dev.cfg.iface q
    { st with stats := st.stats.countDiverted dev.cfg.iface q.length }
  -- egress queue full
  | none => st.countDrop .qfull

/-- What becomes of a classified frame; a frame for smoltcp is returned. -/
def settle (dev : ForwardingDevice κ) (st : FwdState) (c : Class) (frame : Frame) :
    FwdState × Option Frame :=
  match c with
  | .local => (st, some frame)
  | .transit => (dev.divert st frame, none)
  | .drop => (st.countDrop .other, none)

/-- One turn of the loop of `receive`, on a frame of the inner device; a frame that ends the loop is
returned. -/
def receiveTurn (dev : ForwardingDevice κ) (st : FwdState) (buf : List UInt8) (ts : ℤ) :
    Exec (FwdState × Option Frame) := do
  let frame := capture buf
  let t ← learn dev.cfg (st.neigh dev.cfg.iface) frame
  let st := st.setNeigh dev.cfg.iface t
  let (c, frame, ct) ← dev.classifyFrame st.ct frame ts
  return dev.settle { st with ct } c frame

/-- `receive`, with the frames that the inner device holds.  It ends with a frame for smoltcp, if
the inner phy then has a TX token, or with none; the frames not taken are left. -/
def receive (dev : ForwardingDevice κ) (st : FwdState) (ts : ℤ) (ready : Bool) :
    List (List UInt8) → Exec (FwdState × Option Frame × List (List UInt8))
  | [] => return (st, none, [])
  | buf :: bufs => do
    match ← dev.receiveTurn st buf ts with
    | (st, some frame) => return (st, if ready then some frame else none, bufs)
    | (st, none) => dev.receive st ts ready bufs

end ForwardingDevice

/-! ### Classification -/

/-- A frame leaves the local stack if it is an IPv4 frame to the MAC of a leased interface and not
to its address. -/
theorem classify_eq (cfg : IfaceCfg κ) (frame : Frame) : classify cfg frame =
    .ok (if cfg.ourIp.isUnspecified = false ∧ frame.take 6 = cfg.ourMac.toList ∧
        (34 ≤ frame.length ∧ wordAt frame 12 = ethertypeIpv4) ∧ ipAt frame 30 ≠ cfg.ourIp then
      match cfg.acceptDst with
      | none => .transit
      | some net => if CidrOps.containsAddr net (ipAt frame 30) then .transit else .drop
    else .local) := by
  unfold classify
  by_cases hguard : frame.length < 14 ∨ cfg.ourIp.isUnspecified
  · rw [if_pos hguard, if_neg, Exec.pure_eq]
    rintro ⟨hip, -, hlen, -⟩
    rcases hguard with h14 | hunspec
    · omega
    · rw [hip] at hunspec
      cases hunspec
  · rw [if_neg hguard]
    push Not at hguard
    rw [slice_zero (by omega), Exec.ok_bind]
    by_cases hmac : frame.take 6 = cfg.ourMac.toList
    · rw [if_neg (not_not.2 hmac), ipv4Dst_eq, Exec.ok_bind]
      by_cases hip : 34 ≤ frame.length ∧ wordAt frame 12 = ethertypeIpv4
      · rw [if_pos hip]
        by_cases hdst : ipAt frame 30 = cfg.ourIp
        · simp [hdst]
        · simp only [if_neg hdst]
          rw [if_pos ⟨by simpa using hguard.2, hmac, hip, hdst⟩]
          cases cfg.acceptDst <;> rfl
      · rw [if_neg hip, if_neg fun h => hip h.2.2.1, Exec.pure_eq]
    · rw [if_pos hmac, if_neg fun h => hmac h.2.1, Exec.pure_eq]

theorem classify_ok (cfg : IfaceCfg κ) (frame : Frame) : ∃ c, classify cfg frame = .ok c :=
  ⟨_, classify_eq cfg frame⟩

/-- A frame that is not local is long enough to be an IPv4 frame. -/
theorem length_of_classify {cfg : IfaceCfg κ} {frame : Frame} {c : Class}
    (h : classify cfg frame = .ok c) (hc : c ≠ .local) : 34 ≤ frame.length := by
  by_contra hlen
  rw [classify_eq, if_neg fun h => hlen h.2.2.1.1] at h
  exact hc (Except.ok.inj h).symm

/-- A device without an address leaves everything to the local stack. -/
theorem classify_unspecified {cfg : IfaceCfg κ} (h : cfg.ourIp.isUnspecified = true)
    (frame : Frame) : classify cfg frame = .ok .local := by
  rw [classify_eq, if_neg fun hc => Bool.noConfusion (h.symm.trans hc.1)]

/-- `frame` is an IPv4 frame to our MAC and our address. -/
structure ToUs (cfg : IfaceCfg κ) (frame : Frame) : Prop where
  leased : cfg.ourIp.isUnspecified = false
  length : 34 ≤ frame.length
  mac : frame.take 6 = cfg.ourMac.toList
  etype : wordAt frame 12 = ethertypeIpv4
  dst : ipAt frame 30 = cfg.ourIp

omit [CidrOps κ] in
theorem toUs_ok (cfg : IfaceCfg κ) (frame : Frame) :
    ∃ b, ForwardingDevice.toUs cfg frame = .ok b ∧ (b = true ↔ ToUs cfg frame) := by
  unfold ForwardingDevice.toUs
  split_ifs with hguard
  · refine ⟨false, rfl, by simp, fun h => ?_⟩
    rcases hguard with hip | hlen
    · rw [h.leased] at hip
      exact Bool.noConfusion hip
    · exact absurd h.length (by omega)
  · push Not at hguard
    obtain ⟨hip, hlen⟩ := hguard
    rw [slice_zero (by omega), Exec.ok_bind]
    split_ifs with hmac
    · exact ⟨false, rfl, by simp, fun h => absurd h.mac hmac⟩
    · rw [ipv4Dst_eq, Exec.ok_bind]
      refine ⟨_, rfl, fun h => ?_, fun h => ?_⟩
      · have hdst := of_decide_eq_true h
        split_ifs at hdst with het
        exact ⟨by simpa using hip, hlen, not_not.1 hmac, het.2, Option.some_inj.1 hdst⟩
      · simp [h.length, h.etype, h.dst]

namespace ForwardingDevice

variable {dev : ForwardingDevice κ} {ct : CtState} {frame : Frame} {ts : ℤ}

/-- The table is asked about a frame of these: parsed, to us, on the NAPT device. -/
structure Asks (dev : ForwardingDevice κ) (frame : Frame) (l4 : L4) : Prop where
  nat : dev.nat = true
  toUs : ToUs dev.cfg frame
  parsed : IsL4 frame l4

/-- **Everything `classify_frame` can do**: divert a reply that the table answers, rewritten to the
LAN client, or leave frame and table alone and classify. -/
theorem classifyFrame_cases (dev : ForwardingDevice κ) (ct : CtState) (frame : Frame) (ts : ℤ) :
    (∃ l4 ct' lanIp lanId frame', dev.Asks frame l4 ∧
      ct.inbound l4.proto (ipAt frame 26) (replyIds l4).1 (replyIds l4).2 l4.tcpFlags (nowMs ts) =
        (ct', some (lanIp, lanId)) ∧
      dev.classifyFrame ct frame ts = .ok (.transit, frame', ct') ∧
      Rewritten 30 2 frame l4 lanIp lanId frame') ∨
    ((∀ l4, dev.Asks frame l4 →
      (ct.inbound l4.proto (ipAt frame 26) (replyIds l4).1 (replyIds l4).2 l4.tcpFlags
        (nowMs ts)).2 = none) ∧
      ∃ c, classify dev.cfg frame = .ok c ∧ dev.classifyFrame ct frame ts = .ok (c, frame, ct)) := by
  obtain ⟨c, hc⟩ := classify_ok dev.cfg frame
  obtain ⟨b, hb, hiff⟩ := toUs_ok dev.cfg frame
  by_cases hask : ∃ l4, dev.Asks frame l4
  · obtain ⟨l4, hnat, hus, hl4⟩ := hask
    rcases hin : ct.inbound l4.proto (ipAt frame 26) (replyIds l4).1 (replyIds l4).2 l4.tcpFlags
      (nowMs ts) with ⟨ct', m⟩
    cases m with
    | some lan =>
      obtain ⟨frame', hcl, hrw⟩ := classifyFrame_reply hnat hus.leased hl4 hus.mac hus.dst hin
      exact .inl ⟨l4, ct', lan.1, lan.2, frame', ⟨hnat, hus, hl4⟩, hin, hcl, hrw⟩
    | none =>
      -- a miss leaves the table alone
      obtain rfl : ct' = ct := by
        rcases CtState.inbound_cases hin with ⟨_, _, _, hr, _⟩ | ⟨_, _, h⟩
        · cases hr
        · exact h
      refine .inr ⟨fun l4' hask' => ?_, c, hc, ?_⟩
      · obtain rfl : l4' = l4 := by
          have := hask'.parsed.parseL4.symm.trans hl4.parseL4
          simpa using this
        rw [hin]
      · have hlen := hus.length
        have hb' : toUs dev.cfg frame = .ok true := by rw [hb, hiff.2 hus]
        simp only [classifyFrame, hnat, if_true, hb', Exec.ok_bind, hl4.parseL4,
          rdIp_ok (show 26 + 3 < frame.length by omega)]
        cases hp : l4.proto <;> rw [hp] at hin <;>
          simp only [replyIds, hp, reduceCtorEq, if_true, if_false] at hin <;>
          simp only [hin, Option.map_none, Exec.pure_eq, Exec.ok_bind, hc]
  · refine .inr ⟨fun l4 h => absurd ⟨l4, h⟩ hask, c, hc, ?_⟩
    cases hnat : dev.nat with
    | false => simp [classifyFrame, hnat, hc]
    | true =>
      cases b with
      | false => simp [classifyFrame, hnat, hb, hc]
      | true =>
        obtain ⟨r4, hr4⟩ := parseL4_ok frame
        cases r4 with
        | none => simp [classifyFrame, hnat, hb, hr4, hc]
        | some l4 => exact absurd ⟨l4, hnat, hiff.1 rfl, parseL4_eq_some_iff.1 hr4⟩ hask

/-- `classify_frame` returns for every frame, and leaves a local one and the table alone. -/
theorem classifyFrame_ok (dev : ForwardingDevice κ) (ct : CtState) (frame : Frame) (ts : ℤ) :
    ∃ c frame' ct', dev.classifyFrame ct frame ts = .ok (c, frame', ct') ∧
      (c = .local → frame' = frame ∧ ct' = ct) := by
  rcases dev.classifyFrame_cases ct frame ts with
    ⟨l4, ct', lanIp, lanId, frame', -, -, hcl, -⟩ | ⟨-, c, -, hcl⟩
  · exact ⟨.transit, frame', ct', hcl, fun h => by cases h⟩
  · exact ⟨c, frame, ct, hcl, fun _ => ⟨rfl, rfl⟩⟩

/-- A frame that is diverted or dropped is long enough to be an IPv4 frame. -/
theorem length_of_classifyFrame {c : Class} {frame' : Frame} {ct' : CtState}
    (h : dev.classifyFrame ct frame ts = .ok (c, frame', ct')) (hc : c ≠ .local) :
    34 ≤ frame'.length := by
  rcases dev.classifyFrame_cases ct frame ts with
    ⟨l4, _, _, _, _, hask, -, hcl, hrw⟩ | ⟨-, c', hc', hcl⟩
  · rw [h] at hcl
    cases hcl
    rw [hrw.length]
    exact hask.toUs.length
  · rw [h] at hcl
    cases hcl
    exact length_of_classify hc' hc

/-- **One turn of the loop** learns, classifies, and settles the frame by its class. -/
theorem receiveTurn_ok (dev : ForwardingDevice κ) (st : FwdState) (buf : List UInt8) (ts : ℤ) :
    ∃ t c frame ct, learn dev.cfg (st.neigh dev.cfg.iface) (capture buf) = .ok t ∧
      dev.classifyFrame st.ct (capture buf) ts = .ok (c, frame, ct) ∧
      (c = .local → frame = capture buf ∧ ct = st.ct) ∧
      dev.receiveTurn st buf ts =
        .ok (dev.settle { st.setNeigh dev.cfg.iface t with ct } c frame) := by
  obtain ⟨t, ht, -⟩ := learn_ok dev.cfg (st.neigh dev.cfg.iface) (capture buf)
  obtain ⟨c, frame, ct, hcl, hlocal⟩ := dev.classifyFrame_ok st.ct (capture buf) ts
  refine ⟨t, c, frame, ct, ht, hcl, hlocal, ?_⟩
  have hct : (st.setNeigh dev.cfg.iface t).ct = st.ct := by cases dev.cfg.iface <;> rfl
  simp only [receiveTurn, ht, Exec.ok_bind, hct, hcl, Exec.pure_eq]

/-- A frame handed to smoltcp is one that the inner device received, unchanged. -/
theorem receive_some {dev : ForwardingDevice κ} {ts : ℤ} {ready : Bool} {bufs rest : List Frame}
    {st st' : FwdState} {out : Frame}
    (h : dev.receive st ts ready bufs = .ok (st', some out, rest)) :
    ∃ pre buf, bufs = pre ++ buf :: rest ∧ out = capture buf := by
  induction bufs generalizing st with
  | nil => cases h
  | cons buf bufs ih =>
    obtain ⟨t, c, frame, ct, -, -, hlocal, hturn⟩ := dev.receiveTurn_ok st buf ts
    simp only [receive, hturn, Exec.ok_bind] at h
    cases c with
    | «local» =>
      obtain ⟨rfl, -⟩ := hlocal rfl
      simp only [settle, Exec.pure_eq, Except.ok.injEq, Prod.mk.injEq] at h
      obtain ⟨-, hout, rfl⟩ := h
      cases ready with
      | false => cases hout
      | true => exact ⟨[], buf, rfl, (Option.some_inj.1 hout).symm⟩
    | transit =>
      obtain ⟨pre, b, rfl, hout⟩ := ih h
      exact ⟨buf :: pre, b, rfl, hout⟩
    | drop =>
      obtain ⟨pre, b, rfl, hout⟩ := ih h
      exact ⟨buf :: pre, b, rfl, hout⟩

end ForwardingDevice

end Pico10BaseT
