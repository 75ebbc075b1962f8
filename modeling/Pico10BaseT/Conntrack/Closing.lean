import Pico10BaseT.Conntrack.Liveness

/-!
# A TCP flow that closes

A FIN or RST puts the entry of a TCP flow in the state `closing`, whose timeout is the short one.
`next_tcp_state` keeps that state on FIN, RST and SYN; a packet with none of them, such as the last
ACK of the exchange, makes the flow established again.

* `slot_step` : what a step does to a slot that holds a flow before and after it.
* `closing_short_iff` : the flow stays on the short timeout exactly as long as each packet of it
  carries one of the three flags.
-/

namespace Pico10BaseT

/-- The packet carries FIN, RST or SYN. -/
def Signals (flags : UInt8) : Prop :=
  flags &&& (tcpFin ||| tcpRst) ≠ 0 ∨ flags &&& tcpSyn ≠ 0

theorem nextTcpState_fin {flags : UInt8} (h : flags &&& (tcpFin ||| tcpRst) ≠ 0) (cur : TcpState) :
    nextTcpState cur flags = .closing := if_pos h

theorem nextTcpState_closing {flags : UInt8} :
    (Signals flags → nextTcpState .closing flags = .closing) ∧
      (¬ Signals flags → nextTcpState .closing flags = .established) := by
  simp only [Signals, nextTcpState]
  split_ifs <;> simp_all

/-- The operation is a packet that finds the entry. -/
def CtEvent.reaches (e : Entry) : CtEvent → Bool
  | outbound t _ _ _ => e.isFlow t
  | inbound proto rip rid wid _ now _ => e.isReply proto rip rid wid now
  | reap _ => false

/-- The entry in slot `i` has the timeout of a flow in transition, and a sweep so much after the last
packet frees the slot. -/
structure ShortIdle (i : ℕ) (s : CtState) : Prop where
  timeout : (s.ct.slot i).timeoutMs = tTcpTrans
  freed : ∀ now, (s.ct.slot i).lastSeen + tTcpTrans ≤ now → ((s.reap now).ct.slot i).used = false

/-- A packet that finds the closing entry in slot `i` carries FIN, RST or SYN. -/
def ClosingSignals (i : ℕ) (s : CtState) (ev : CtEvent) : Prop :=
  (s.ct.slot i).tcp = .closing → ev.reaches (s.ct.slot i) = true → Signals ev.tcpFlags

variable {s s' : CtState} {ev : CtEvent} {i : ℕ} {t : Tuple} {wid : UInt16}

/-- Writing slot `j`, if it is slot `i` exactly when the packet finds the entry there. -/
theorem slot_setSlot_reaches (hi : i < ctCap) {j : ℕ} {e : Entry}
    (hji : ev.reaches (s.ct.slot i) = true ↔ j = i)
    (he : j = i → e = (s.ct.slot i).touch ev.tcpFlags ev.time) :
    (ev.reaches (s.ct.slot i) = true →
      (s.ct.setSlot j e).slot i = (s.ct.slot i).touch ev.tcpFlags ev.time) ∧
    (ev.reaches (s.ct.slot i) = false → (s.ct.setSlot j e).slot i = s.ct.slot i) := by
  constructor
  · intro hr
    rw [Conntrack.slot_setSlot, if_pos ⟨hji.1 hr, hi⟩, he (hji.1 hr)]
  · intro hr
    rw [Conntrack.slot_setSlot, if_neg]
    intro hc
    rw [hji.2 hc.1] at hr
    cases hr

/-- **A slot that holds a flow before and after a step** is refreshed by a packet that finds it, and
left alone by every other operation. -/
theorem slot_step (hI : s.Inv) (hst : ctStep s ev s') (h : HoldsFlow s i t wid)
    (h' : HoldsFlow s' i t wid) :
    (ev.reaches (s.ct.slot i) = true →
      s'.ct.slot i = (s.ct.slot i).touch ev.tcpFlags ev.time) ∧
    (ev.reaches (s.ct.slot i) = false → s'.ct.slot i = s.ct.slot i) := by
  have hi := h.lt
  cases ev with
  | outbound t' f now r =>
    rcases CtState.outbound_cases hI.cursorRange.1 hst with
      ⟨j, hj, hu, htup, -, rfl⟩ | ⟨hnew, id, c', hfree, -, -, -, rfl⟩
    · refine slot_setSlot_reaches hi ⟨?_, ?_⟩ (by rintro rfl; rfl)
      · intro hf
        exact hI.flowsDistinct j hj i hi hu h.used (htup.trans (Entry.isFlow_iff.1 hf).2.symm)
      · rintro rfl
        exact Entry.isFlow_iff.2 ⟨hu, htup⟩
    · have hmiss : (s.ct.slot i).isFlow t' = true → s.ct.pickSlot now = i := fun hf =>
        absurd (Entry.isFlow_iff.1 hf).2 (hnew i hi (Entry.isFlow_iff.1 hf).1)
      -- the new entry is elsewhere: its id is not the one in slot `i`
      have hpick : s.ct.pickSlot now ≠ i := by
        intro hpick
        have hwid : ((s.ct.setSlot (s.ct.pickSlot now)
          (CtState.newEntry t' id f now)).slot i).wanId = wid := h'.wanId
        rw [Conntrack.slot_setSlot, if_pos ⟨hpick, hi⟩] at hwid
        have hid : id = wid := hwid
        rw [hid, Conntrack.idInUse_iff.2 ⟨i, hi, h.used, h.wanId⟩] at hfree
        cases hfree
      exact slot_setSlot_reaches hi ⟨hmiss, fun hc => absurd hc hpick⟩ fun hc => absurd hc hpick
  | inbound proto rip rid w f now r =>
    rcases CtState.inbound_cases hst with ⟨j, hj, hp, -, rfl⟩ | ⟨hnone, -, rfl⟩
    · refine slot_setSlot_reaches hi ⟨?_, ?_⟩ (by rintro rfl; rfl)
      · intro hf
        obtain ⟨hu, hw, -⟩ := Entry.isReply_iff.1 hp
        exact hI.idsDistinct j hj i hi hu h.used (hw.trans (Entry.isReply_iff.1 hf).2.1.symm)
      · rintro rfl
        exact hp
    · refine ⟨fun hf => ?_, fun _ => rfl⟩
      rw [CtEvent.reaches, hnone i hi] at hf
      cases hf
  | reap now =>
    obtain rfl : s.reap now = s' := hst
    refine ⟨fun hf => (Bool.noConfusion hf), fun _ => ?_⟩
    exact (CtState.slot_reap_of_used h'.used).2

/-! ### From the FIN on -/

/-- The label of an operation decides what it does. -/
theorem ctStep_unique {s s' s'' : CtState} {ev : CtEvent} (h : ctStep s ev s')
    (h' : ctStep s ev s'') : s' = s'' := by
  cases ev with
  | outbound => exact congrArg Prod.fst (Eq.trans (Eq.symm h) h')
  | inbound => exact congrArg Prod.fst (Eq.trans (Eq.symm h) h')
  | reap => exact Eq.trans (Eq.symm h) h'

/-- A TCP flow idles for the short timeout unless it is established. -/
theorem shortIdle_iff (h : HoldsFlow s i t wid) (htcp : t.proto = .tcp) :
    ShortIdle i s ↔ (s.ct.slot i).tcp ≠ .established := by
  have hproto : (s.ct.slot i).proto = .tcp := (congrArg Tuple.proto h.tuple).trans htcp
  have htimeout : (s.ct.slot i).timeoutMs = tTcpTrans ↔ (s.ct.slot i).tcp ≠ .established := by
    simp only [Entry.timeoutMs, hproto]
    cases (s.ct.slot i).tcp <;> simp [tTcpTrans, tTcpEst]
  refine ⟨fun hs => htimeout.1 hs.timeout, fun hne => ⟨htimeout.2 hne, ?_⟩⟩
  intro now hnow
  have hexp : ¬ now - (s.ct.slot i).lastSeen < (s.ct.slot i).timeoutMs := by
    rw [htimeout.2 hne]
    omega
  rw [(CtState.reap_live s now i).1, Entry.live, h.used, Bool.true_and, decide_eq_false hexp]

/-- A FIN or RST leaves the entry of its flow closing. -/
theorem closing_of_fin (hI : s.Inv) (hst : ctStep s ev s') (h' : HoldsFlow s' i t wid)
    (hpk : ev.isPacketOf t wid = true) (hfin : ev.tcpFlags &&& (tcpFin ||| tcpRst) ≠ 0) :
    (s'.ct.slot i).tcp = .closing := by
  -- the packet writes a closing entry with the id of the flow, and only slot `i` has that id
  have hwritten : ∀ k e, k < ctCap → (∀ j, s'.ct.slot j = (s.ct.setSlot k e).slot j) →
      e.used = true → e.wanId = wid → e.tcp = .closing → (s'.ct.slot i).tcp = .closing := by
    intro k e hk hslot hu hw hc
    have hke : s'.ct.slot k = e := by rw [hslot, Conntrack.slot_setSlot, if_pos ⟨rfl, hk⟩]
    have hik := (hI.step hst).idsDistinct i h'.lt k hk h'.used (hke ▸ hu)
      (h'.wanId.trans (hke ▸ hw.symm))
    rw [hik, hke, hc]
  cases ev with
  | outbound t' f now r =>
    simp only [CtEvent.isPacketOf, Bool.and_eq_true, decide_eq_true_eq] at hpk
    rcases CtState.outbound_cases hI.cursorRange.1 hst with
      ⟨j, hj, hu, -, hr, rfl⟩ | ⟨-, id, c', -, -, -, hr, rfl⟩
    · rw [hpk.2, Option.some_inj] at hr
      exact hwritten j _ hj (fun _ => rfl) hu hr.symm (nextTcpState_fin hfin _)
    · rw [hpk.2, Option.some_inj] at hr
      exact hwritten _ _ (s.ct.pickSlot_lt now) (fun _ => rfl) rfl hr.symm (nextTcpState_fin hfin _)
  | inbound proto rip rid w f now r =>
    simp only [CtEvent.isPacketOf, Bool.and_eq_true, decide_eq_true_eq] at hpk
    rcases CtState.inbound_cases hst with ⟨j, hj, hp, -, rfl⟩ | ⟨-, hr, -⟩
    · obtain ⟨hu, hw, -⟩ := Entry.isReply_iff.1 hp
      exact hwritten j _ hj (fun _ => rfl) hu (hw.trans hpk.1.2) (nextTcpState_fin hfin _)
    · rw [hpk.2] at hr
      cases hr
  | reap now => cases hpk

/-- **One step of a closing flow**: it stays closing, or it is established again if a packet without
FIN, RST and SYN has found it. -/
theorem closing_step (hI : s.Inv) (hst : ctStep s ev s') (h : HoldsFlow s i t wid)
    (h' : HoldsFlow s' i t wid) (hc : (s.ct.slot i).tcp = .closing) :
    (ClosingSignals i s ev → (s'.ct.slot i).tcp = .closing) ∧
      (¬ ClosingSignals i s ev → (s'.ct.slot i).tcp = .established) := by
  obtain ⟨hreach, hmiss⟩ := slot_step hI hst h h'
  cases hr : ev.reaches (s.ct.slot i) with
  | false =>
    rw [hmiss hr]
    exact ⟨fun _ => hc, fun hno => absurd (fun _ hf => Bool.noConfusion (hr.symm.trans hf)) hno⟩
  | true =>
    rw [hreach hr]
    have htouch : ((s.ct.slot i).touch ev.tcpFlags ev.time).tcp =
        nextTcpState .closing ev.tcpFlags := congrArg (nextTcpState · ev.tcpFlags) hc
    rw [htouch]
    exact ⟨fun hsig => nextTcpState_closing.1 (hsig hc hr),
      fun hno => nextTcpState_closing.2 fun hf => hno fun _ _ => hf⟩

/-- The steps taken while slot `i` holds the flow. -/
abbrev holding (i : ℕ) (t : Tuple) (wid : UInt16) : System CtState CtEvent :=
  ctSystem.restrict fun s _ => HoldsFlow s i t wid

/-- A slot that holds a flow at the end of such a path has held it from the start. -/
theorem holdsFlow_start {post : List CtEvent} (hpath : (holding i t wid).Path s post s')
    (h : HoldsFlow s' i t wid) : HoldsFlow s i t wid := by
  induction hpath with
  | nil => exact h
  | snoc _ hst ih => exact ih hst.1

/-- **While a closing flow holds its slot**, it idles for the short timeout throughout exactly if
every packet that finds it closing carries FIN, RST or SYN. -/
theorem closing_path {post : List CtEvent} (hI : s.Inv) (htcp : t.proto = .tcp)
    (hc : (s.ct.slot i).tcp = .closing) (hpath : (holding i t wid).Path s post s')
    (h : HoldsFlow s' i t wid) :
    (((ctSystem.restrict fun s _ => ShortIdle i s).Path s post s' ∧ ShortIdle i s') ↔
      (ctSystem.restrict (ClosingSignals i)).Path s post s') ∧
    ((ctSystem.restrict (ClosingSignals i)).Path s post s' → (s'.ct.slot i).tcp = .closing) := by
  induction hpath with
  | nil =>
    refine ⟨⟨fun _ => .nil, fun _ => ⟨.nil, ?_⟩⟩, fun _ => hc⟩
    rw [shortIdle_iff h htcp, hc]
    exact nofun
  | @snoc ls s₁ s₂ ev hpath hst ih =>
    have hI₁ : s₁.Inv := hpath.of_restrict.invariant hI fun _ _ _ hJ hst => hJ.step hst
    obtain ⟨hiff, hclosing⟩ := ih hst.1
    -- a path with the same labels has passed through the same state
    have hsame : ∀ {C : CtState → CtEvent → Prop} {u : CtState},
        (ctSystem.restrict C).Path s ls u → u = s₁ := fun hu =>
      hu.of_restrict.unique (fun _ _ _ _ => ctStep_unique) hpath.of_restrict
    refine ⟨⟨?_, ?_⟩, ?_⟩
    · rintro ⟨hshort, hs₂⟩
      obtain ⟨u, hu, hs₁, -⟩ := hshort.last
      obtain rfl := hsame hu
      have hsig := hiff.1 ⟨hu, hs₁⟩
      obtain ⟨-, hest⟩ := closing_step hI₁ hst.2 hst.1 h (hclosing hsig)
      refine hsig.snoc ⟨?_, hst.2⟩
      by_contra hno
      exact (shortIdle_iff h htcp).1 hs₂ (hest hno)
    · intro hsig
      obtain ⟨u, hu, hC, -⟩ := hsig.last
      obtain rfl := hsame hu
      obtain ⟨hshort, hs₁⟩ := hiff.2 hu
      refine ⟨hshort.snoc ⟨hs₁, hst.2⟩, (shortIdle_iff h htcp).2 ?_⟩
      rw [(closing_step hI₁ hst.2 hst.1 h (hclosing hu)).1 hC]
      exact nofun
    · intro hsig
      obtain ⟨u, hu, hC, -⟩ := hsig.last
      obtain rfl := hsame hu
      exact (closing_step hI₁ hst.2 hst.1 h (hclosing hu)).1 hC

/-- **The short timeout of a closing flow.**  In any run, after a packet with FIN or RST of the TCP
flow in slot `i` and for as long as the slot keeps holding the flow: the flow idles for the short
timeout at every moment if and only if every packet that finds its entry closing carries FIN, RST or
SYN.  What a sweep measures its idle time from is its last packet. -/
theorem closing_short_iff {tr post : List CtEvent} {s₁ s₂ : CtState} (hrun : ctSystem.Run tr s)
    (hst : ctSystem.step s ev s₁) (htcp : t.proto = .tcp) (hpk : ev.isPacketOf t wid = true)
    (hfin : ev.tcpFlags &&& (tcpFin ||| tcpRst) ≠ 0)
    (hpath : (holding i t wid).Path s₁ post s₂) (h : HoldsFlow s₂ i t wid) :
    lastPacket (tr ++ [ev] ++ post) t wid = some (s₂.ct.slot i).lastSeen ∧
    (((ctSystem.restrict fun s _ => ShortIdle i s).Path s₁ post s₂ ∧ ShortIdle i s₂) ↔
      (ctSystem.restrict (ClosingSignals i)).Path s₁ post s₂) := by
  have hI : s.Inv := ct_invariant ⟨tr, hrun⟩
  constructor
  · have hseen := (ct_hist ((hrun.snoc hst).append hpath.of_restrict)).seen i h.lt h.used
    rwa [h.tuple, h.wanId] at hseen
  · have hc := closing_of_fin hI hst (holdsFlow_start hpath h) hpk hfin
    exact (closing_path (hI.step hst) htcp hc hpath h).1

/-! ### The last ACK -/

/-- The flow of an HTTPS client. -/
def webFlow : Tuple := ⟨.tcp, ⟨192, 168, 4, 10⟩, 40000, ⟨1, 1, 1, 1⟩, 443⟩

/-- The table after the client has sent `flags` at the given times. -/
def webRun (packets : List (UInt8 × ℕ)) : CtState :=
  packets.foldl (fun s p => (s.outbound webFlow p.1 p.2).1) .new

theorem webRun_syn : ctSystem.Run [.outbound webFlow 0x02 0 (some 49152)] (webRun [(0x02, 0)]) :=
  (System.Run.init rfl).snoc (step_outbound (by decide +kernel))

theorem webRun_fin : ctSystem.step (webRun [(0x02, 0)]) (.outbound webFlow 0x11 900 (some 49152))
    (webRun [(0x02, 0), (0x11, 900)]) := step_outbound (by decide +kernel)

theorem holdsFlow_webRun_fin : HoldsFlow (webRun [(0x02, 0), (0x11, 900)]) 0 webFlow 49152 :=
  ⟨by decide, by decide +kernel, by decide +kernel, by decide +kernel⟩

/-- A client that sends FIN and then the last ACK is taken for established again: the sweep ten
seconds later keeps its slot. -/
theorem closing_not_short :
    ¬ ∀ (tr post : List CtEvent) (s s₁ s₂ : CtState) (ev : CtEvent) (i : ℕ) (t : Tuple)
      (wid : UInt16), ctSystem.Run tr s → ctSystem.step s ev s₁ → t.proto = .tcp →
      ev.isPacketOf t wid = true → ev.tcpFlags &&& (tcpFin ||| tcpRst) ≠ 0 →
      (holding i t wid).Path s₁ post s₂ → HoldsFlow s₂ i t wid → ShortIdle i s₂ := by
  intro hclaim
  have hack : (holding 0 webFlow 49152).Path (webRun [(0x02, 0), (0x11, 900)])
      [.outbound webFlow 0x10 950 (some 49152)]
      (webRun [(0x02, 0), (0x11, 900), (0x10, 950)]) :=
    .one ⟨holdsFlow_webRun_fin, step_outbound (by decide +kernel)⟩
  have hshort := hclaim _ _ _ _ _ _ _ _ _ webRun_syn webRun_fin rfl (by decide) (by decide) hack
    ⟨by decide, by decide +kernel, by decide +kernel, by decide +kernel⟩
  exact absurd hshort.timeout (by decide +kernel)

/-- A FIN of the client and one of its peer: the flow idles for the short timeout. -/
theorem closing_short_two_fins :
    ∃ s₁ s₂, (holding 0 webFlow 49152).Path s₁
        [.inbound .tcp ⟨1, 1, 1, 1⟩ 443 49152 0x11 950 (some (⟨192, 168, 4, 10⟩, 40000))] s₂ ∧
      ShortIdle 0 s₂ := by
  have hreply : ctSystem.step (webRun [(0x02, 0), (0x11, 900)])
      (.inbound .tcp ⟨1, 1, 1, 1⟩ 443 49152 0x11 950 (some (⟨192, 168, 4, 10⟩, 40000))) _ :=
    step_inbound (by decide +kernel)
  have hpath := System.Path.one (A := holding 0 webFlow 49152) ⟨holdsFlow_webRun_fin, hreply⟩
  refine ⟨_, _, hpath, ?_⟩
  refine ((closing_short_iff webRun_syn webRun_fin rfl (by decide) (by decide) hpath
    ⟨by decide, by decide +kernel, by decide +kernel, by decide +kernel⟩).2.2 ?_).2
  exact System.Path.one (A := ctSystem.restrict (ClosingSignals 0))
    ⟨fun _ _ => .inl (by decide), hreply⟩

end Pico10BaseT
