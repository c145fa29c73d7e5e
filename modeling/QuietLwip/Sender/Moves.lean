import QuietLwip.Sender.Input

/-!
# What a call may do to a sending half

The functions that move segments between the queues leave the state of the connection and its limits
alone. What `tcp_process` may make of a pcb is a relation with one case for each of its branches.
-/

namespace QuietLwip.Sender

open Serial Word Tcp QuietLwip.Stream Transition

variable {α : Type*}

namespace Snd

variable {pcb pcb' pcb₁ : Snd α}

/-! ### What moves segments only -/

/-- The two pcbs are in one state, with the same segment size and the same window offered. -/
structure SameWindow (pcb' pcb : Snd α) : Prop where
  state : pcb'.state = pcb.state
  mss : pcb'.mss = pcb.mss
  sndWnd : pcb'.sndWnd = pcb.sndWnd
  sndWndMax : pcb'.sndWndMax = pcb.sndWndMax
  persistBackoff : pcb'.persistBackoff = pcb.persistBackoff

/-- The two pcbs differ in their queues and in what goes with them. -/
structure SameLimits (pcb' pcb : Snd α) : Prop extends SameWindow pcb' pcb where
  cwnd : pcb'.cwnd = pcb.cwnd
  ssthresh : pcb'.ssthresh = pcb.ssthresh
  infr : pcb'.infr = pcb.infr

theorem SameWindow.trans (h : pcb₁.SameWindow pcb') (h' : pcb'.SameWindow pcb) :
    pcb₁.SameWindow pcb where
  state := h.state.trans h'.state
  mss := h.mss.trans h'.mss
  sndWnd := h.sndWnd.trans h'.sndWnd
  sndWndMax := h.sndWndMax.trans h'.sndWndMax
  persistBackoff := h.persistBackoff.trans h'.persistBackoff

theorem SameLimits.refl (pcb : Snd α) : pcb.SameLimits pcb :=
  ⟨⟨rfl, rfl, rfl, rfl, rfl⟩, rfl, rfl, rfl⟩

theorem SameLimits.trans (h : pcb₁.SameLimits pcb') (h' : pcb'.SameLimits pcb) :
    pcb₁.SameLimits pcb where
  toSameWindow := h.toSameWindow.trans h'.toSameWindow
  cwnd := h.cwnd.trans h'.cwnd
  ssthresh := h.ssthresh.trans h'.ssthresh
  infr := h.infr.trans h'.infr

theorem outputLoop_same (queue : List (OutSeg α)) (pcb : Snd α) :
    (outputLoop queue pcb).SameLimits pcb := by
  induction queue generalizing pcb with
  | nil => exact ⟨⟨rfl, rfl, rfl, rfl, rfl⟩, rfl, rfl, rfl⟩
  | cons seg rest ih =>
    simp only [outputLoop]
    split
    · exact (ih _).trans ⟨⟨rfl, rfl, rfl, rfl, rfl⟩, rfl, rfl, rfl⟩
    · exact ⟨⟨rfl, rfl, rfl, rfl, rfl⟩, rfl, rfl, rfl⟩

theorem tcpOutput_same {acked : Bool} : (pcb.tcpOutput acked).SameLimits pcb := by
  simp only [tcpOutput]
  split
  · exact ⟨⟨rfl, rfl, rfl, rfl, rfl⟩, rfl, rfl, rfl⟩
  · apply outputLoop_same

theorem tcpRexmitRto_same {acked : Bool} : (pcb.tcpRexmitRto acked).SameLimits pcb := by
  simp only [tcpRexmitRto]
  split
  · exact .refl pcb
  · exact tcpOutput_same.trans ⟨⟨rfl, rfl, rfl, rfl, rfl⟩, rfl, rfl, rfl⟩

theorem tcpRexmit_same : pcb.tcpRexmit.SameLimits pcb := by
  simp only [tcpRexmit]
  split <;> exact ⟨⟨rfl, rfl, rfl, rfl, rfl⟩, rfl, rfl, rfl⟩

theorem tcpEnqueueFlags_same {memory syn fin : Bool} :
    (pcb.tcpEnqueueFlags memory syn fin).1.SameLimits pcb := by
  simp only [tcpEnqueueFlags]
  repeat' split
  all_goals exact ⟨⟨rfl, rfl, rfl, rfl, rfl⟩, rfl, rfl, rfl⟩

theorem tcpSendFin_same {memory : Bool} : (pcb.tcpSendFin memory).1.SameLimits pcb := by
  simp only [tcpSendFin]
  split
  · split
    · exact tcpEnqueueFlags_same
    · exact ⟨⟨rfl, rfl, rfl, rfl, rfl⟩, rfl, rfl, rfl⟩
  · exact tcpEnqueueFlags_same

theorem tcpWrite_same {args : WriteArgs} {data : List α} :
    (pcb.tcpWrite args data).1.SameLimits pcb := by
  simp only [tcpWrite]
  repeat' split
  all_goals exact ⟨⟨rfl, rfl, rfl, rfl, rfl⟩, rfl, rfl, rfl⟩

theorem freeUnacked_same (ackno : Seq) (queue : List (OutSeg α)) (pcb : Snd α) :
    (freeUnacked ackno queue pcb).SameLimits pcb := by
  induction queue generalizing pcb with
  | nil => exact ⟨⟨rfl, rfl, rfl, rfl, rfl⟩, rfl, rfl, rfl⟩
  | cons seg rest ih =>
    simp only [freeUnacked]
    split
    · exact (ih _).trans ⟨⟨rfl, rfl, rfl, rfl, rfl⟩, rfl, rfl, rfl⟩
    · exact ⟨⟨rfl, rfl, rfl, rfl, rfl⟩, rfl, rfl, rfl⟩

theorem freeUnsent_same (ackno : Seq) (queue : List (OutSeg α)) (pcb : Snd α) :
    (freeUnsent ackno queue pcb).SameLimits pcb := by
  induction queue generalizing pcb with
  | nil => exact ⟨⟨rfl, rfl, rfl, rfl, rfl⟩, rfl, rfl, rfl⟩
  | cons seg rest ih =>
    simp only [freeUnsent]
    split
    · exact (ih _).trans ⟨⟨rfl, rfl, rfl, rfl, rfl⟩, rfl, rfl, rfl⟩
    · exact ⟨⟨rfl, rfl, rfl, rfl, rfl⟩, rfl, rfl, rfl⟩

/-! ### `tcp_receive` -/

theorem inflate_window : pcb.inflate.SameWindow pcb := by
  simp only [inflate]
  split <;> exact ⟨rfl, rfl, rfl, rfl, rfl⟩

theorem tcpRexmitFast_window : pcb.tcpRexmitFast.SameWindow pcb := by
  simp only [tcpRexmitFast]
  split
  · have h : pcb.tcpRexmit.SameLimits pcb := tcpRexmit_same
    exact ⟨h.state, h.mss, h.sndWnd, h.sndWndMax, h.persistBackoff⟩
  · exact ⟨rfl, rfl, rfl, rfl, rfl⟩

/-- What a duplicate acknowledgement does, by the count that it leaves. -/
theorem ackOld_cases (edge : Seq) (seg : Incoming) (pcb : Snd α) :
    ∃ n, pcb.ackOld edge seg = { pcb with acked := 0, dupacks := n } ∨
      pcb.ackOld edge seg = inflate { pcb with acked := 0, dupacks := n } ∨
      pcb.ackOld edge seg = tcpRexmitFast { pcb with acked := 0, dupacks := n } := by
  simp only [ackOld]
  split
  · refine ⟨countDupack pcb.dupacks, ?_⟩
    split
    · exact .inr (.inl rfl)
    · split
      · exact .inr (.inr rfl)
      · exact .inl rfl
  · exact ⟨0, .inl rfl⟩

theorem ackOld_window {edge : Seq} {seg : Incoming} : (pcb.ackOld edge seg).SameWindow pcb := by
  obtain ⟨n, h | h | h⟩ := ackOld_cases edge seg pcb
  · exact h ▸ ⟨rfl, rfl, rfl, rfl, rfl⟩
  · exact h ▸ inflate_window.trans ⟨rfl, rfl, rfl, rfl, rfl⟩
  · exact h ▸ tcpRexmitFast_window.trans ⟨rfl, rfl, rfl, rfl, rfl⟩

theorem growCwnd_window : pcb.growCwnd.SameWindow pcb := by
  simp only [growCwnd]
  split
  · exact inflate_window
  · split <;> exact ⟨rfl, rfl, rfl, rfl, rfl⟩

theorem leaveRecovery_window : pcb.leaveRecovery.SameWindow pcb := by
  simp only [leaveRecovery]
  split <;> exact ⟨rfl, rfl, rfl, rfl, rfl⟩

theorem ackNew_window {ackno : Seq} : (pcb.ackNew ackno).SameWindow pcb := by
  have hcount : (pcb.leaveRecovery.countAcked ackno).SameWindow pcb.leaveRecovery :=
    ⟨rfl, rfl, rfl, rfl, rfl⟩
  have h := (freeUnacked_same ackno (pcb.leaveRecovery.countAcked ackno).growCwnd.unacked
    _).toSameWindow.trans (growCwnd_window.trans (hcount.trans leaveRecovery_window))
  exact ⟨h.state, h.mss, h.sndWnd, h.sndWndMax, h.persistBackoff⟩

/-- `tcp_receive` changes the window by the window update only. -/
theorem tcpReceive_window {seg : Incoming} :
    (pcb.tcpReceive seg).SameWindow (if seg.ack then pcb.updateWindow seg else pcb) := by
  simp only [tcpReceive]
  split
  · have hack : (pcb.receiveAck seg).SameWindow (pcb.updateWindow seg) := by
      simp only [receiveAck]
      refine (freeUnsent_same _ _ _).toSameWindow.trans ?_
      split
      · exact ackOld_window
      · split
        · exact ackNew_window
        · exact ⟨rfl, rfl, rfl, rfl, rfl⟩
    exact ⟨hack.state, hack.mss, hack.sndWnd, hack.sndWndMax, hack.persistBackoff⟩
  · exact ⟨rfl, rfl, rfl, rfl, rfl⟩

@[simp] theorem updateWindow_state (seg : Incoming) : (pcb.updateWindow seg).state = pcb.state := by
  simp only [updateWindow]
  split <;> rfl

@[simp] theorem updateWindow_mss (seg : Incoming) : (pcb.updateWindow seg).mss = pcb.mss := by
  simp only [updateWindow]
  split <;> rfl

@[simp] theorem tcpReceive_state (seg : Incoming) : (pcb.tcpReceive seg).state = pcb.state := by
  rw [tcpReceive_window.state]
  split
  · exact updateWindow_state seg
  · rfl

@[simp] theorem tcpReceive_mss (seg : Incoming) : (pcb.tcpReceive seg).mss = pcb.mss := by
  rw [tcpReceive_window.mss]
  split
  · exact updateWindow_mss seg
  · rfl

/-! ### `tcp_process` -/

/-- What `tcp_process` may make of a pcb from `tcp_parseopt` on. -/
inductive Processed (mtu : Option ℕ) (seg : Incoming) (pcb : Snd α) : Snd α → Prop
  | ignored : Processed mtu seg pcb pcb
  | synAcked {rseg : OutSeg α} {unacked : List (OutSeg α)} (hstate : pcb.state = .synSent)
      (hfirst : pcb.unacked = rseg :: unacked) (hack : seg.ack = true) (hsyn : seg.syn = true)
      (hackno : seg.ackno = rseg.seqno + 1) :
      Processed mtu seg pcb (pcb.synAcked mtu seg unacked)
  | refused : Processed mtu seg pcb (pcb.leave .closed)
  | accepted (hstate : pcb.state = .synRcvd) (hack : seg.ack = true)
      (hbetween : tcpSeqBetween seg.ackno (pcb.lastack + 1) pcb.sndNxt = true)
      (haccepted : seg.accepted = true) :
      Processed mtu seg pcb (pcb.accept seg)
  | synAgain (hstate : pcb.state = .synRcvd) : Processed mtu seg pcb pcb.tcpRexmit
  | received {state : TcpState} {ackNow : Bool} (hstate : pastHandshake pcb.state)
      (hnext : pastHandshake state) :
      Processed mtu seg pcb { pcb.tcpReceive seg with state := state, ackNow := ackNow }
  | left {state : TcpState} {ackNow : Bool} (hstate : pastHandshake pcb.state)
      (hnext : state = .timeWait ∨ state = .closed) :
      Processed mtu seg pcb (leave state { pcb.tcpReceive seg with ackNow := ackNow })

variable {mtu : Option ℕ} {seg : Incoming}

theorem Processed.stayed (hstate : pastHandshake pcb.state) :
    Processed mtu seg pcb (pcb.tcpReceive seg) := by
  have hnext : pastHandshake (pcb.tcpReceive seg).state := by rwa [tcpReceive_state]
  exact .received hstate hnext

theorem processState_processed (mtu : Option ℕ) (seg : Incoming) (pcb : Snd α) :
    Processed mtu seg pcb (pcb.processState mtu seg) := by
  simp only [processState]
  split
  case h_1 hstate =>
    split
    · exact .ignored
    · next rseg unacked hfirst =>
      split
      · next h => exact .synAcked hstate hfirst h.1 h.2.1 h.2.2
      · exact .ignored
  case h_2 hstate =>
    split
    · next hack =>
      split
      · next hbetween =>
        split
        · next haccepted => exact .accepted hstate hack hbetween haccepted
        · exact .refused
      · exact .ignored
    · split
      · exact .synAgain hstate
      · exact .ignored
  case h_9 => exact .ignored
  all_goals
    next hstate =>
    have hpast : pastHandshake pcb.state := by rw [hstate]; rfl
    repeat' split
    all_goals first
      | exact .stayed hpast
      | exact .received hpast rfl
      | exact .left hpast (.inl rfl)
      | exact .left hpast (.inr rfl)

/-- The cases of `tcp_process`. -/
theorem tcpProcess_cases (mtu : Option ℕ) (seg : Incoming) (pcb : Snd α) :
    pcb.tcpProcess mtu seg = pcb ∨ pcb.tcpProcess mtu seg = pcb.leave .closed ∨
      pcb.tcpProcess mtu seg = { pcb with ackNow := true } ∨
      seg.rst = false ∧ (seg.syn = true → pcb.state = .synSent ∨ pcb.state = .synRcvd) ∧
        Processed mtu seg (pcb.tcpParseopt seg.mss) (pcb.tcpProcess mtu seg) := by
  simp only [tcpProcess]
  split
  · split
    · exact .inr (.inl rfl)
    · exact .inl rfl
  · next hrst =>
    split
    · exact .inr (.inr (.inl rfl))
    · next hsyn =>
      refine .inr (.inr (.inr ⟨by simpa using hrst, fun hs => ?_, processState_processed _ _ _⟩))
      by_contra hstate
      rw [not_or] at hstate
      exact hsyn ⟨hs, hstate⟩

/-! ### The application and the timer -/

/-- The state follows only when there was room for the FIN. -/
theorem sendFin_window (env : CallEnv) (state : TcpState) (pcb : Snd α) :
    (pcb.sendFin env state).SameWindow pcb ∨
      (pcb.tcpSendFin env.memory).2 = true ∧
        (pcb.sendFin env state).SameWindow { pcb with state := state } := by
  have hfin : (pcb.tcpSendFin env.memory).1.SameLimits pcb := tcpSendFin_same
  simp only [sendFin]
  split
  · next hsent =>
    exact .inr ⟨hsent, tcpOutput_same.toSameWindow.trans
      ⟨rfl, hfin.mss, hfin.sndWnd, hfin.sndWndMax, hfin.persistBackoff⟩⟩
  · exact .inl hfin.toSameWindow

theorem tcpSlowtmr_cases (env : CallEnv) (expired remove : Bool) (pcb : Snd α) :
    pcb.tcpSlowtmr env expired remove = pcb.leave .closed ∨
      0 < pcb.persistBackoff ∧ pcb.tcpSlowtmr env expired remove = pcb.persist ∨
      ∃ t, pcb.tcpSlowtmr env expired remove = { pcb with rtime := t } ∨
        pcb.tcpSlowtmr env expired remove = retransmit env { pcb with rtime := t } := by
  simp only [tcpSlowtmr]
  split
  · exact .inl rfl
  · split
    · next hpersist => exact .inr (.inl ⟨hpersist, rfl⟩)
    · refine .inr (.inr ⟨if 0 ≤ pcb.rtime then s16 (pcb.rtime + 1) else pcb.rtime, ?_⟩)
      split
      · exact .inr rfl
      · exact .inl rfl

theorem retransmit_window {env : CallEnv} : (pcb.retransmit env).SameWindow pcb :=
  tcpRexmitRto_same.toSameWindow.trans ⟨rfl, rfl, rfl, rfl, rfl⟩

/-! ### Opening -/

theorem tcpConnect_same (mtu : Option ℕ) (iss : Seq) (acked : Bool) :
    (tcpConnect (α := α) mtu iss acked).SameLimits
      { connecting (α := α) mtu iss with state := .synSent } := by
  have h : ((connecting (α := α) mtu iss).tcpEnqueueFlags true true false).1.SameLimits
      (connecting mtu iss) := tcpEnqueueFlags_same
  exact tcpOutput_same.trans
    ⟨⟨rfl, h.mss, h.sndWnd, h.sndWndMax, h.persistBackoff⟩, h.cwnd, h.ssthresh, h.infr⟩

theorem tcpListenInput_same (mtu : Option ℕ) (iss : Seq) (seg : Incoming) (acked : Bool) :
    (tcpListenInput (α := α) mtu iss seg acked).SameLimits (created mtu iss seg) :=
  tcpOutput_same.trans tcpEnqueueFlags_same

end Snd

end QuietLwip.Sender
