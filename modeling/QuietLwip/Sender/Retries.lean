import QuietLwip.Sender.Moves
import QuietLwip.Sender.RoundTrips

/-!
# The retransmission counter

`nrtx` is increased by the slow timer, by the third duplicate acknowledgement, and in `SYN_RCVD` by every
copy of the SYN. The slow timer compares it with its limits for equality and then takes it for an index of
`tcp_backoff`.
-/

namespace QuietLwip.Sender

open Serial Word Tcp QuietLwip.Stream Transition

/-- `TCP_SYNMAXRTX` -/
def tcpSynmaxrtx : ℕ := 6

variable {α : Type*}

namespace Snd

/-- The tests of `tcp_slowtmr` on the number of retransmissions -/
def retried (pcb : Snd α) : Bool :=
  (pcb.state == .synSent && pcb.nrtx == tcpSynmaxrtx) || pcb.nrtx == tcpMaxrtx

/-- The index at which `tcp_slowtmr` reads `tcp_backoff` -/
def backoffIndex (expired : Bool) (pcb : Snd α) : Option ℕ :=
  if pcb.retried = false ∧ pcb.persistBackoff = 0 ∧ pcb.unacked ≠ [] ∧ expired = true ∧ pcb.state ≠ .synSent then
    some pcb.nrtx
  else none

/-- The number of retransmissions after which a pcb is to be removed -/
def retryLimit (pcb : Snd α) : ℕ := if pcb.state = .synSent then tcpSynmaxrtx else tcpMaxrtx

/-- A slow timer whose answer for the retries is that of the code; `late` stands for the other reasons for
which a pcb is removed. -/
def slowtmr (env : CallEnv) (expired late : Bool) (pcb : Snd α) : Snd α :=
  pcb.tcpSlowtmr env expired (pcb.retried || late)

/-- An event of the sending half, with the code's answer for the retries. -/
def settled (pcb : Snd α) : Event α → Event α
  | .slowtmr env expired late => .slowtmr env expired (pcb.retried || late)
  | e => e

end Snd

/-- One connection whose slow timer looks at its retries. -/
def retrying (α : Type*) (mtu : Option ℕ) : System (Snd α) (Event α) where
  start := (sending α mtu).start
  step pcb e pcb' := pcb' = pcb.exec mtu (pcb.settled e)

namespace Snd

/-- A copy of the SYN of the connection, in `SYN_RCVD` -/
def SynAgain (seg : Incoming) (pcb : Snd α) : Prop :=
  pcb.state = .synRcvd ∧ seg.ack = false ∧ seg.syn = true ∧ seg.seqno = pcb.rcvNxt - 1

/-- The third duplicate acknowledgement, while the connection does not recover from a loss -/
def ThirdDupack (seg : Incoming) (pcb : Snd α) : Prop :=
  seg.tcplen = 0 ∧ (pcb.updateWindow seg).rightWndEdge = pcb.rightWndEdge ∧ 0 ≤ pcb.rtime ∧
    pcb.lastack = seg.ackno ∧ pcb.dupacks = 2 ∧ pcb.infr = false

/-- The segment makes `tcp_rexmit` send the first unacknowledged segment again. -/
def Rexmits (seg : Incoming) (pcb : Snd α) : Prop :=
  seg.rst = false ∧ pcb.unacked ≠ [] ∧
    (pcb.SynAgain seg ∨
      pastHandshake pcb.state ∧ seg.syn = false ∧ seg.ack = true ∧ pcb.ThirdDupack seg)

instance (seg : Incoming) (pcb : Snd α) : Decidable (pcb.SynAgain seg) :=
  inferInstanceAs (Decidable (_ ∧ _))

instance (seg : Incoming) (pcb : Snd α) : Decidable (pcb.ThirdDupack seg) :=
  inferInstanceAs (Decidable (_ ∧ _))

/-- No segment makes a pcb retransmit that the next slow timer is to remove. -/
def InTime (pcb : Snd α) : Event α → Prop
  | .arrive seg => pcb.nrtx = tcpMaxrtx → ¬ pcb.Rexmits seg
  | _ => True

/-- The index into the table is right, and a pcb that has used up its retries is removed. -/
structure RetriesEnd (pcb : Snd α) : Prop where
  index_le : ∀ expired, ∀ i ∈ pcb.backoffIndex expired, i ≤ 12
  removed : pcb.retryLimit ≤ pcb.nrtx → ∀ env expired late, pcb.slowtmr env expired late = pcb.leave .closed

/-! ### What counts -/

variable {pcb pcb' : Snd α} {seg : Incoming} {mtu : Option ℕ}

@[simp] theorem outputLoop_nrtx (queue : List (OutSeg α)) (pcb : Snd α) :
    (outputLoop queue pcb).nrtx = pcb.nrtx := by
  induction queue generalizing pcb with
  | nil => rfl
  | cons seg rest ih =>
    rw [outputLoop]
    split
    · rw [ih]
      rfl
    · rfl

@[simp] theorem tcpOutput_nrtx (acked : Bool) (pcb : Snd α) : (pcb.tcpOutput acked).nrtx = pcb.nrtx := by
  rw [tcpOutput]
  split
  · rfl
  · rw [outputLoop_nrtx]

theorem tcpRexmitRto_nrtx (acked : Bool) (h : pcb.unacked ≠ []) :
    (pcb.tcpRexmitRto acked).nrtx = u8 (pcb.nrtx + 1) := by
  rw [tcpRexmitRto]
  cases hun : pcb.unacked with
  | nil => exact absurd hun h
  | cons seg rest =>
    dsimp only
    rw [tcpOutput_nrtx]

theorem tcpRexmit_nrtx (pcb : Snd α) :
    pcb.tcpRexmit.nrtx = if pcb.unacked = [] then pcb.nrtx else u8 (pcb.nrtx + 1) := by
  rw [tcpRexmit]
  cases hun : pcb.unacked <;> rfl

@[simp] theorem tcpEnqueueFlags_nrtx (memory syn fin : Bool) (pcb : Snd α) :
    (pcb.tcpEnqueueFlags memory syn fin).1.nrtx = pcb.nrtx := by
  rw [tcpEnqueueFlags]
  split_ifs <;> rfl

@[simp] theorem tcpSendFin_nrtx (memory : Bool) (pcb : Snd α) :
    (pcb.tcpSendFin memory).1.nrtx = pcb.nrtx := by
  rw [tcpSendFin]
  split
  · split
    · exact tcpEnqueueFlags_nrtx ..
    · rfl
  · exact tcpEnqueueFlags_nrtx ..

@[simp] theorem tcpWrite_nrtx (args : WriteArgs) (data : List α) (pcb : Snd α) :
    (pcb.tcpWrite args data).1.nrtx = pcb.nrtx := by
  rw [tcpWrite]
  repeat' split
  all_goals rfl

@[simp] theorem freeUnacked_nrtx (ackno : Seq) (queue : List (OutSeg α)) (pcb : Snd α) :
    (freeUnacked ackno queue pcb).nrtx = pcb.nrtx := by
  induction queue generalizing pcb with
  | nil => rfl
  | cons seg rest ih =>
    rw [freeUnacked]
    split
    · rw [ih]
      rfl
    · rfl

@[simp] theorem freeUnsent_nrtx (ackno : Seq) (queue : List (OutSeg α)) (pcb : Snd α) :
    (freeUnsent ackno queue pcb).nrtx = pcb.nrtx := by
  induction queue generalizing pcb with
  | nil => rfl
  | cons seg rest ih =>
    rw [freeUnsent]
    split
    · rw [ih]
      rfl
    · rfl

@[simp] theorem inflate_nrtx (pcb : Snd α) : pcb.inflate.nrtx = pcb.nrtx := by
  rw [inflate]
  split <;> rfl

@[simp] theorem growCwnd_nrtx (pcb : Snd α) : pcb.growCwnd.nrtx = pcb.nrtx := by
  rw [growCwnd]
  split
  · exact inflate_nrtx pcb
  · dsimp only
    split <;> rfl

/-- An acknowledgement of something new starts the count again. -/
theorem ackNew_nrtx (ackno : Seq) (pcb : Snd α) : (pcb.ackNew ackno).nrtx = 0 := by
  rw [ackNew]
  dsimp only
  rw [freeUnacked_nrtx, growCwnd_nrtx]
  rfl

theorem tcpRexmitFast_nrtx (pcb : Snd α) : pcb.tcpRexmitFast.nrtx =
    if pcb.unacked ≠ [] ∧ pcb.infr = false then u8 (pcb.nrtx + 1) else pcb.nrtx := by
  rw [tcpRexmitFast]
  split
  · next h =>
    dsimp only
    rw [tcpRexmit_nrtx, if_neg h.1]
  · rfl

theorem countDupack_eq {n : ℕ} (h : countDupack n = 3) : n = 2 := by
  have hn : n = 2 ∨ n = 3 := by
    rw [countDupack] at h
    split_ifs at h <;> omega
  rcases hn with rfl | rfl
  · rfl
  · exact absurd h (by decide)

/-- What the window update leaves alone -/
structure SameCounters (pcb' pcb : Snd α) : Prop where
  nrtx : pcb'.nrtx = pcb.nrtx
  lastack : pcb'.lastack = pcb.lastack
  dupacks : pcb'.dupacks = pcb.dupacks
  infr : pcb'.infr = pcb.infr
  rtime : pcb'.rtime = pcb.rtime
  unacked : pcb'.unacked = pcb.unacked

theorem updateWindow_counters (seg : Incoming) (pcb : Snd α) : (pcb.updateWindow seg).SameCounters pcb := by
  rw [updateWindow]
  split <;> exact ⟨rfl, rfl, rfl, rfl, rfl, rfl⟩

/-- The count behind a duplicate acknowledgement -/
theorem ackOld_nrtx (edge : Seq) (seg : Incoming) (pcb : Snd α) :
    (pcb.ackOld edge seg).nrtx = pcb.nrtx ∨
      (pcb.ackOld edge seg).nrtx = u8 (pcb.nrtx + 1) ∧ pcb.unacked ≠ [] ∧ seg.tcplen = 0 ∧
        pcb.rightWndEdge = edge ∧ 0 ≤ pcb.rtime ∧ pcb.lastack = seg.ackno ∧ pcb.dupacks = 2 ∧ pcb.infr = false := by
  rw [ackOld]
  split
  · next hdup =>
    obtain ⟨hlen, hedge, hrtime, hack⟩ := hdup
    dsimp only at hedge hrtime hack ⊢
    split
    · exact .inl (inflate_nrtx _)
    · split
      · next hthird =>
        rw [tcpRexmitFast_nrtx]
        split
        · next hrexmit => exact .inr ⟨rfl, hrexmit.1, hlen, hedge, hrtime, hack, countDupack_eq hthird, hrexmit.2⟩
        · exact .inl rfl
      · exact .inl rfl
  · exact .inl rfl

theorem tcpReceive_nrtx (seg : Incoming) (pcb : Snd α) :
    (pcb.tcpReceive seg).nrtx = pcb.nrtx ∨ (pcb.tcpReceive seg).nrtx = 0 ∨
      (pcb.tcpReceive seg).nrtx = u8 (pcb.nrtx + 1) ∧ pcb.unacked ≠ [] ∧ seg.ack = true ∧ pcb.ThirdDupack seg := by
  rw [tcpReceive]
  split
  · next hack =>
    have hw := updateWindow_counters seg pcb
    rw [receiveAck]
    dsimp only
    rw [freeUnsent_nrtx]
    split
    · rcases ackOld_nrtx pcb.rightWndEdge seg (pcb.updateWindow seg) with h | ⟨h, hun, hlen, hedge, hrtime, hlast, hdup, hinfr⟩
      · exact .inl (h.trans hw.nrtx)
      · refine .inr (.inr ⟨by rw [h, hw.nrtx], hw.unacked ▸ hun, hack, hlen, hedge, ?_, ?_, ?_, ?_⟩)
        · exact hw.rtime ▸ hrtime
        · exact hw.lastack ▸ hlast
        · exact hw.dupacks ▸ hdup
        · exact hw.infr ▸ hinfr
    · split
      · exact .inr (.inl (ackNew_nrtx _ _))
      · exact .inl hw.nrtx
  · exact .inl rfl

/-! ### What a segment does -/

/-- After a segment the count is the one before, or it starts again, or `tcp_rexmit` has increased it;
no pcb enters `SYN_SENT`. -/
structure Recounted (seg : Incoming) (pcb pcb' : Snd α) : Prop where
  nrtx : pcb'.nrtx = pcb.nrtx ∨ pcb'.nrtx = 0 ∨ pcb'.nrtx = u8 (pcb.nrtx + 1) ∧ pcb.Rexmits seg
  synSent : pcb'.state = .synSent → pcb.state = .synSent ∧ pcb'.nrtx = pcb.nrtx

theorem Recounted.refl (seg : Incoming) (pcb : Snd α) : Recounted seg pcb pcb := ⟨.inl rfl, fun h => ⟨h, rfl⟩⟩

theorem Recounted.of_state {state : TcpState} (hne : state ≠ .synSent) (hstate : pcb'.state = state)
    (hnrtx : pcb'.nrtx = pcb.nrtx ∨ pcb'.nrtx = 0 ∨ pcb'.nrtx = u8 (pcb.nrtx + 1) ∧ pcb.Rexmits seg) :
    Recounted seg pcb pcb' :=
  ⟨hnrtx, fun h => absurd (hstate.symm.trans h) hne⟩

theorem pastHandshake_ne {state : TcpState} (h : pastHandshake state) : state ≠ .synSent := by
  rintro rfl
  exact absurd h (by decide)

/-- An acknowledgement that the SYN-ACK waits for is no duplicate. -/
theorem between_ne {lastack ackno sndNxt : Seq}
    (h : tcpSeqBetween ackno (lastack + 1) sndNxt = true) : lastack ≠ ackno := by
  rintro rfl
  have hsub : lastack - (lastack + 1) = -1 := by ring
  have hdist : Serial.dist lastack (lastack + 1) = -1 := congrArg BitVec.toInt hsub
  rw [tcpSeqBetween, Bool.and_eq_true, tcpSeqGeq, hdist] at h
  exact absurd h.1 (by decide)

theorem thirdDupack_parseopt {mss : Option ℕ} (h : (pcb.tcpParseopt mss).ThirdDupack seg) :
    pcb.ThirdDupack seg := by
  cases mss with
  | none => exact h
  | some mss =>
    obtain ⟨hlen, hedge, hrest⟩ := h
    refine ⟨hlen, ?_, hrest⟩
    by_cases hu : pcb.UpdatesWindow seg
    · have hu' : (pcb.tcpParseopt (some mss)).UpdatesWindow seg := hu
      rw [updateWindow, if_pos hu'] at hedge
      rw [updateWindow, if_pos hu]
      exact hedge
    · rw [updateWindow, if_neg hu]

/-- The segment text of an open connection -/
theorem recounted_received {state : TcpState} {ackNow : Bool} (hrst : seg.rst = false) (hsyn : seg.syn = false)
    (hstate : pastHandshake pcb.state) (hne : state ≠ .synSent) :
    Recounted seg pcb { pcb.tcpReceive seg with state := state, ackNow := ackNow } := by
  refine .of_state hne rfl ?_
  rcases tcpReceive_nrtx seg pcb with h | h | ⟨h, hun, hack, hdup⟩
  · exact .inl h
  · exact .inr (.inl h)
  · exact .inr (.inr ⟨h, hrst, hun, .inr ⟨hstate, hsyn, hack, hdup⟩⟩)

/-- The acknowledgement of the SYN-ACK never sends anything again. -/
theorem accept_nrtx (hbetween : tcpSeqBetween seg.ackno (pcb.lastack + 1) pcb.sndNxt = true) :
    (pcb.accept seg).nrtx = pcb.nrtx ∨ (pcb.accept seg).nrtx = 0 := by
  have hreceive : (Snd.tcpReceive seg { pcb with state := .established }).nrtx = pcb.nrtx ∨
      (Snd.tcpReceive seg { pcb with state := .established }).nrtx = 0 := by
    rcases tcpReceive_nrtx seg { pcb with state := .established } with h | h | ⟨-, -, -, hdup⟩
    · exact .inl h
    · exact .inr h
    · exact absurd hdup.2.2.2.1 (between_ne hbetween)
  rw [accept]
  dsimp only
  split <;> exact hreceive

theorem accept_state (seg : Incoming) (pcb : Snd α) : (pcb.accept seg).state ≠ .synSent := by
  rw [accept]
  dsimp only
  split
  · exact fun h => by cases h
  · rw [tcpReceive_state]
    exact fun h => by cases h

/-- A copy of the SYN is what makes `SYN_RCVD` send its SYN-ACK again. -/
theorem recounted_synRcvd (hrst : seg.rst = false) (hstate : pcb.state = .synRcvd) :
    Recounted seg pcb (pcb.processState mtu seg) := by
  simp only [processState, hstate]
  split
  · split
    · next hbetween =>
      split
      · refine ⟨?_, fun h => absurd h (accept_state seg pcb)⟩
        rcases accept_nrtx hbetween with h | h
        · exact .inl h
        · exact .inr (.inl h)
      · exact .of_state (by decide : TcpState.closed ≠ .synSent) rfl (.inl rfl)
    · exact .refl seg pcb
  · next hack =>
    split
    · next hcopy =>
      have hsame : pcb.tcpRexmit.state = pcb.state := tcpRexmit_same.state
      refine .of_state (by decide) (hsame.trans hstate) ?_
      rw [tcpRexmit_nrtx]
      split
      · exact .inl rfl
      · next hun =>
        exact .inr (.inr ⟨rfl, hrst, hun, .inl ⟨hstate, by simpa using hack, hcopy.1, hcopy.2⟩⟩)
    · exact .refl seg pcb

/-- `tcp_process` from `tcp_parseopt` on -/
theorem recounted_processState (hrst : seg.rst = false)
    (hsyn : seg.syn = true → pcb.state = .synSent ∨ pcb.state = .synRcvd) :
    Recounted seg pcb (pcb.processState mtu seg) := by
  by_cases hrcvd : pcb.state = .synRcvd
  · exact recounted_synRcvd hrst hrcvd
  have hpast : pastHandshake pcb.state → seg.syn = false := by
    intro hstate
    by_contra hs
    rcases hsyn (by simpa using hs) with h | h <;> rw [h] at hstate <;> exact absurd hstate (by decide)
  have hp := processState_processed mtu seg pcb
  generalize pcb.processState mtu seg = pcb' at hp ⊢
  cases hp with
  | ignored => exact .refl seg pcb
  | synAcked hstate hfirst hack hsyn hackno =>
    refine .of_state (by decide : TcpState.established ≠ .synSent) rfl ?_
    rw [synAcked]
    dsimp only
    split
    · exact .inl rfl
    · exact .inr (.inl rfl)
  | refused => exact .of_state (by decide : TcpState.closed ≠ .synSent) rfl (.inl rfl)
  | accepted hstate => exact absurd hstate hrcvd
  | synAgain hstate => exact absurd hstate hrcvd
  | received hstate hnext =>
    exact recounted_received hrst (hpast hstate) hstate (pastHandshake_ne hnext)
  | @left state ackNow hstate hnext =>
    have hne : state ≠ .synSent := by
      rintro rfl
      rcases hnext with h | h <;> cases h
    have hr : Recounted seg pcb { pcb.tcpReceive seg with state := state, ackNow := ackNow } :=
      recounted_received hrst (hpast hstate) hstate hne
    exact .of_state hne rfl hr.nrtx

/-- The options do not touch what is counted. -/
theorem Recounted.of_parseopt {mss : Option ℕ} (h : Recounted seg (pcb.tcpParseopt mss) pcb') :
    Recounted seg pcb pcb' := by
  have hsame : (pcb.tcpParseopt mss).nrtx = pcb.nrtx ∧ (pcb.tcpParseopt mss).state = pcb.state ∧
      (pcb.tcpParseopt mss).unacked = pcb.unacked ∧ (pcb.tcpParseopt mss).rcvNxt = pcb.rcvNxt := by
    cases mss <;> exact ⟨rfl, rfl, rfl, rfl⟩
  obtain ⟨hnrtx, hstate, hun, hrcv⟩ := hsame
  refine ⟨?_, fun hs => ?_⟩
  · rcases h.nrtx with heq | heq | ⟨heq, hrst, hne, hagain | ⟨hpast, hsyn, hack, hdup⟩⟩
    · exact .inl (heq.trans hnrtx)
    · exact .inr (.inl heq)
    · refine .inr (.inr ⟨by rw [heq, hnrtx], hrst, hun ▸ hne, .inl ?_⟩)
      rw [SynAgain, hstate, hrcv] at hagain
      exact hagain
    · exact .inr (.inr ⟨by rw [heq, hnrtx], hrst, hun ▸ hne,
        .inr ⟨hstate ▸ hpast, hsyn, hack, thirdDupack_parseopt hdup⟩⟩)
  · have hsyn := h.synSent hs
    exact ⟨hstate ▸ hsyn.1, hsyn.2.trans hnrtx⟩

theorem recounted_tcpProcess (mtu : Option ℕ) (seg : Incoming) (pcb : Snd α) :
    Recounted seg pcb (pcb.tcpProcess mtu seg) := by
  rw [tcpProcess]
  split
  · split
    · exact .of_state (by decide : TcpState.closed ≠ .synSent) rfl (.inl rfl)
    · exact .refl seg pcb
  · next hrst =>
    split
    · exact ⟨.inl rfl, fun h => ⟨h, rfl⟩⟩
    · next hsyn =>
      have hstate : (pcb.tcpParseopt seg.mss).state = pcb.state := by cases seg.mss <;> rfl
      refine .of_parseopt (recounted_processState (by simpa using hrst) fun hs => ?_)
      rw [hstate]
      by_contra hno
      rw [not_or] at hno
      exact hsyn ⟨hs, hno⟩

/-! ### Runs -/

/-- The count is not over its limit. -/
structure Retrying (pcb : Snd α) : Prop where
  le : pcb.nrtx ≤ 12
  synSent : pcb.state = .synSent → pcb.nrtx ≤ 6

theorem Retrying.same (h : pcb.Retrying) (hnrtx : pcb'.nrtx = pcb.nrtx)
    (hstate : pcb'.state = .synSent → pcb.state = .synSent) : pcb'.Retrying where
  le := hnrtx.trans_le h.le
  synSent hs := hnrtx.trans_le (h.synSent (hstate hs))

theorem Retrying.recounted (h : pcb.Retrying) (hr : Recounted seg pcb pcb')
    (hok : pcb.InTime (.arrive seg)) : pcb'.Retrying := by
  have hle := h.le
  refine ⟨?_, fun hs => ?_⟩
  · rcases hr.nrtx with heq | heq | ⟨heq, hrexmit⟩
    · omega
    · omega
    · -- `tcp_rexmit` finds less than the limit
      have hne : pcb.nrtx ≠ 12 := fun hmax => hok hmax hrexmit
      have hcount : u8 ((pcb.nrtx : ℤ) + 1) = pcb.nrtx + 1 := by
        rw [← Int.natCast_succ]
        exact wrapU_natCast (by omega)
      omega
  · have hsyn := hr.synSent hs
    have := h.synSent hsyn.1
    omega

theorem sendFin_nrtx (env : CallEnv) (state : TcpState) (pcb : Snd α) :
    (pcb.sendFin env state).nrtx = pcb.nrtx := by
  rw [sendFin]
  dsimp only
  split
  · rw [tcpOutput_nrtx]
    exact tcpSendFin_nrtx env.memory pcb
  · exact tcpSendFin_nrtx env.memory pcb

theorem sendFin_synSent {env : CallEnv} {state : TcpState} (hne : state ≠ .synSent)
    (h : (pcb.sendFin env state).state = .synSent) : pcb.state = .synSent := by
  rcases sendFin_window env state pcb with hs | ⟨-, hs⟩
  · exact hs.state.symm.trans h
  · exact absurd (hs.state.symm.trans h) hne

theorem Retrying.tcpCloseShutdown (h : pcb.Retrying) (env : CallEnv) (rst : Bool) :
    (pcb.tcpCloseShutdown env rst).Retrying := by
  rw [Snd.tcpCloseShutdown]
  split
  · refine h.same rfl fun hs => ?_
    have hstate : (if pcb.state = .established then TcpState.timeWait else .closed) = .synSent := hs
    split at hstate <;> cases hstate
  · split
    · exact h.same rfl fun hs => by cases hs
    · exact h.same (sendFin_nrtx ..) (sendFin_synSent (by decide))
    · exact h.same (sendFin_nrtx ..) (sendFin_synSent (by decide))
    · exact h.same (sendFin_nrtx ..) (sendFin_synSent (by decide))
    · exact h

theorem persist_nrtx (pcb : Snd α) : pcb.persist.nrtx = pcb.nrtx := by
  rw [persist]
  split <;> rfl

theorem persist_state (pcb : Snd α) : pcb.persist.state = pcb.state := by
  rw [persist]
  split <;> rfl

theorem not_retried (h : pcb.retried = false) :
    pcb.nrtx ≠ 12 ∧ (pcb.state = .synSent → pcb.nrtx ≠ 6) := by
  rw [retried, Bool.or_eq_false_iff] at h
  refine ⟨fun hmax => ?_, fun hs hsyn => ?_⟩
  · rw [hmax] at h
    exact absurd h.2 (by decide)
  · rw [hs, hsyn] at h
    exact absurd h.1 (by decide)

/-- The slow timer counts below the limits. -/
theorem Retrying.slowtmr (h : pcb.Retrying) (env : CallEnv) (expired late : Bool) :
    (pcb.slowtmr env expired late).Retrying := by
  rw [Snd.slowtmr, Snd.tcpSlowtmr]
  split
  · exact h.same rfl fun hs => by cases hs
  · next hstay =>
    split
    · exact h.same (persist_nrtx pcb) fun hs => (persist_state pcb).symm.trans hs
    · dsimp only
      split
      · next hexpired =>
        have hno : pcb.retried = false := by
          rw [Bool.or_eq_true, not_or] at hstay
          simpa using hstay.1
        obtain ⟨hmax, hsyn⟩ := not_retried hno
        have hle := h.le
        have hcount : u8 ((pcb.nrtx : ℤ) + 1) = pcb.nrtx + 1 := by
          rw [← Int.natCast_succ]
          exact wrapU_natCast (by omega)
        have hnrtx : ∀ t : ℤ, (retransmit env { pcb with rtime := t }).nrtx = pcb.nrtx + 1 := by
          intro t
          rw [retransmit, tcpRexmitRto_nrtx]
          · exact hcount
          · exact hexpired.1
        have hstate : ∀ t : ℤ, (retransmit env { pcb with rtime := t }).state = pcb.state :=
          fun t => retransmit_window.state
        refine ⟨?_, fun hs => ?_⟩
        · rw [hnrtx]
          omega
        · rw [hstate] at hs
          have := h.synSent hs
          have := hsyn hs
          rw [hnrtx]
          omega
      · exact h.same rfl id

theorem Retrying.exec (h : pcb.Retrying) {e : Event α} (hok : pcb.InTime e) :
    (pcb.exec mtu (pcb.settled e)).Retrying := by
  cases e with
  | arrive seg =>
    show (if pcb.state.isActive then pcb.tcpProcess mtu seg else pcb).Retrying
    split
    · exact h.recounted (recounted_tcpProcess mtu seg pcb) hok
    · exact h
  | write args data => exact h.same (tcpWrite_nrtx ..) fun hs => tcpWrite_same.state.symm.trans hs
  | output acked => exact h.same (tcpOutput_nrtx ..) fun hs => tcpOutput_same.state.symm.trans hs
  | close env rst => exact h.tcpCloseShutdown env rst
  | slowtmr env expired late =>
    show (if pcb.state.isActive then pcb.slowtmr env expired late else pcb).Retrying
    split
    · exact h.slowtmr env expired late
    · exact h
  | ackNow => exact h.same rfl id

theorem retrying_start (h : (retrying α mtu).start pcb) : pcb.Retrying := by
  have hzero : pcb.nrtx = 0 := by
    obtain ⟨iss, acked, rfl⟩ | ⟨iss, seg, acked, rfl⟩ := h
    · rw [tcpConnect, tcpOutput_nrtx]
      exact tcpEnqueueFlags_nrtx ..
    · rw [tcpListenInput, tcpOutput_nrtx, tcpEnqueueFlags_nrtx, created]
      cases seg.mss <;> rfl
  exact ⟨by omega, fun _ => by omega⟩

theorem Retrying.retriesEnd (h : pcb.Retrying) : pcb.RetriesEnd := by
  have hle := h.le
  constructor
  · intro expired i hi
    rw [backoffIndex] at hi
    split at hi
    · cases hi
      exact hle
    · cases hi
  · intro hlimit env expired late
    have hretried : pcb.retried = true := by
      by_contra hno
      obtain ⟨hmax, hsyn⟩ := not_retried (by simpa using hno)
      rw [retryLimit] at hlimit
      split at hlimit
      · next hs =>
        have := h.synSent hs
        have := hsyn hs
        rw [tcpSynmaxrtx] at hlimit
        omega
      · rw [tcpMaxrtx] at hlimit
        omega
    rw [Snd.slowtmr, Snd.tcpSlowtmr, hretried, Bool.true_or, if_pos rfl]

/-- In every run in which no segment makes a pcb retransmit that has used up its retries already, the
table is read within its 13 entries, and such a pcb is removed. -/
theorem retries_end {pcb : Snd α} (h : (retrying α mtu).ReachableWhile InTime pcb) : pcb.RetriesEnd := by
  have hinv : pcb.Retrying := by
    refine h.invariant (I := Retrying) (fun _ => retrying_start) ?_
    rintro s e _ hs hok rfl
    exact hs.exec hok
  exact hinv.retriesEnd

/-- The SYN of a connection, and its copies -/
def synCopy : Incoming where
  seqno := 1000
  ackno := 0
  wnd := 4096
  syn := true
  ack := false
  wnd_lt := by decide

/-- A connection in `SYN_RCVD` -/
def answered : Snd Bool := .tcpListenInput none 6510 synCopy true

/-- A copy of the SYN arrives, and the SYN-ACK is sent again. -/
def copied (pcb : Snd Bool) : Snd Bool := (pcb.exec none (.arrive synCopy)).exec none (.output true)

/-- A tick at which the timer does not expire -/
def waited (pcb : Snd Bool) : Snd Bool := pcb.exec none (pcb.settled (.slowtmr {} false false))

theorem reachable_copied {pcb : Snd Bool} (h : (retrying Bool none).Reachable pcb) (n : ℕ) :
    (retrying Bool none).Reachable (copied^[n] pcb) := by
  induction n generalizing pcb with
  | zero => exact h
  | succ n ih =>
    have harrive := h.step (a := .arrive synCopy) rfl
    exact ih (harrive.step (a := .output true) rfl)

theorem reachable_waited {pcb : Snd Bool} (h : (retrying Bool none).Reachable pcb) (n : ℕ) :
    (retrying Bool none).Reachable (waited^[n] pcb) := by
  induction n generalizing pcb with
  | zero => exact h
  | succ n ih => exact ih (h.step (a := .slowtmr {} false false) rfl)

/-- Five ticks after a SYN was answered, 13 copies of it arrive before the next tick: the timer expires at
that tick, reads `tcp_backoff` behind its end, and does not remove the pcb. -/
theorem retries_skipped : ∃ pcb, (retrying Bool none).Reachable pcb ∧ pcb.rtime = 5 ∧
    pcb.backoffIndex true = some 13 ∧ ¬ pcb.RetriesEnd ∧
    pcb.retryLimit ≤ pcb.nrtx ∧ (pcb.slowtmr {} true false).state = .synRcvd := by
  have hstart : (retrying Bool none).Reachable answered := .of_start (.inr ⟨_, _, _, rfl⟩)
  refine ⟨copied^[13] (waited^[5] answered), reachable_copied (reachable_waited hstart 5) 13,
    by decide +kernel, by decide +kernel, fun h => ?_, by decide +kernel, by decide +kernel⟩
  have hle : 13 ≤ 12 := h.index_le true 13 (by decide +kernel)
  omega

/-- A copy of the SYN -/
theorem retries_end_copy : (copied answered).RetriesEnd := by
  have hstart : (retrying Bool none).Run InTime [] answered := .start (.inr ⟨_, _, _, rfl⟩)
  have hfirst : answered.InTime (.arrive synCopy) := fun hmax => absurd hmax (by decide)
  have harrive := hstart.snoc hfirst rfl
  have hout : (answered.exec none (.arrive synCopy)).InTime (.output true) := trivial
  exact retries_end ⟨_, harrive.snoc hout rfl⟩

end Snd

end QuietLwip.Sender
