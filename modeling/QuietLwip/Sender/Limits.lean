import QuietLwip.Sender.Moves

/-!
# The segment size and the congestion window

`tcp_eff_send_mss` limits `mss` when the connection opens; an MSS option on a later segment is taken
as it is. The congestion window is never empty.
-/

namespace QuietLwip.Sender

open Serial Word Tcp QuietLwip.Stream Transition

variable {α : Type*}

namespace Snd

variable {pcb pcb' pcb₁ : Snd α}

/-! ### The limits -/

/-- The congestion control: the windows and the threshold to which `cwnd` goes back are not empty. -/
structure Paced (pcb : Snd α) : Prop where
  mss_pos : 1 ≤ pcb.mss
  mss_le : pcb.mss ≤ tcpMss
  cwnd_pos : 1 ≤ pcb.cwnd
  cwnd_lt : pcb.cwnd < 65536
  ssthresh_lt : pcb.ssthresh < 65536
  infr : pcb.infr = true → 1 ≤ pcb.ssthresh

theorem Paced.congr (h : pcb.Paced) (hmss : pcb'.mss = pcb.mss) (hcwnd : pcb'.cwnd = pcb.cwnd)
    (hss : pcb'.ssthresh = pcb.ssthresh) (hinfr : pcb'.infr = pcb.infr) : pcb'.Paced := by
  obtain ⟨hpos, hle, hcpos, hclt, hslt, hi⟩ := h
  rw [← hmss] at hpos hle
  rw [← hcwnd] at hcpos hclt
  rw [← hss] at hslt hi
  rw [← hinfr] at hi
  exact ⟨hpos, hle, hcpos, hclt, hslt, hi⟩

theorem Paced.same (h : pcb.Paced) (hs : pcb'.SameLimits pcb) : pcb'.Paced :=
  h.congr hs.mss hs.cwnd hs.ssthresh hs.infr

theorem takenMss_bounds (mss : ℕ) : 1 ≤ takenMss mss ∧ takenMss mss ≤ tcpMss := by
  simp only [takenMss, tcpMss]
  exact iteInduction (motive := fun x => 1 ≤ x ∧ x ≤ 1024) (fun _ => by omega) fun h => by omega

theorem Paced.tcpParseopt (h : pcb.Paced) (mss : Option ℕ) : (pcb.tcpParseopt mss).Paced := by
  cases mss with
  | none => exact h
  | some mss =>
    obtain ⟨hpos, hle⟩ := takenMss_bounds mss
    exact ⟨hpos, hle, h.cwnd_pos, h.cwnd_lt, h.ssthresh_lt, h.infr⟩

/-- `ssthresh` after a loss. -/
theorem Paced.halved (h : pcb.Paced) : 1 ≤ pcb.halved pcb.wnd ∧ pcb.halved pcb.wnd ≤ 32767 := by
  obtain ⟨hpos, hle, -, hlt, -, -⟩ := h
  have hwnd : pcb.wnd ≤ pcb.cwnd := min_le_right _ _
  simp only [tcpMss] at hle
  simp only [Snd.halved]
  split
  · have hu : u16 (2 * pcb.mss) = 2 * pcb.mss := by
      have := u16_natCast (show 2 * pcb.mss < 65536 by omega)
      push_cast at this
      exact this
    omega
  · omega

theorem Paced.inflate (h : pcb.Paced) : pcb.inflate.Paced := by
  simp only [Snd.inflate]
  split
  · next hlt =>
    have hpos := h.cwnd_pos
    exact ⟨h.mss_pos, h.mss_le, by dsimp only; omega, by dsimp only; exact u16_lt _, h.ssthresh_lt, h.infr⟩
  · exact h

theorem Paced.growCwnd (h : pcb.Paced) : pcb.growCwnd.Paced := by
  simp only [Snd.growCwnd]
  split
  · exact h.inflate
  · split
    · next hlt =>
      have hpos := h.cwnd_pos
      exact ⟨h.mss_pos, h.mss_le, by dsimp only; omega, by dsimp only; exact u16_lt _, h.ssthresh_lt, h.infr⟩
    · exact h

theorem Paced.tcpRexmitFast (h : pcb.Paced) : pcb.tcpRexmitFast.Paced := by
  simp only [Snd.tcpRexmitFast]
  split
  · obtain ⟨hpos, hle⟩ := h.halved
    have hmss := h.mss_le
    simp only [tcpMss] at hmss
    have hcwnd : u16 (pcb.halved pcb.wnd + 3 * pcb.mss) = pcb.halved pcb.wnd + 3 * pcb.mss := by
      have := u16_natCast (show pcb.halved pcb.wnd + 3 * pcb.mss < 65536 by omega)
      push_cast at this
      exact this
    refine ⟨?_, ?_, ?_, by dsimp only; exact u16_lt _, by dsimp only; omega, fun _ => hpos⟩
    · exact tcpRexmit_same.mss.symm ▸ h.mss_pos
    · exact tcpRexmit_same.mss.symm ▸ h.mss_le
    · dsimp only
      rw [hcwnd]
      omega
  · exact h

theorem Paced.updateWindow {seg : Incoming} (h : pcb.Paced) : (pcb.updateWindow seg).Paced := by
  simp only [Snd.updateWindow]
  split
  · exact h.congr rfl rfl rfl rfl
  · exact h

theorem Paced.ackOld {edge : Seq} {seg : Incoming} (h : pcb.Paced) :
    (pcb.ackOld edge seg).Paced := by
  have hdup : ∀ n, ({ pcb with acked := 0, dupacks := n } : Snd α).Paced := fun n =>
    h.congr rfl rfl rfl rfl
  obtain ⟨n, hn | hn | hn⟩ := ackOld_cases edge seg pcb
  · exact hn ▸ hdup n
  · exact hn ▸ (hdup n).inflate
  · exact hn ▸ (hdup n).tcpRexmitFast

theorem Paced.leaveRecovery (h : pcb.Paced) : pcb.leaveRecovery.Paced := by
  simp only [Snd.leaveRecovery]
  split
  · next hinfr =>
    exact ⟨h.mss_pos, h.mss_le, h.infr hinfr, h.ssthresh_lt, h.ssthresh_lt, fun hin => by cases hin⟩
  · exact h

theorem Paced.ackNew {ackno : Seq} (h : pcb.Paced) : (pcb.ackNew ackno).Paced := by
  have hcount : (pcb.leaveRecovery.countAcked ackno).Paced := h.leaveRecovery.congr rfl rfl rfl rfl
  have hfree := hcount.growCwnd.same
    (freeUnacked_same ackno (pcb.leaveRecovery.countAcked ackno).growCwnd.unacked _)
  exact hfree.congr rfl rfl rfl rfl

theorem Paced.tcpReceive {seg : Incoming} (h : pcb.Paced) : (pcb.tcpReceive seg).Paced := by
  suffices hack : (pcb.receiveAck seg).Paced by
    simp only [Snd.tcpReceive]
    split
    · exact hack.congr rfl rfl rfl rfl
    · exact h.congr rfl rfl rfl rfl
  simp only [Snd.receiveAck]
  refine Paced.same ?_ (freeUnsent_same _ _ _)
  split
  · exact h.updateWindow.ackOld
  · split
    · exact h.updateWindow.ackNew
    · exact h.updateWindow.congr rfl rfl rfl rfl

theorem Paced.leave {state : TcpState} (h : pcb.Paced) : (pcb.leave state).Paced :=
  h.congr rfl rfl rfl rfl

theorem tcpEffSendMss_bounds {mtu : ℕ} (hmin : 41 ≤ mtu) (hmax : mtu < 65536) (sendmss : ℕ)
    (hpos : 1 ≤ sendmss) : 1 ≤ tcpEffSendMss (some mtu) sendmss ∧
      tcpEffSendMss (some mtu) sendmss ≤ min sendmss (mtu - 40) := by
  have hu : u16 ((mtu : ℤ) - 40) = mtu - 40 := by
    have hnat : ((mtu : ℤ) - 40) = ((mtu - 40 : ℕ) : ℤ) := by omega
    rw [hnat]
    exact u16_natCast (by omega)
  have hmtu : mtu ≠ 0 := by omega
  simp only [tcpEffSendMss, if_neg hmtu, hu]
  omega

/-- `cwnd` when a connection opens. -/
theorem Paced.opened {mss : ℕ} (hpos : 1 ≤ mss) (hle : mss ≤ tcpMss) (first : Prop) [Decidable first] :
    1 ≤ (if first then u16 (mss * 2) else mss) ∧ (if first then u16 (mss * 2) else mss) < 65536 := by
  simp only [tcpMss] at hle
  have hu : u16 ((mss : ℤ) * 2) = mss * 2 := by
    have := u16_natCast (show mss * 2 < 65536 by omega)
    push_cast at this
    exact this
  rw [hu]
  exact iteInduction (motive := fun x => 1 ≤ x ∧ x < 65536) (fun _ => by omega) fun _ => by omega

theorem Paced.synAcked {mtu : ℕ} (hmin : 41 ≤ mtu) (hmax : mtu < 65536) {seg : Incoming}
    {unacked : List (OutSeg α)} (h : pcb.Paced) : (pcb.synAcked (some mtu) seg unacked).Paced := by
  obtain ⟨hpos, hle⟩ := tcpEffSendMss_bounds hmin hmax pcb.mss h.mss_pos
  have hmss : tcpEffSendMss (some mtu) pcb.mss ≤ tcpMss := by
    have := h.mss_le
    omega
  obtain ⟨hcpos, hclt⟩ := Paced.opened hpos hmss (pcb.cwnd = 1)
  refine ⟨hpos, hmss, hcpos, hclt, by dsimp only [Snd.synAcked]; exact u16_lt _, fun _ => ?_⟩
  change 1 ≤ u16 ((tcpEffSendMss (some mtu) pcb.mss : ℤ) * 10)
  have hu : u16 ((tcpEffSendMss (some mtu) pcb.mss : ℤ) * 10) =
      tcpEffSendMss (some mtu) pcb.mss * 10 := by
    simp only [tcpMss] at hmss
    have := u16_natCast (show tcpEffSendMss (some mtu) pcb.mss * 10 < 65536 by omega)
    push_cast at this
    exact this
  omega

theorem Paced.accept {seg : Incoming} (h : pcb.Paced) : (pcb.accept seg).Paced := by
  have hstate : ({ pcb with state := .established } : Snd α).Paced := h.congr rfl rfl rfl rfl
  have hrecv : (Snd.tcpReceive seg { pcb with state := .established }).Paced := hstate.tcpReceive
  obtain ⟨hcpos, hclt⟩ := Paced.opened hrecv.mss_pos hrecv.mss_le (pcb.cwnd = 1)
  simp only [Snd.accept]
  split
  all_goals
    exact ⟨hrecv.mss_pos, hrecv.mss_le, hcpos, hclt, hrecv.ssthresh_lt, hrecv.infr⟩

theorem Paced.processed {mtu : ℕ} (hmin : 41 ≤ mtu) (hmax : mtu < 65536) {seg : Incoming}
    (h : pcb.Paced) (hp : Processed (some mtu) seg pcb pcb') : pcb'.Paced := by
  cases hp with
  | ignored => exact h
  | synAcked => exact h.synAcked hmin hmax
  | refused => exact h.leave
  | accepted => exact h.accept
  | synAgain => exact h.same tcpRexmit_same
  | received => exact h.tcpReceive.congr rfl rfl rfl rfl
  | left => exact h.tcpReceive.congr rfl rfl rfl rfl

theorem Paced.tcpProcess {mtu : ℕ} (hmin : 41 ≤ mtu) (hmax : mtu < 65536) {seg : Incoming}
    (h : pcb.Paced) : (pcb.tcpProcess (some mtu) seg).Paced := by
  obtain hp | hp | hp | ⟨-, -, hp⟩ := tcpProcess_cases (some mtu) seg pcb
  · rw [hp]
    exact h
  · rw [hp]
    exact h.leave
  · rw [hp]
    exact h.congr rfl rfl rfl rfl
  · exact (h.tcpParseopt seg.mss).processed hmin hmax hp

theorem Paced.sendFin {env : CallEnv} {state : TcpState} (h : pcb.Paced) :
    (pcb.sendFin env state).Paced := by
  have hfin : (pcb.tcpSendFin env.memory).1.Paced := h.same tcpSendFin_same
  simp only [Snd.sendFin]
  split
  · have hmoved : ({ (pcb.tcpSendFin env.memory).1 with state := state } : Snd α).Paced :=
      hfin.congr rfl rfl rfl rfl
    exact hmoved.same tcpOutput_same
  · exact hfin

theorem Paced.tcpCloseShutdown {env : CallEnv} {rst : Bool} (h : pcb.Paced) :
    (pcb.tcpCloseShutdown env rst).Paced := by
  simp only [Snd.tcpCloseShutdown]
  split
  · exact h.leave
  · split
    · exact h.leave
    · exact h.sendFin
    · exact h.sendFin
    · exact h.sendFin
    · exact h

theorem Paced.persist (h : pcb.Paced) : pcb.persist.Paced := by
  simp only [Snd.persist]
  split <;> exact h.congr rfl rfl rfl rfl

theorem Paced.retransmit {env : CallEnv} (h : pcb.Paced) : (pcb.retransmit env).Paced := by
  have hloss : ({ pcb with
      rtime := 0, ssthresh := pcb.halved pcb.wnd, cwnd := pcb.mss } : Snd α).Paced := by
    obtain ⟨hpos, hle⟩ := h.halved
    have hmss := h.mss_le
    simp only [tcpMss] at hmss
    exact ⟨h.mss_pos, h.mss_le, h.mss_pos, by dsimp only; omega, by dsimp only; omega, fun _ => hpos⟩
  exact hloss.same tcpRexmitRto_same

theorem Paced.tcpSlowtmr {env : CallEnv} {expired remove : Bool} (h : pcb.Paced) :
    (pcb.tcpSlowtmr env expired remove).Paced := by
  have hcount : ∀ t, ({ pcb with rtime := t } : Snd α).Paced := fun t => h.congr rfl rfl rfl rfl
  obtain hp | ⟨-, hp⟩ | ⟨t, hp | hp⟩ := tcpSlowtmr_cases env expired remove pcb
  · exact hp ▸ h.leave
  · exact hp ▸ h.persist
  · exact hp ▸ hcount t
  · exact hp ▸ (hcount t).retransmit

theorem Paced.exec {mtu : ℕ} (hmin : 41 ≤ mtu) (hmax : mtu < 65536) (h : pcb.Paced) (e : Event α) :
    (pcb.exec (some mtu) e).Paced := by
  cases e with
  | arrive seg =>
    simp only [Snd.exec]
    split
    · exact h.tcpProcess hmin hmax
    · exact h
  | write args data => exact h.same tcpWrite_same
  | output acked => exact h.same tcpOutput_same
  | close env rst => exact h.tcpCloseShutdown
  | slowtmr env expired remove =>
    simp only [Snd.exec]
    split
    · exact h.tcpSlowtmr
    · exact h
  | ackNow => exact h.congr rfl rfl rfl rfl

/-! ### The limit of the interface -/

/-- The options of the segment are parsed. -/
def ParsesOptions (seg : Incoming) (pcb : Snd α) : Prop :=
  pcb.state.isActive ∧ seg.rst = false ∧
    (seg.syn = true → pcb.state = .synSent ∨ pcb.state = .synRcvd)

/-- Once `tcp_eff_send_mss` has been applied, no option takes `mss` over the limit again. -/
def WithinMtu (mtu : ℕ) (pcb : Snd α) : Event α → Prop
  | .arrive seg => pcb.state ≠ .synSent → pcb.ParsesOptions seg →
      ∀ mss, seg.mss = some mss → takenMss mss ≤ mtu - 40
  | _ => True

/-- The limit is not in force in `SYN_SENT`, nor after the end of the connection. -/
def Fits (mtu : ℕ) (pcb : Snd α) : Prop :=
  pcb.state ≠ .synSent → pcb.state ≠ .closed → pcb.mss ≤ mtu - 40

variable {mtu : ℕ}

theorem Fits.congr (h : pcb.Fits mtu) (hstate : pcb'.state = pcb.state) (hmss : pcb'.mss = pcb.mss) :
    pcb'.Fits mtu := by
  intro hsent hclosed
  rw [hstate] at hsent hclosed
  exact hmss ▸ h hsent hclosed

theorem Fits.same (h : pcb.Fits mtu) (hs : pcb'.SameWindow pcb) : pcb'.Fits mtu :=
  h.congr hs.state hs.mss

theorem Fits.leave : (pcb.leave .closed).Fits mtu := fun _ h => absurd rfl h

theorem fits_of_le (h : pcb.mss ≤ mtu - 40) : pcb.Fits mtu := fun _ _ => h

theorem Fits.le (h : pcb.Fits mtu) (hstate : pastHandshake pcb.state ∨ pcb.state = .synRcvd) :
    pcb.mss ≤ mtu - 40 := by
  apply h <;> rintro hs <;> rw [hs] at hstate <;> simp [pastHandshake] at hstate

theorem Fits.processed (hmin : 41 ≤ mtu) (hmax : mtu < 65536) {seg : Incoming} (hpaced : pcb.Paced)
    (h : pcb.Fits mtu) (hp : Processed (some mtu) seg pcb pcb') : pcb'.Fits mtu := by
  cases hp with
  | ignored => exact h
  | synAcked =>
    have hle := (tcpEffSendMss_bounds hmin hmax pcb.mss hpaced.mss_pos).2
    exact fits_of_le (hle.trans (min_le_right _ _))
  | refused => exact .leave
  | accepted hstate =>
    have hle := h.le (.inr hstate)
    apply fits_of_le
    simp only [Snd.accept]
    split <;> simpa using hle
  | synAgain => exact h.same tcpRexmit_same.toSameWindow
  | received hstate =>
    apply fits_of_le
    simpa using h.le (.inl hstate)
  | left hstate =>
    apply fits_of_le
    simpa [Snd.leave] using h.le (.inl hstate)

theorem Fits.tcpProcess (hmin : 41 ≤ mtu) (hmax : mtu < 65536) {seg : Incoming} (hpaced : pcb.Paced)
    (hactive : pcb.state.isActive) (h : pcb.Fits mtu) (hok : pcb.WithinMtu mtu (.arrive seg)) :
    (pcb.tcpProcess (some mtu) seg).Fits mtu := by
  obtain hp | hp | hp | ⟨hrst, hsyn, hp⟩ := tcpProcess_cases (some mtu) seg pcb
  · rw [hp]
    exact h
  · rw [hp]
    exact .leave
  · rw [hp]
    exact h.same ⟨rfl, rfl, rfl, rfl, rfl⟩
  · refine Fits.processed hmin hmax (hpaced.tcpParseopt seg.mss) ?_ hp
    cases hmss : seg.mss with
    | none => exact h
    | some mss => exact fun hsent _ => hok hsent ⟨hactive, hrst, hsyn⟩ mss hmss

theorem Fits.sendFin {env : CallEnv} {state : TcpState} (h : pcb.mss ≤ mtu - 40) :
    (pcb.sendFin env state).Fits mtu := by
  apply fits_of_le
  obtain hfin | ⟨-, hfin⟩ := sendFin_window env state pcb
  · exact hfin.mss.trans_le h
  · exact hfin.mss.trans_le h

theorem Fits.tcpCloseShutdown {env : CallEnv} {rst : Bool} (h : pcb.Fits mtu) :
    (pcb.tcpCloseShutdown env rst).Fits mtu := by
  simp only [Snd.tcpCloseShutdown]
  split
  · next hrst =>
    have hpast : pastHandshake pcb.state := by
      obtain ⟨-, hs | hs, -⟩ := hrst <;> rw [hs] <;> rfl
    exact fits_of_le (h.le (.inl hpast))
  · split
    · exact .leave
    · next hs => exact .sendFin (h.le (.inr hs))
    · next hs => exact .sendFin (h.le (.inl (hs ▸ rfl)))
    · next hs => exact .sendFin (h.le (.inl (hs ▸ rfl)))
    · exact h

theorem Fits.tcpSlowtmr {env : CallEnv} {expired remove : Bool} (h : pcb.Fits mtu) :
    (pcb.tcpSlowtmr env expired remove).Fits mtu := by
  obtain hp | ⟨-, hp⟩ | ⟨t, hp | hp⟩ := tcpSlowtmr_cases env expired remove pcb
  · exact hp ▸ .leave
  · refine hp ▸ h.congr ?_ ?_ <;> simp only [persist] <;> split <;> rfl
  · exact hp ▸ h.same ⟨rfl, rfl, rfl, rfl, rfl⟩
  · exact hp ▸ h.same (retransmit_window.trans ⟨rfl, rfl, rfl, rfl, rfl⟩)

theorem Fits.exec (hmin : 41 ≤ mtu) (hmax : mtu < 65536) (hpaced : pcb.Paced) (h : pcb.Fits mtu)
    {e : Event α} (hok : pcb.WithinMtu mtu e) : (pcb.exec (some mtu) e).Fits mtu := by
  cases e with
  | arrive seg =>
    simp only [Snd.exec]
    split
    · next hactive => exact h.tcpProcess hmin hmax hpaced hactive hok
    · exact h
  | write args data => exact h.same tcpWrite_same.toSameWindow
  | output acked => exact h.same tcpOutput_same.toSameWindow
  | close env rst => exact h.tcpCloseShutdown
  | slowtmr env expired remove =>
    simp only [Snd.exec]
    split
    · exact h.tcpSlowtmr
    · exact h
  | ackNow => exact h.same ⟨rfl, rfl, rfl, rfl, rfl⟩

/-! ### Opening -/

theorem Paced.connecting (hmin : 41 ≤ mtu) (hmax : mtu < 65536) (iss : Seq) :
    (Snd.connecting (α := α) (some mtu) iss).Paced := by
  obtain ⟨hpos, hle⟩ := tcpEffSendMss_bounds hmin hmax 536 (by decide)
  have hmss : tcpEffSendMss (some mtu) 536 ≤ tcpMss := by
    simp only [tcpMss]
    omega
  exact ⟨hpos, hmss, le_rfl, show 1 < 65536 by decide, by dsimp only [Snd.connecting]; exact u16_lt _, nofun⟩

/-- The size of a new passive connection before `tcp_eff_send_mss`. -/
theorem Paced.parsed (iss : Seq) (seg : Incoming) :
    (Snd.created (α := α) none iss seg).Paced := by
  refine (Paced.tcpParseopt ?_ seg.mss).congr rfl rfl rfl rfl
  exact ⟨show 1 ≤ 536 by decide, show 536 ≤ tcpMss by decide, le_rfl, show 1 < 65536 by decide,
    seg.wnd_lt, nofun⟩

theorem created_bounds (hmin : 41 ≤ mtu) (hmax : mtu < 65536) (iss : Seq) (seg : Incoming) :
    (Snd.created (α := α) (some mtu) iss seg).Paced ∧
      (Snd.created (α := α) (some mtu) iss seg).mss ≤ mtu - 40 := by
  obtain ⟨hpos, hmss, hcpos, hclt, hslt, hinfr⟩ := Paced.parsed (α := α) iss seg
  obtain ⟨hepos, hle⟩ := tcpEffSendMss_bounds hmin hmax _ hpos
  rw [le_min_iff] at hle
  exact ⟨⟨hepos, hle.1.trans hmss, hcpos, hclt, hslt, hinfr⟩, hle.2⟩

/-- In every run in which no option of a later segment exceeds the limit, a full-sized segment fits
the MTU, and `cwnd` is not zero. -/
theorem mss_fits (hmin : 41 ≤ mtu) (hmax : mtu ≤ 65535) {pcb : Snd α}
    (h : (sending α (some mtu)).ReachableWhile (WithinMtu mtu) pcb)
    (hstate : pastHandshake pcb.state) :
    1 ≤ pcb.mss ∧ pcb.mss ≤ min tcpMss (mtu - 40) ∧ 1 ≤ pcb.cwnd := by
  have hinv : pcb.Paced ∧ pcb.Fits mtu := by
    refine h.invariant (I := fun pcb => pcb.Paced ∧ pcb.Fits mtu) ?_ ?_
    · rintro _ (⟨iss, acked, rfl⟩ | ⟨iss, seg, acked, rfl⟩)
      · have hsame := tcpConnect_same (α := α) (some mtu) iss acked
        exact ⟨(Paced.connecting hmin (by omega) iss).congr hsame.mss hsame.cwnd hsame.ssthresh
          hsame.infr, fun hsent => absurd hsame.state hsent⟩
      · have hsame := tcpListenInput_same (α := α) (some mtu) iss seg acked
        obtain ⟨hpaced, hle⟩ := created_bounds (α := α) hmin (by omega) iss seg
        exact ⟨hpaced.same hsame, (fits_of_le hle).same hsame.toSameWindow⟩
    · rintro s e _ ⟨hpaced, hfits⟩ hok rfl
      exact ⟨hpaced.exec hmin (by omega) e, hfits.exec hmin (by omega) hpaced hok⟩
  obtain ⟨hpaced, hfits⟩ := hinv
  exact ⟨hpaced.mss_pos, le_min hpaced.mss_le (hfits.le (.inl hstate)), hpaced.cwnd_pos⟩

/-- Over an interface with a large MTU no option exceeds the limit. -/
theorem withinMtu_of_le (hle : tcpMss + 40 ≤ mtu) (pcb : Snd α) (e : Event α) :
    pcb.WithinMtu mtu e := by
  cases e with
  | arrive seg =>
    intro _ _ mss _
    have := (takenMss_bounds mss).2
    omega
  | _ => trivial

/-- A SYN, its retransmission and the acknowledgement that opens the connection, from a peer with an
MSS of 1460. -/
def synOf1460 : Incoming where
  seqno := 1000
  ackno := 0
  wnd := 8192
  syn := true
  ack := false
  mss := some 1460
  wnd_lt := by decide

def ackOfSyn : Incoming where
  seqno := 1001
  ackno := 6511
  wnd := 8192
  wnd_lt := by decide

/-- The retransmitted SYN takes `mss` over the limit of an interface with an MTU of 576. -/
theorem mss_exceeds : ∃ pcb, (sending Bool (some 576)).Reachable pcb ∧
    pcb.state = .established ∧ ¬pcb.mss ≤ min tcpMss (576 - 40) := by
  have hopen : (sending Bool (some 576)).Reachable (.tcpListenInput (some 576) 6510 synOf1460 true) :=
    .of_start (.inr ⟨_, _, _, rfl⟩)
  have hagain := hopen.step (a := .arrive synOf1460) rfl
  exact ⟨_, hagain.step (a := .arrive ackOfSyn) rfl, by decide, by decide⟩

/-- The same run over an interface with an MTU of 1500. -/
theorem mss_fits_ethernet : ∃ pcb : Snd Bool, pcb.state = .established ∧
    1 ≤ pcb.mss ∧ pcb.mss ≤ min tcpMss (1500 - 40) ∧ 1 ≤ pcb.cwnd := by
  have hopen : (sending Bool (some 1500)).Run (WithinMtu 1500) []
      (.tcpListenInput (some 1500) 6510 synOf1460 true) := .start (.inr ⟨_, _, _, rfl⟩)
  have hagain := hopen.snoc (withinMtu_of_le (by decide) _ (.arrive synOf1460)) rfl
  have hack := hagain.snoc (withinMtu_of_le (by decide) _ (.arrive ackOfSyn)) rfl
  exact ⟨_, by decide, mss_fits (by decide) (by decide) ⟨_, hack⟩ (by decide)⟩

end Snd

end QuietLwip.Sender
