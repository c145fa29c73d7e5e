import QuietLwip.Sender.Moves

/-!
# The persist timer

A window update starts the persist timer when the window is closed and stops it when it is open. A
connection that opens with a closed window has no persist timer until the next update.
-/

namespace QuietLwip.Sender

open Serial Word Tcp QuietLwip.Stream Transition

variable {α : Type*}

namespace Snd

variable {pcb pcb' : Snd α} {mtu : Option ℕ} {seg : Incoming}

/-- The persist timer runs exactly when the window is closed. -/
structure Probing (pcb : Snd α) : Prop where
  backoff_le : pcb.persistBackoff ≤ tcpPersistBackoff.length
  running : 0 < pcb.persistBackoff ↔ pcb.sndWnd = 0

theorem Probing.congr (h : pcb.Probing) (hwnd : pcb'.sndWnd = pcb.sndWnd)
    (hbackoff : pcb'.persistBackoff = pcb.persistBackoff) : pcb'.Probing := by
  obtain ⟨hle, hiff⟩ := h
  rw [← hbackoff, ← hwnd] at hiff
  exact ⟨hbackoff.trans_le hle, hiff⟩

theorem Probing.same (h : pcb.Probing) (hs : pcb'.SameWindow pcb) : pcb'.Probing :=
  h.congr hs.sndWnd hs.persistBackoff

/-- A window update puts the timer right, whatever it was before. -/
theorem probing_updateWindow (hle : pcb.persistBackoff ≤ tcpPersistBackoff.length)
    (h : pcb.UpdatesWindow seg ∨ pcb.Probing) : (pcb.updateWindow seg).Probing := by
  simp only [updateWindow]
  split
  · constructor
    · change (if seg.wnd = 0 then if pcb.persistBackoff = 0 then 1 else pcb.persistBackoff else 0) ≤ _
      refine iteInduction (motive := fun n => n ≤ tcpPersistBackoff.length) (fun _ => ?_) fun _ => ?_
      · exact iteInduction (motive := fun n => n ≤ tcpPersistBackoff.length) (fun _ => by decide)
          fun _ => hle
      · exact Nat.zero_le _
    · by_cases hwnd : seg.wnd = 0 <;> by_cases hoff : pcb.persistBackoff = 0 <;> simp [hwnd, hoff]
      omega
  · next hno => exact h.resolve_left hno

theorem probing_tcpReceive (hle : pcb.persistBackoff ≤ tcpPersistBackoff.length)
    (h : seg.ack = true ∧ pcb.UpdatesWindow seg ∨ pcb.Probing) : (pcb.tcpReceive seg).Probing := by
  have hwindow : (pcb.tcpReceive seg).SameWindow (if seg.ack then pcb.updateWindow seg else pcb) :=
    tcpReceive_window
  split at hwindow
  · exact (probing_updateWindow hle (h.imp_left And.right)).same hwindow
  · next hack => exact (h.resolve_left fun hu => hack hu.1).same hwindow

theorem Probing.persist (h : pcb.Probing) (hpos : 0 < pcb.persistBackoff) : pcb.persist.Probing := by
  simp only [Snd.persist]
  split
  · obtain ⟨hle, hiff⟩ := h
    constructor
    · change (if pcb.persistBackoff < tcpPersistBackoff.length then pcb.persistBackoff + 1
        else pcb.persistBackoff) ≤ _
      split <;> omega
    · rw [← hiff]
      change 0 < (if pcb.persistBackoff < tcpPersistBackoff.length then pcb.persistBackoff + 1
        else pcb.persistBackoff) ↔ _
      split <;> simp [hpos]
  · exact h.congr rfl rfl

/-! ### The handshake -/

/-- The connection does not open with a closed window: neither by the SYN-ACK, nor by the
acknowledgement of the SYN-ACK, nor by a close in `SYN_RCVD`. -/
def OpensWindow (pcb : Snd α) : Event α → Prop
  | .arrive seg =>
    (pcb.state = .synSent → seg.rst = false → seg.ack = true → seg.syn = true →
      (∃ rseg unacked, pcb.unacked = rseg :: unacked ∧ seg.ackno = rseg.seqno + 1) → seg.wnd ≠ 0) ∧
    (pcb.state = .synRcvd → seg.rst = false → seg.ack = true → seg.accepted = true →
      tcpSeqBetween seg.ackno (pcb.lastack + 1) pcb.sndNxt = true →
      pcb.sndWnd ≠ 0 ∨ pcb.UpdatesWindow seg)
  | .close env _ => pcb.state = .synRcvd → (pcb.tcpSendFin env.memory).2 = true → pcb.sndWnd ≠ 0
  | _ => True

/-- Before a connection opens the persist timer does not run; afterwards it is right. -/
structure Persisting (pcb : Snd α) : Prop where
  opening : pcb.state = .synSent ∨ pcb.state = .synRcvd → pcb.persistBackoff = 0
  opened : pastHandshake pcb.state → pcb.Probing

theorem Persisting.same (h : pcb.Persisting) (hs : pcb'.SameWindow pcb) : pcb'.Persisting where
  opening hstate := hs.persistBackoff.trans (h.opening (hs.state ▸ hstate))
  opened hstate := (h.opened (hs.state ▸ hstate)).same hs

theorem persisting_closed (hstate : pcb.state = .closed) : pcb.Persisting where
  opening h := by rw [hstate] at h; exact absurd h (by decide)
  opened h := by rw [hstate] at h; exact absurd h (by decide)

theorem persisting_of_probing (h : pcb.Probing) (hstate : pastHandshake pcb.state) :
    pcb.Persisting where
  opening hs := by
    obtain hs | hs := hs <;> rw [hs] at hstate <;> exact absurd hstate (by decide)
  opened _ := h

theorem Persisting.tcpParseopt (h : pcb.Persisting) (mss : Option ℕ) :
    (pcb.tcpParseopt mss).Persisting := by
  cases mss with
  | none => exact h
  | some mss => exact ⟨h.opening, fun hstate => (h.opened hstate).congr rfl rfl⟩

theorem probing_accept (hle : pcb.persistBackoff = 0)
    (h : pcb.sndWnd ≠ 0 ∨ seg.ack = true ∧ pcb.UpdatesWindow seg) : (pcb.accept seg).Probing := by
  have hrecv : (Snd.tcpReceive seg { pcb with state := .established }).Probing := by
    apply probing_tcpReceive
    · change pcb.persistBackoff ≤ _
      omega
    · refine h.symm.imp id fun hwnd => ⟨?_, ?_⟩
      · change pcb.persistBackoff ≤ _
        omega
      · change 0 < pcb.persistBackoff ↔ pcb.sndWnd = 0
        simp [hle, hwnd]
  simp only [accept]
  split <;> exact hrecv.congr rfl rfl

theorem Persisting.processed (h : pcb.Persisting) (hp : Processed mtu seg pcb pcb')
    (hrst : seg.rst = false) (hok : pcb.OpensWindow (.arrive seg)) : pcb'.Persisting := by
  cases hp with
  | ignored => exact h
  | @synAcked rseg unacked hstate hfirst hack hsyn hackno =>
    have hwnd := hok.1 hstate hrst hack hsyn ⟨rseg, unacked, hfirst, hackno⟩
    have hoff := h.opening (.inl hstate)
    refine persisting_of_probing ⟨?_, ?_⟩ rfl
    · change pcb.persistBackoff ≤ _
      omega
    · change 0 < pcb.persistBackoff ↔ seg.wnd = 0
      simp [hoff, hwnd]
  | refused => exact persisting_closed rfl
  | accepted hstate hack hbetween haccepted =>
    have hwnd := hok.2 hstate hrst hack haccepted hbetween
    refine persisting_of_probing (probing_accept (h.opening (.inr hstate)) ?_) ?_
    · exact hwnd.imp_right fun hu => ⟨hack, hu⟩
    · simp only [accept]
      split
      · rfl
      · simp [pastHandshake]
  | synAgain => exact h.same tcpRexmit_same.toSameWindow
  | received hstate hnext =>
    have hprobing := h.opened hstate
    exact persisting_of_probing
      ((probing_tcpReceive hprobing.backoff_le (.inr hprobing)).congr rfl rfl) hnext
  | left hstate hnext =>
    have hprobing := h.opened hstate
    obtain rfl | rfl := hnext
    · exact persisting_of_probing
        ((probing_tcpReceive hprobing.backoff_le (.inr hprobing)).congr rfl rfl) rfl
    · exact persisting_closed rfl

theorem Persisting.tcpProcess (h : pcb.Persisting) (hok : pcb.OpensWindow (.arrive seg)) :
    (pcb.tcpProcess mtu seg).Persisting := by
  obtain hp | hp | hp | ⟨hrst, -, hp⟩ := tcpProcess_cases mtu seg pcb
  · rw [hp]
    exact h
  · rw [hp]
    exact persisting_closed rfl
  · rw [hp]
    exact h.same ⟨rfl, rfl, rfl, rfl, rfl⟩
  · refine (h.tcpParseopt seg.mss).processed hp hrst ?_
    -- the options do not touch what the condition looks at
    cases hmss : seg.mss <;> exact hok

theorem Persisting.sendFin {env : CallEnv} {state : TcpState} (h : pcb.Persisting)
    (hopen : (pcb.tcpSendFin env.memory).2 = true → pcb.Probing) (hnext : pastHandshake state) :
    (pcb.sendFin env state).Persisting := by
  obtain hs | ⟨hsent, hs⟩ := sendFin_window env state pcb
  · exact h.same hs
  · have hprobing : ({ pcb with state := state } : Snd α).Probing := (hopen hsent).congr rfl rfl
    exact (persisting_of_probing hprobing hnext).same hs

theorem Persisting.tcpCloseShutdown {env : CallEnv} {rst : Bool} (h : pcb.Persisting)
    (hok : pcb.OpensWindow (.close env rst)) : (pcb.tcpCloseShutdown env rst).Persisting := by
  simp only [Snd.tcpCloseShutdown]
  split
  · next hrst =>
    obtain ⟨-, hs | hs, -⟩ := hrst <;> simp only [hs, if_true, reduceCtorEq, if_false]
    · exact persisting_of_probing ((h.opened (hs ▸ rfl)).congr rfl rfl) rfl
    · exact persisting_closed rfl
  · split
    · exact persisting_closed rfl
    · next hs =>
      refine h.sendFin (fun hsent => ?_) rfl
      have hoff := h.opening (.inr hs)
      have hwnd := hok hs hsent
      exact ⟨by omega, by simp [hoff, hwnd]⟩
    · next hs => exact h.sendFin (fun _ => h.opened (hs ▸ rfl)) rfl
    · next hs => exact h.sendFin (fun _ => h.opened (hs ▸ rfl)) rfl
    · exact h

theorem Persisting.persist (h : pcb.Persisting) (hpos : 0 < pcb.persistBackoff) :
    pcb.persist.Persisting := by
  have hstate : pcb.persist.state = pcb.state := by
    simp only [Snd.persist]
    split <;> rfl
  constructor
  · intro hopening
    have hoff := h.opening (hstate ▸ hopening)
    omega
  · exact fun hopened => (h.opened (hstate ▸ hopened)).persist hpos

theorem Persisting.tcpSlowtmr {env : CallEnv} {expired remove : Bool} (h : pcb.Persisting) :
    (pcb.tcpSlowtmr env expired remove).Persisting := by
  obtain hp | ⟨hpos, hp⟩ | ⟨t, hp | hp⟩ := tcpSlowtmr_cases env expired remove pcb
  · exact hp ▸ persisting_closed rfl
  · exact hp ▸ h.persist hpos
  · exact hp ▸ h.same ⟨rfl, rfl, rfl, rfl, rfl⟩
  · exact hp ▸ h.same (retransmit_window.trans ⟨rfl, rfl, rfl, rfl, rfl⟩)

/-! ### Runs -/

theorem Persisting.exec (h : pcb.Persisting) {e : Event α} (hok : pcb.OpensWindow e) :
    (pcb.exec mtu e).Persisting := by
  cases e with
  | arrive seg =>
    simp only [Snd.exec]
    split
    · exact h.tcpProcess hok
    · exact h
  | write args data => exact h.same tcpWrite_same.toSameWindow
  | output acked => exact h.same tcpOutput_same.toSameWindow
  | close env rst => exact h.tcpCloseShutdown hok
  | slowtmr env expired remove =>
    simp only [Snd.exec]
    split
    · exact h.tcpSlowtmr
    · exact h
  | ackNow => exact h.same ⟨rfl, rfl, rfl, rfl, rfl⟩

theorem persisting_start (h : (sending α mtu).start pcb) : pcb.Persisting := by
  obtain ⟨iss, acked, rfl⟩ | ⟨iss, seg, acked, rfl⟩ := h
  · refine Persisting.same ?_ (tcpConnect_same mtu iss acked).toSameWindow
    exact ⟨fun _ => rfl, fun hstate => absurd hstate (by simp [pastHandshake])⟩
  · refine Persisting.same ?_ (tcpListenInput_same mtu iss seg acked).toSameWindow
    have hcreated : (created (α := α) mtu iss seg).persistBackoff = 0 ∧
        (created (α := α) mtu iss seg).state = .synRcvd := by
      simp only [created]
      cases seg.mss <;> exact ⟨rfl, rfl⟩
    exact ⟨fun _ => hcreated.1, fun hstate => absurd (hcreated.2 ▸ hstate) (by simp [pastHandshake])⟩

/-- In every run in which the connection does not open with a closed window, the persist timer runs
exactly when the window is closed, and its back-off is one of the table. -/
theorem persist_running {pcb : Snd α} (h : (sending α mtu).ReachableWhile OpensWindow pcb)
    (hstate : pastHandshake pcb.state) :
    (0 < pcb.persistBackoff ↔ pcb.sndWnd = 0) ∧
      (0 < pcb.persistBackoff → pcb.persistBackoff - 1 < tcpPersistBackoff.length) := by
  have hinv : pcb.Persisting := by
    refine h.invariant (I := Persisting) (fun _ => persisting_start) ?_
    rintro s e _ hs hok rfl
    exact hs.exec hok
  obtain ⟨hle, hiff⟩ := hinv.opened hstate
  exact ⟨hiff, fun _ => by omega⟩

/-- A SYN-ACK with the given window, and an acknowledgement that closes the window. -/
def synAckOf (wnd : ℕ) (hwnd : wnd < 65536) : Incoming where
  seqno := 1000
  ackno := 6510
  wnd := wnd
  syn := true
  wnd_lt := hwnd

def closeWindow : Incoming where
  seqno := 1001
  ackno := 6510
  wnd := 0
  wnd_lt := by decide

/-- A SYN-ACK with a closed window opens a connection without a persist timer. -/
theorem persist_missing : ∃ pcb, (sending Bool none).Reachable pcb ∧
    pcb.state = .established ∧ ¬(0 < pcb.persistBackoff ↔ pcb.sndWnd = 0) := by
  have hopen : (sending Bool none).Reachable (.tcpConnect none 6510 true) :=
    .of_start (.inl ⟨_, _, rfl⟩)
  exact ⟨_, hopen.step (a := .arrive (synAckOf 0 (by decide))) rfl, by decide, by decide⟩

/-- The window closes after the connection has opened. -/
theorem persist_running_closed : ∃ pcb : Snd Bool, pcb.sndWnd = 0 ∧
    (0 < pcb.persistBackoff ↔ pcb.sndWnd = 0) ∧
      (0 < pcb.persistBackoff → pcb.persistBackoff - 1 < tcpPersistBackoff.length) := by
  have hopen : (sending Bool none).Run OpensWindow [] (.tcpConnect none 6510 true) :=
    .start (.inl ⟨_, _, rfl⟩)
  have hok : (tcpConnect none 6510 true : Snd Bool).OpensWindow
      (.arrive (synAckOf 4096 (by decide))) := ⟨fun _ _ _ _ _ => by decide, by decide⟩
  have hack := hopen.snoc hok rfl
  have hok' : (Snd.exec none (tcpConnect none 6510 true : Snd Bool)
      (.arrive (synAckOf 4096 (by decide)))).OpensWindow (.arrive closeWindow) :=
    ⟨fun hstate => absurd hstate (by decide), fun hstate => absurd hstate (by decide)⟩
  have hclose := hack.snoc hok' rfl
  exact ⟨_, by decide, persist_running ⟨_, hclose⟩ (by decide)⟩

end Snd

end QuietLwip.Sender
