import QuietLwip.Foundation.Network
import QuietLwip.Sender.Contents

/-!
# The three-way handshake

One host has called `tcp_connect`, the other one listens, and between them is a network that also
holds what is left of earlier connections: resets, SYNs with any sequence number, and segments that
acknowledge nothing of this one. When either end has reached `ESTABLISHED`, each has taken the initial
sequence number of the other.
-/

namespace QuietLwip.Sender

open Serial Word Tcp QuietLwip.Stream Transition Network

variable {α : Type*} {iss irs : Seq} {mtu : Option ℕ} {e : Event α} {data : List α}

namespace Snd

variable {pcb pcb' : Snd α}

/-! ### The SYNs on the queues -/

/-- The SYNs that wait have the sequence number `iss`. -/
def SynsAt (iss : Seq) (pcb : Snd α) : Prop :=
  ∀ seg ∈ pcb.queued, seg.syn = true → seg.seqno = iss

theorem SynsAt.moves (h : pcb.SynsAt iss) (hmoves : pcb'.Moves pcb) : pcb'.SynsAt iss :=
  fun seg hseg => h seg (hmoves.queued hseg)

theorem SynsAt.tcpWrite (h : pcb.SynsAt iss) (args : WriteArgs) (data : List α) :
    (pcb.tcpWrite args data).1.SynsAt iss := by
  rw [Snd.tcpWrite]
  split
  · exact h
  · exact h
  · split
    · exact h
    · next d hd =>
      intro seg hseg hsyn
      simp only [queued, commit, List.mem_append] at hseg
      rcases hseg with hseg | hseg | hseg
      · exact h seg (List.mem_append_left _ hseg) hsyn
      · split at hseg
        · next front last hunsent =>
          have hunsent := unsnoc_eq hunsent
          rcases List.mem_append.mp hseg with hseg | hseg
          · refine h seg (List.mem_append_right _ ?_) hsyn
            rw [hunsent]
            exact List.mem_append_left _ hseg
          · obtain rfl := List.mem_singleton.mp hseg
            refine h last (List.mem_append_right _ ?_) hsyn
            rw [hunsent]
            exact List.mem_append_right _ List.mem_cons_self
        · cases hseg
      · rw [((segmentation_drafted hd).queue seg hseg).1] at hsyn
        cases hsyn

theorem SynsAt.tcpEnqueueFlags (h : pcb.SynsAt iss) (memory : Bool) :
    (pcb.tcpEnqueueFlags memory false true).1.SynsAt iss := by
  rw [Snd.tcpEnqueueFlags]
  split
  · exact h
  · split
    · exact h
    · split
      · exact h
      · intro seg hseg hsyn
        simp only [queued, List.mem_append, List.mem_singleton, ← or_assoc] at hseg
        rcases hseg with hseg | rfl
        · exact h seg (List.mem_append.mpr hseg) hsyn
        · cases hsyn

theorem SynsAt.sendFin (h : pcb.SynsAt iss) (env : CallEnv) (state : TcpState) :
    (pcb.sendFin env state).SynsAt iss := by
  have hfin : (pcb.tcpSendFin env.memory).1.SynsAt iss := by
    rw [tcpSendFin]
    split
    · next front last hunsent =>
      split
      · exact h.tcpEnqueueFlags env.memory
      · have hunsent := unsnoc_eq hunsent
        intro seg hseg hsyn
        simp only [queued, List.mem_append, List.mem_singleton] at hseg
        rcases hseg with hseg | hseg | rfl
        · exact h seg (List.mem_append_left _ hseg) hsyn
        · refine h seg (List.mem_append_right _ ?_) hsyn
          rw [hunsent]
          exact List.mem_append_left _ hseg
        · refine h last (List.mem_append_right _ ?_) hsyn
          rw [hunsent]
          exact List.mem_append_right _ List.mem_cons_self
    · exact h.tcpEnqueueFlags env.memory
  rw [Snd.sendFin]
  dsimp only
  split
  · have hstate : SynsAt iss { (pcb.tcpSendFin env.memory).1 with state := state } := hfin
    exact hstate.moves tcpOutput_moves
  · exact hfin

theorem SynsAt.exec (h : pcb.SynsAt iss) (e : Event α) : (pcb.exec mtu e).SynsAt iss := by
  cases e with
  | arrive seg =>
    rw [Snd.exec]
    split
    · exact h.moves tcpProcess_moves
    · exact h
  | write args data => exact h.tcpWrite args data
  | output acked => exact h.moves tcpOutput_moves
  | close env rst =>
    rw [Snd.exec, tcpCloseShutdown]
    split
    · exact h.moves leave_moves
    · split
      · exact h.moves leave_moves
      · exact h.sendFin env _
      · exact h.sendFin env _
      · exact h.sendFin env _
      · exact h
  | slowtmr env expired remove =>
    rw [Snd.exec]
    split
    · exact h.moves tcpSlowtmr_moves
    · exact h
  | ackNow => exact h

/-! ### `SYN_SENT` -/

/-- The segment comes behind the SYN, among the first `n` bytes. -/
def Later (iss : Seq) (n : ℕ) (seg : OutSeg α) : Prop :=
  ∃ d ≤ n, seg.seqno = iss + 1 + (d : Seq)

theorem Later.mono {n m : ℕ} {seg : OutSeg α} (h : Later iss n seg) (hle : n ≤ m) : Later iss m seg := by
  obtain ⟨d, hd, hseqno⟩ := h
  exact ⟨d, hd.trans hle, hseqno⟩

theorem Later.lt {n : ℕ} {seg : OutSeg α} (h : Later iss n seg) (hn : n ≤ 2048) :
    tcpSeqLt iss seg.seqno = true := by
  obtain ⟨d, hd, hseqno⟩ := h
  obtain ⟨p, rfl, -⟩ := exists_place iss 0
  rw [hseqno, place_add_one, place_add, tcpSeqLt_place (by omega) (by omega)]
  exact decide_eq_true (by omega)

/-- The SYN waits for its answer at the head of `unacked`, and the application has written `n` bytes
meanwhile. -/
structure Asking (iss : Seq) (pcb : Snd α) : Prop where
  state : pcb.state = .synSent
  lastack : pcb.lastack = iss
  queues : ∃ syn rest, ∃ n : ℕ, pcb.unacked = syn :: rest ∧ syn.seqno = iss ∧ syn.syn = true ∧ syn.len = 0 ∧
    (∀ seg ∈ rest ++ pcb.unsent, Later iss n seg) ∧ pcb.sndLbb = iss + 1 + (n : Seq) ∧
    n + pcb.sndBuf ≤ 2048

theorem Asking.congr (h : pcb.Asking iss) (hstate : pcb'.state = pcb.state)
    (hlastack : pcb'.lastack = pcb.lastack) (hunacked : pcb'.unacked = pcb.unacked)
    (hunsent : pcb'.unsent = pcb.unsent) (hlbb : pcb'.sndLbb = pcb.sndLbb)
    (hbuf : pcb'.sndBuf = pcb.sndBuf) : pcb'.Asking iss := by
  refine ⟨hstate.trans h.state, hlastack.trans h.lastack, ?_⟩
  rw [hunacked, hunsent, hlbb, hbuf]
  exact h.queues

/-- The SYN stays in front. -/
theorem pushUnacked_cons {syn seg : OutSeg α} (rest : List (OutSeg α))
    (hlt : tcpSeqLt syn.seqno seg.seqno = true) :
    ∃ rest', pushUnacked seg (syn :: rest) = syn :: rest' ∧ ∀ x ∈ rest', x = seg ∨ x ∈ rest := by
  rw [pushUnacked, List.getLast?_cons]
  dsimp only
  split
  · rw [insertBySeqno, if_pos hlt]
    exact ⟨_, rfl, fun x hx => mem_insertBySeqno.mp hx⟩
  · refine ⟨rest ++ [seg], rfl, fun x hx => ?_⟩
    simp only [List.mem_append, List.mem_singleton] at hx
    exact hx.symm

theorem outputLoop_asking (queue : List (OutSeg α)) (pcb : Snd α)
    (h : Asking iss { pcb with unsent := queue }) : (outputLoop queue pcb).Asking iss := by
  induction queue generalizing pcb with
  | nil => exact h.congr rfl rfl rfl rfl rfl rfl
  | cons seg more ih =>
    rw [outputLoop]
    split
    · refine ih _ ⟨h.state, h.lastack, ?_⟩
      obtain ⟨syn, rest, n, hunacked, hseqno, hsyn, hlen, hlater, hlbb, hbuf⟩ := h.queues
      have hseg := hlater seg (List.mem_append_right _ List.mem_cons_self)
      have hlt := hseg.lt (by omega)
      rw [← hseqno] at hlt
      obtain ⟨rest', hpush, hrest'⟩ := pushUnacked_cons rest hlt
      have hout : ∃ rest', (pcb.outputSegment seg).unacked = syn :: rest' ∧
          ∀ x ∈ rest', x = seg ∨ x ∈ rest := by
        replace hunacked : pcb.unacked = syn :: rest := hunacked
        dsimp only [outputSegment]
        rw [hunacked]
        split
        · exact ⟨rest', hpush, hrest'⟩
        · exact ⟨rest, rfl, fun x hx => .inr hx⟩
      obtain ⟨rest', hout, hrest'⟩ := hout
      refine ⟨syn, rest', n, hout, hseqno, hsyn, hlen, fun x hx => ?_, hlbb, hbuf⟩
      rcases List.mem_append.mp hx with hx | hx
      · rcases hrest' x hx with rfl | hx
        · exact hseg
        · exact hlater x (List.mem_append_left _ hx)
      · exact hlater x (List.mem_append_right _ (List.mem_cons_of_mem _ hx))
    · exact h.congr rfl rfl rfl rfl rfl rfl

theorem Asking.tcpOutput {acked : Bool} (h : pcb.Asking iss) : (pcb.tcpOutput acked).Asking iss := by
  rw [Snd.tcpOutput]
  split
  · exact h.congr rfl rfl rfl rfl rfl rfl
  · exact outputLoop_asking _ _ h

/-- The SYN is in the window whatever that is, and goes first. -/
theorem tcpOutput_syn {acked : Bool} {syn : OutSeg α} {more : List (OutSeg α)} {n : ℕ}
    (hstate : pcb.state = .synSent) (hlastack : pcb.lastack = iss) (hunacked : pcb.unacked = [])
    (hunsent : pcb.unsent = syn :: more) (hseqno : syn.seqno = iss) (hsyn : syn.syn = true)
    (hlen : syn.len = 0) (hlater : ∀ seg ∈ more, Later iss n seg)
    (hlbb : pcb.sndLbb = iss + 1 + (n : Seq)) (hbuf : n + pcb.sndBuf ≤ 2048) :
    (pcb.tcpOutput acked).Asking iss := by
  have hfits : pcb.fits syn = true := by
    rw [fits, hseqno, hlastack, hlen, sub_self]
    exact decide_eq_true (Nat.zero_le _)
  have hnagle : pcb.tcpDoOutputNagle syn more = true := by
    rw [tcpDoOutputNagle, hunacked]
    rfl
  have htcplen : 0 < syn.tcplen := by
    rw [Seg.tcplen, hsyn, Bool.or_true]
    exact Nat.succ_pos _
  have honly : pcb.onlyAck = false := by
    rw [onlyAck, hunsent]
    dsimp only
    rw [hfits, Bool.not_true, Bool.and_false]
  rw [Snd.tcpOutput, honly, if_neg Bool.false_ne_true, hunsent, outputLoop,
    if_pos (by rw [hfits, hnagle]; rfl)]
  refine outputLoop_asking _ _ ⟨hstate, hlastack, syn, [], n, ?_, hseqno, hsyn, hlen, hlater, hlbb, hbuf⟩
  dsimp only [outputSegment]
  rw [if_pos htcplen, hunacked]
  rfl

theorem Asking.tcpRexmitRto {acked : Bool} (h : pcb.Asking iss) : (pcb.tcpRexmitRto acked).Asking iss := by
  obtain ⟨syn, rest, n, hunacked, hseqno, hsyn, hlen, hlater, hlbb, hbuf⟩ := h.queues
  rw [Snd.tcpRexmitRto, hunacked]
  exact tcpOutput_syn h.state h.lastack rfl rfl hseqno hsyn hlen hlater hlbb hbuf

theorem Asking.tcpSlowtmr (env : CallEnv) (expired remove : Bool) (h : pcb.Asking iss) :
    (pcb.tcpSlowtmr env expired remove).Asking iss ∨ (pcb.tcpSlowtmr env expired remove).state = .closed := by
  obtain heq | ⟨-, heq⟩ | ⟨t, heq | heq⟩ := tcpSlowtmr_cases env expired remove pcb
  · exact .inr (heq ▸ rfl)
  · rw [heq, persist]
    left
    split <;> exact h.congr rfl rfl rfl rfl rfl rfl
  · exact .inl (heq ▸ h.congr rfl rfl rfl rfl rfl rfl)
  · left
    rw [heq, retransmit]
    exact Asking.tcpRexmitRto (h.congr rfl rfl rfl rfl rfl rfl)

theorem Asking.commit {d : Draft α} (h : pcb.Asking iss) (hd : Drafted data pcb d)
    (hlen : data.length ≤ pcb.sndBuf) : (pcb.commit data.length d).Asking iss := by
  obtain ⟨syn, rest, n, hunacked, hseqno, hsyn, hsynlen, hlater, hlbb, hbuf⟩ := h.queues
  have hmore : ∀ {seg : OutSeg α}, Later iss n seg → Later iss (n + data.length) seg :=
    fun hseg => hseg.mono (Nat.le_add_right _ _)
  refine ⟨h.state, h.lastack, syn, rest, n + data.length, hunacked, hseqno, hsyn, hsynlen, fun seg hseg => ?_,
    ?_, ?_⟩
  · simp only [Snd.commit, List.mem_append] at hseg
    rcases hseg with hseg | hseg | hseg
    · exact hmore (hlater seg (List.mem_append_left _ hseg))
    · split at hseg
      · next front last hunsent =>
        have hunsent := unsnoc_eq hunsent
        rw [hunsent] at hlater
        simp only [List.mem_append, List.mem_singleton] at hseg hlater
        rcases hseg with hseg | rfl
        · exact hmore (hlater seg (.inr (.inl hseg)))
        · obtain ⟨d', hd', hplace⟩ := hmore (hlater last (.inr (.inr rfl)))
          exact ⟨d', hd', hplace⟩
      · cases hseg
    · obtain ⟨-, -, off, hoff, hle, -⟩ := hd.queue seg hseg
      refine ⟨n + off, by omega, ?_⟩
      rw [hoff, hlbb, Nat.cast_add, add_assoc]
  · rw [Snd.commit, hlbb, Nat.cast_add, add_assoc]
  · show n + data.length + (pcb.sndBuf - data.length) ≤ 2048
    omega

theorem Asking.tcpWrite (h : pcb.Asking iss) (args : WriteArgs) (data : List α) :
    (pcb.tcpWrite args data).1.Asking iss := by
  rw [Snd.tcpWrite]
  split
  · exact h.congr rfl rfl rfl rfl rfl rfl
  · exact h
  · next hchecks =>
    split
    · exact h.congr rfl rfl rfl rfl rfl rfl
    · next d hd =>
      refine h.commit (segmentation_drafted hd) ?_
      rw [tcpWriteChecks, if_neg (by simp [h.state])] at hchecks
      split at hchecks
      · next hzero => omega
      · split at hchecks
        · cases hchecks
        · next hroom => omega

/-- Only a SYN with an ACK for the SYN opens the connection. -/
theorem Asking.tcpProcess (mtu : Option ℕ) (seg : Incoming) (h : pcb.Asking iss) :
    (pcb.tcpProcess mtu seg).Asking iss ∨ (pcb.tcpProcess mtu seg).state = .closed ∨
      seg.rst = false ∧ seg.ack = true ∧ seg.syn = true ∧ seg.ackno = iss + 1 ∧
        (pcb.tcpProcess mtu seg).state = .established := by
  obtain heq | heq | heq | ⟨hrst, -, hprocessed⟩ := tcpProcess_cases mtu seg pcb
  · exact .inl (by rwa [heq])
  · exact .inr (.inl (heq ▸ rfl))
  · exact .inl (heq ▸ h.congr rfl rfl rfl rfl rfl rfl)
  · have hparsed : (pcb.tcpParseopt seg.mss).Asking iss := by
      cases seg.mss with
      | none => exact h
      | some mss => exact h.congr rfl rfl rfl rfl rfl rfl
    revert hprocessed
    generalize pcb.tcpProcess mtu seg = pcb'
    intro hprocessed
    cases hprocessed with
    | ignored => exact .inl hparsed
    | refused => exact .inr (.inl rfl)
    | synAcked _ hfirst hack hsyn hackno =>
      obtain ⟨syn, rest, n, hunacked, hseqno, -⟩ := hparsed.queues
      rw [hunacked] at hfirst
      cases hfirst
      exact .inr (.inr ⟨hrst, hack, hsyn, hseqno ▸ hackno, rfl⟩)
    | accepted hstate | synAgain hstate =>
      rw [hparsed.state] at hstate
      cases hstate
    | received hstate | left hstate =>
      rw [hparsed.state] at hstate
      cases hstate

theorem Asking.exec (mtu : Option ℕ) (h : pcb.Asking iss) (e : Event α) :
    (pcb.exec mtu e).Asking iss ∨ (pcb.exec mtu e).state = .closed ∨
      ∃ seg, e = .arrive seg ∧ seg.rst = false ∧ seg.ack = true ∧ seg.syn = true ∧ seg.ackno = iss + 1 ∧
        (pcb.exec mtu e).state = .established := by
  have hactive : pcb.state.isActive = true := by
    rw [h.state]
    rfl
  cases e with
  | arrive seg =>
    rw [Snd.exec, if_pos hactive]
    obtain hasking | hclosed | ⟨hrst, hack, hsyn, hackno, hstate⟩ := h.tcpProcess mtu seg
    · exact .inl hasking
    · exact .inr (.inl hclosed)
    · exact .inr (.inr ⟨seg, rfl, hrst, hack, hsyn, hackno, hstate⟩)
  | write args data => exact .inl (h.tcpWrite args data)
  | output acked => exact .inl h.tcpOutput
  | close env rst =>
    refine .inr (.inl ?_)
    rw [Snd.exec, tcpCloseShutdown, h.state]
    simp [leave]
  | slowtmr env expired remove =>
    rw [Snd.exec, if_pos hactive]
    obtain hasking | hclosed := h.tcpSlowtmr env expired remove
    · exact .inl hasking
    · exact .inr (.inl hclosed)
  | ackNow => exact .inl (h.congr rfl rfl rfl rfl rfl rfl)

/-- `tcp_connect` sends the SYN. -/
theorem tcpConnect_asking (mtu : Option ℕ) (iss : Seq) (acked : Bool) :
    (tcpConnect (α := α) mtu iss acked).Asking (iss - 1) := by
  refine tcpOutput_syn (n := 0) rfl rfl rfl rfl rfl rfl rfl (fun _ h => absurd h List.not_mem_nil)
    (add_zero _).symm ?_
  show 0 + (tcpSndBuf - 1) ≤ 2048
  decide

theorem tcpConnect_synsAt (mtu : Option ℕ) (iss : Seq) (acked : Bool) :
    (tcpConnect (α := α) mtu iss acked).SynsAt (iss - 1) := by
  have hsyn : SynsAt (iss - 1) ({ ((connecting mtu iss).tcpEnqueueFlags true true false).1 with
      state := .synSent } : Snd α) := by
    intro seg hseg _
    obtain rfl := List.mem_singleton.mp hseg
    rfl
  exact hsyn.moves tcpOutput_moves

/-! ### `SYN_RCVD` -/

/-- The SYN-ACK waits for its acknowledgement. -/
structure Answering (irs : Seq) (pcb : Snd α) : Prop where
  state : pcb.state = .synRcvd
  rcvNxt : pcb.rcvNxt = irs + 1

theorem outputLoop_rcvNxt (queue : List (OutSeg α)) (pcb : Snd α) :
    (outputLoop queue pcb).rcvNxt = pcb.rcvNxt := by
  induction queue generalizing pcb with
  | nil => rfl
  | cons seg rest ih =>
    rw [outputLoop]
    split
    · exact ih _
    · rfl

theorem tcpOutput_rcvNxt {acked : Bool} : (pcb.tcpOutput acked).rcvNxt = pcb.rcvNxt := by
  rw [tcpOutput]
  split
  · rfl
  · exact outputLoop_rcvNxt _ _

theorem Answering.tcpSlowtmr (env : CallEnv) (expired remove : Bool) (h : pcb.Answering irs) :
    (pcb.tcpSlowtmr env expired remove).Answering irs ∨
      (pcb.tcpSlowtmr env expired remove).state = .closed := by
  obtain heq | ⟨-, heq⟩ | ⟨t, heq | heq⟩ := tcpSlowtmr_cases env expired remove pcb
  · exact .inr (heq ▸ rfl)
  · rw [heq, persist]
    left
    split <;> exact ⟨h.state, h.rcvNxt⟩
  · exact .inl (heq ▸ ⟨h.state, h.rcvNxt⟩)
  · refine .inl ⟨?_, ?_⟩
    · rw [heq, retransmit_window.state]
      exact h.state
    · rw [heq, retransmit, Snd.tcpRexmitRto]
      split
      · exact h.rcvNxt
      · exact tcpOutput_rcvNxt.trans h.rcvNxt

/-- `ESTABLISHED`, or past it by the FIN of the other side -/
def isOpen (state : TcpState) : Bool := state == .established || state == .closeWait

theorem accept_isOpen (seg : Incoming) (pcb : Snd α) : isOpen (pcb.accept seg).state = true := by
  rw [accept]
  dsimp only
  split
  · rfl
  · show isOpen (({ pcb with state := .established } : Snd α).tcpReceive seg).state = true
    rw [tcpReceive_state]
    rfl

/-- Only an acknowledgement of the SYN-ACK opens the connection. -/
theorem Answering.tcpProcess (mtu : Option ℕ) (seg : Incoming) (h : pcb.Answering irs) :
    (pcb.tcpProcess mtu seg).Answering irs ∨ (pcb.tcpProcess mtu seg).state = .closed ∨
      seg.rst = false ∧ seg.ack = true ∧
        tcpSeqBetween seg.ackno (pcb.lastack + 1) pcb.sndNxt = true ∧
        isOpen (pcb.tcpProcess mtu seg).state = true := by
  obtain heq | heq | heq | ⟨hrst, -, hprocessed⟩ := tcpProcess_cases mtu seg pcb
  · exact .inl (by rwa [heq])
  · exact .inr (.inl (heq ▸ rfl))
  · exact .inl (heq ▸ ⟨h.state, h.rcvNxt⟩)
  · have hparsed : (pcb.tcpParseopt seg.mss).Answering irs ∧
        (pcb.tcpParseopt seg.mss).lastack = pcb.lastack ∧ (pcb.tcpParseopt seg.mss).sndNxt = pcb.sndNxt := by
      cases seg.mss with
      | none => exact ⟨h, rfl, rfl⟩
      | some mss => exact ⟨⟨h.state, h.rcvNxt⟩, rfl, rfl⟩
    obtain ⟨hparsed, hlastack, hnxt⟩ := hparsed
    revert hprocessed
    generalize pcb.tcpProcess mtu seg = pcb'
    intro hprocessed
    cases hprocessed with
    | ignored => exact .inl hparsed
    | refused => exact .inr (.inl rfl)
    | synAcked hstate =>
      rw [hparsed.state] at hstate
      cases hstate
    | accepted _ hack hbetween _ =>
      rw [hlastack, hnxt] at hbetween
      exact .inr (.inr ⟨hrst, hack, hbetween, accept_isOpen _ _⟩)
    | synAgain _ =>
      refine .inl ⟨tcpRexmit_same.state.trans hparsed.state, ?_⟩
      rw [tcpRexmit]
      split <;> exact hparsed.rcvNxt
    | received hstate | left hstate =>
      rw [hparsed.state] at hstate
      cases hstate

/-- While nobody has been told of it, the application does not use the connection. -/
theorem Answering.exec (mtu : Option ℕ) (h : pcb.Answering irs) {e : Event α}
    (hunused : (∀ args data, e ≠ .write args data) ∧ ∀ env rst, e ≠ .close env rst) :
    (pcb.exec mtu e).Answering irs ∨ (pcb.exec mtu e).state = .closed ∨
      ∃ seg, e = .arrive seg ∧ seg.rst = false ∧ seg.ack = true ∧
        tcpSeqBetween seg.ackno (pcb.lastack + 1) pcb.sndNxt = true ∧
        isOpen (pcb.exec mtu e).state = true := by
  have hactive : pcb.state.isActive = true := by
    rw [h.state]
    rfl
  cases e with
  | arrive seg =>
    rw [Snd.exec, if_pos hactive]
    obtain hanswering | hclosed | ⟨hrst, hack, hbetween, hstate⟩ := h.tcpProcess mtu seg
    · exact .inl hanswering
    · exact .inr (.inl hclosed)
    · exact .inr (.inr ⟨seg, rfl, hrst, hack, hbetween, hstate⟩)
  | write args data => exact absurd rfl (hunused.1 args data)
  | close env rst => exact absurd rfl (hunused.2 env rst)
  | output acked => exact .inl ⟨tcpOutput_same.state.trans h.state, tcpOutput_rcvNxt.trans h.rcvNxt⟩
  | slowtmr env expired remove =>
    rw [Snd.exec, if_pos hactive]
    obtain hanswering | hclosed := h.tcpSlowtmr env expired remove
    · exact .inl hanswering
    · exact .inr (.inl hclosed)
  | ackNow => exact .inl ⟨h.state, h.rcvNxt⟩

theorem tcpListenInput_answering (mtu : Option ℕ) (iss : Seq) (seg : Incoming) (acked : Bool) :
    (tcpListenInput (α := α) mtu iss seg acked).Answering seg.seqno := by
  have hcreated : (created (α := α) mtu iss seg).state = .synRcvd ∧
      (created (α := α) mtu iss seg).rcvNxt = seg.seqno + 1 := by
    rw [created]
    cases seg.mss <;> exact ⟨rfl, rfl⟩
  refine ⟨(tcpListenInput_same mtu iss seg acked).state.trans hcreated.1, ?_⟩
  rw [tcpListenInput]
  refine tcpOutput_rcvNxt.trans (Eq.trans ?_ hcreated.2)
  rw [tcpEnqueueFlags]
  repeat' split
  all_goals rfl

theorem tcpListenInput_synsAt (mtu : Option ℕ) (iss : Seq) (seg : Incoming) (acked : Bool) :
    (tcpListenInput (α := α) mtu iss seg acked).SynsAt iss := by
  refine SynsAt.moves ?_ tcpOutput_moves
  intro x hx hsyn
  have hcreated : (created (α := α) mtu iss seg).queued = [] ∧
      (created (α := α) mtu iss seg).sndLbb = iss := by
    rw [created]
    cases seg.mss <;> exact ⟨rfl, rfl⟩
  have hsub : ((created (α := α) mtu iss seg).tcpEnqueueFlags true true false).1.queued ⊆
      (created (α := α) mtu iss seg).queued ++
        [{ seqno := (created (α := α) mtu iss seg).sndLbb, len := 0, p := [], syn := true }] := by
    rw [tcpEnqueueFlags]
    repeat' split
    · exact List.subset_append_left _ _
    · exact List.subset_append_left _ _
    · exact List.subset_append_left _ _
    · simp [queued]
  have hx := hsub hx
  rw [hcreated.1, hcreated.2, List.nil_append, List.mem_singleton] at hx
  rw [hx]

/-! ### The other states -/

/-- The states before the connection is open, or has been closed -/
def early (state : TcpState) : Bool := state == .listen || state == .synSent || state == .synRcvd

theorem tcpProcess_late {seg : Incoming} (h : early pcb.state = false) :
    early (pcb.tcpProcess mtu seg).state = false := by
  obtain heq | heq | heq | ⟨-, -, hprocessed⟩ := tcpProcess_cases mtu seg pcb
  · rwa [heq]
  · exact heq ▸ rfl
  · exact heq ▸ h
  · have hparsed : early (pcb.tcpParseopt seg.mss).state = false := by
      cases seg.mss <;> exact h
    revert hprocessed
    generalize pcb.tcpProcess mtu seg = pcb'
    intro hprocessed
    cases hprocessed with
    | ignored => exact hparsed
    | refused => rfl
    | synAcked hstate | accepted hstate | synAgain hstate =>
      rw [hstate] at hparsed
      cases hparsed
    | @received state _ _ hnext =>
      cases state
      all_goals first
        | rfl
        | cases hnext
    | left _ hnext =>
      rcases hnext with rfl | rfl <;> rfl

theorem sendFin_late {env : CallEnv} {state : TcpState} (h : early pcb.state = false)
    (hstate : early state = false) : early (pcb.sendFin env state).state = false := by
  rcases sendFin_window env state pcb with hsame | ⟨-, hsame⟩
  · rw [hsame.state]
    exact h
  · rw [hsame.state]
    exact hstate

/-- There is no way back. -/
theorem exec_late (h : early pcb.state = false) (e : Event α) : early (pcb.exec mtu e).state = false := by
  cases e with
  | arrive seg =>
    rw [Snd.exec]
    split
    · exact tcpProcess_late h
    · exact h
  | write args data =>
    rw [Snd.exec, tcpWrite_same.state]
    exact h
  | output acked =>
    rw [Snd.exec, tcpOutput_same.state]
    exact h
  | close env rst =>
    rw [Snd.exec, tcpCloseShutdown]
    split
    · show early (if pcb.state = .established then .timeWait else .closed) = false
      split <;> rfl
    · split
      · rfl
      · exact sendFin_late h rfl
      · exact sendFin_late h rfl
      · exact sendFin_late h rfl
      · exact h
  | slowtmr env expired remove =>
    rw [Snd.exec]
    split
    · obtain heq | ⟨-, heq⟩ | ⟨t, heq | heq⟩ := tcpSlowtmr_cases env expired remove pcb
      · exact heq ▸ rfl
      · rw [heq, persist]
        split <;> exact h
      · exact heq ▸ h
      · rw [heq, retransmit_window.state]
        exact h
    · exact h
  | ackNow => exact h

theorem exec_closed_state (mtu : Option ℕ) (h : pcb.state = .closed) (e : Event α) : (pcb.exec mtu e).state = .closed := by
  have hinactive : ¬pcb.state.isActive = true := by
    rw [h]
    exact Bool.noConfusion
  cases e with
  | arrive seg => rwa [Snd.exec, if_neg hinactive]
  | write args data => rwa [Snd.exec, tcpWrite_same.state]
  | output acked => rwa [Snd.exec, tcpOutput_same.state]
  | close env rst => simp [Snd.exec, tcpCloseShutdown, h]
  | slowtmr env expired remove => rwa [Snd.exec, if_neg hinactive]
  | ackNow => exact h

end Snd

/-! ### The two ends and the network -/

/-- The host that has called `tcp_connect`, the one that listens, and what is left of earlier
connections. -/
inductive Role where
  | active
  | passive
  | past
  deriving DecidableEq, Repr

/-- The fields of a header that a handshake is about. -/
structure Header where
  src : Role
  seqno : Seq
  ackno : Seq
  syn : Bool := false
  ack : Bool := true
  rst : Bool := false
  deriving DecidableEq, Repr

/-- The segment that arrives has this header. -/
def Header.Shows (m : Header) (seg : Incoming) : Prop :=
  seg.seqno = m.seqno ∧ seg.ackno = m.ackno ∧ seg.syn = m.syn ∧ seg.ack = m.ack ∧ seg.rst = m.rst

/-- A pcb, with the initial sequence numbers of the connection as this side takes them, and whether it
has been open. -/
structure End (α : Type*) where
  pcb : Snd α := { state := .listen }
  iss : Option Seq := none
  irs : Option Seq := none
  opened : Bool := false

/-- The end after a call for its pcb. -/
def End.after (mtu : Option ℕ) (e : Event α) (p : End α) : End α :=
  { p with
    pcb := p.pcb.exec mtu e
    irs := match e with
      | .arrive seg => if p.pcb.state = .synSent ∧ (p.pcb.exec mtu e).state = .established then
          some seg.seqno else p.irs
      | _ => p.irs
    opened := p.opened || Snd.isOpen (p.pcb.exec mtu e).state }

/-- The end after a SYN for the listening pcb. -/
def End.listened (mtu : Option ℕ) (iss : Seq) (seg : Incoming) (acked : Bool) : End α where
  pcb := .tcpListenInput mtu iss seg acked
  iss := some iss
  irs := some seg.seqno

/-- What an end may send: resets, and segments of a pcb that is in use. A SYN is one that waits on a
queue, and every segment has an ACK, with `rcv_nxt`, unless the state is `SYN_SENT`. -/
def End.Sends (i : Role) (p : End α) (m : Header) : Prop :=
  m.src = i ∧ (m.rst = true ∨ p.pcb.state ≠ .closed ∧ p.pcb.state ≠ .listen ∧
    (m.syn = true → ∃ seg ∈ p.pcb.queued, seg.syn = true ∧ seg.seqno = m.seqno) ∧
    m.ack = decide (p.pcb.state ≠ .synSent) ∧ (m.ack = true → m.ackno = p.pcb.rcvNxt))

/-- What happens at an end: a call for its pcb, or a segment for the listening pcb. -/
inductive Call (α : Type*) where
  | pcb (e : Event α)
  | listen (seg : Incoming) (iss : Seq) (acked : Bool)

/-- The segment that arrives is the one taken from the network, and has come from the other side. -/
def Takes (i : Role) (taken : Option Header) : Event α → Prop
  | .arrive seg => ∃ m ∈ taken, m.src ≠ i ∧ m.Shows seg
  | _ => taken = none

inductive End.Step (mtu : Option ℕ) : Role → End α → Option Header → Call α → End α → List Header → Prop
  | call {i : Role} {p : End α} {taken : Option Header} {e : Event α} {out : List Header}
      (hi : i ≠ .past) (hstate : p.pcb.state ≠ .listen) (htaken : Takes i taken e)
      (hout : ∀ m ∈ out, (p.after mtu e).Sends i m) : Step mtu i p taken (.pcb e) (p.after mtu e) out
  | syn {p : End α} {m : Header} {seg : Incoming} {iss : Seq} {acked : Bool} {out : List Header}
      (hstate : p.pcb.state = .listen) (hsrc : m.src ≠ .passive) (hshows : m.Shows seg)
      (hrst : seg.rst = false) (hack : seg.ack = false) (hsyn : seg.syn = true)
      (hout : ∀ m ∈ out, (End.listened (α := α) mtu iss seg acked).Sends .passive m) :
      Step mtu .passive p (some m) (.listen seg iss acked) (.listened mtu iss seg acked) out
  | refused {p : End α} {m : Header} {seg : Incoming} {iss : Seq} {acked : Bool} {out : List Header}
      (hstate : p.pcb.state = .listen) (hshows : m.Shows seg)
      (hno : seg.rst = true ∨ seg.ack = true ∨ seg.syn = false)
      (hout : ∀ m ∈ out, m.src = .passive ∧ m.rst = true) :
      Step mtu .passive p (some m) (.listen seg iss acked) p out
  | past {p : End α} {c : Call α} {out : List Header} (hout : ∀ m ∈ out, m.src = .past) :
      Step mtu .past p none c p out

/-- One end has sent its SYN, and the other one listens. -/
inductive End.Start (mtu : Option ℕ) : Role → End α → Prop
  | active (iss : Seq) (acked : Bool) :
      Start mtu .active { pcb := .tcpConnect mtu iss acked, iss := some (iss - 1) }
  | passive : Start mtu .passive {}
  | past : Start mtu .past {}

def handshake (α : Type*) (mtu : Option ℕ) : Protocol Role (End α) Header (Call α) where
  start := End.Start mtu
  step := End.Step mtu

/-- A segment of an earlier connection acknowledges nothing that waits for it, and the application uses
a connection when it has been told of it. -/
def Proper (net : Net Role (End α) Header) (act : Network.Act Role Header (Call α)) : Prop :=
  match act.label with
  | .pcb (.arrive seg) => ∀ m ∈ act.taken, m.src = .past → seg.rst = false → seg.ack = true →
      seg.ackno ≠ (net.party act.who).pcb.lastack + 1 ∧
        tcpSeqBetween seg.ackno ((net.party act.who).pcb.lastack + 1) (net.party act.who).pcb.sndNxt = false
  | .pcb (.write _ _) | .pcb (.close _ _) => (net.party act.who).pcb.state ≠ .synRcvd
  | _ => True

/-! ### The invariant -/

/-- What a header tells of the end that has sent it. -/
structure Honest (A B : End α) (m : Header) : Prop where
  active : m.src = .active → m.rst = false → (m.ack = true → A.opened = true) ∧
    (m.syn = true → A.iss = some m.seqno)
  passive : m.src = .passive → m.rst = false → (m.syn = true → B.iss = some m.seqno) ∧
    (m.ack = true → B.opened = true ∨ ∃ z, B.irs = some z ∧ m.ackno = z + 1)

/-- Each end has taken the initial sequence number of the other. -/
def Agree (A B : End α) : Prop :=
  ∃ a b, A.iss = some a ∧ A.irs = some b ∧ B.iss = some b ∧ B.irs = some a

structure Shaking (A B : End α) (wire : List Header) : Prop where
  asking : A.opened = false → A.pcb.state = .closed ∨ ∃ a, A.iss = some a ∧ A.pcb.Asking a
  answering : B.opened = false → B.pcb.state = .closed ∨
    B.pcb.state = .listen ∨ ∃ z, B.irs = some z ∧ B.pcb.Answering z
  lateA : A.opened = true → Snd.early A.pcb.state = false
  lateB : B.opened = true → Snd.early B.pcb.state = false
  synsA : ∃ a, A.iss = some a ∧ A.pcb.SynsAt a
  synsB : B.pcb.state = .listen ∧ B.iss = none ∧ B.irs = none ∨
    B.pcb.state ≠ .listen ∧ ∃ b, B.iss = some b ∧ B.pcb.SynsAt b
  agree : A.opened = true → Agree A B
  order : B.opened = true → A.opened = true
  wire : ∀ m ∈ wire, Honest A B m

variable {A B : End α} {wire out : List Header} {taken : Option Header}

theorem End.after_irs (h : A.pcb.state ≠ .synSent) (e : Event α) : (A.after mtu e).irs = A.irs := by
  cases e with
  | arrive seg => exact if_neg fun hboth => h hboth.1
  | write _ _ | output _ | close _ _ | slowtmr _ _ _ | ackNow => rfl

theorem not_synSent_of_late (h : Snd.early A.pcb.state = false) : A.pcb.state ≠ .synSent := by
  intro hstate
  rw [hstate] at h
  cases h

theorem opened_mono (h : A.opened = true) (e : Event α) : (A.after mtu e).opened = true := by
  show (A.opened || _) = true
  rw [h]
  rfl

theorem End.after_not_open (h : A.opened = false) {e : Event α}
    (hstate : Snd.isOpen (A.pcb.exec mtu e).state = false) : (A.after mtu e).opened = false := by
  show (A.opened || _) = false
  rw [h, hstate]
  rfl

/-- What the active end sends is honest. -/
theorem honest_active {a : Seq} (hasking : A.opened = false → A.pcb.state = .closed ∨ A.pcb.state = .synSent)
    (hiss : A.iss = some a) (hsyns : A.pcb.SynsAt a) {m : Header} (hm : A.Sends .active m) : Honest A B m := by
  refine ⟨fun _ hrst => ?_, fun hsrc => absurd (hm.1.symm.trans hsrc) nofun⟩
  obtain hreset | ⟨hclosed, -, hsyn, hack, -⟩ := hm.2
  · rw [hreset] at hrst
    cases hrst
  · refine ⟨fun htrue => ?_, fun htrue => ?_⟩
    · rw [hack] at htrue
      have hstate := of_decide_eq_true htrue
      by_contra hno
      rcases hasking (Bool.eq_false_iff.mpr hno) with h | h
      · exact hclosed h
      · exact hstate h
    · obtain ⟨seg, hseg, hflag, hseqno⟩ := hsyn htrue
      rw [hiss, ← hseqno, hsyns seg hseg hflag]

/-- What the passive end sends is honest. -/
theorem honest_passive (hanswering : B.opened = false → B.pcb.state = .closed ∨ B.pcb.state = .listen ∨
      ∃ z, B.irs = some z ∧ B.pcb.Answering z)
    (hsyns : ∃ b, B.iss = some b ∧ B.pcb.SynsAt b) {m : Header} (hm : B.Sends .passive m) :
    Honest A B m := by
  refine ⟨fun hsrc => absurd (hm.1.symm.trans hsrc) nofun, fun _ hrst => ?_⟩
  obtain hreset | ⟨hclosed, hlisten, hsyn, -, hackno⟩ := hm.2
  · rw [hreset] at hrst
    cases hrst
  · refine ⟨fun htrue => ?_, fun htrue => ?_⟩
    · obtain ⟨seg, hseg, hflag, hseqno⟩ := hsyn htrue
      obtain ⟨b, hiss, hsyns⟩ := hsyns
      rw [hiss, ← hseqno, hsyns seg hseg hflag]
    · by_cases hopen : B.opened = true
      · exact .inl hopen
      · right
        rcases hanswering (Bool.eq_false_iff.mpr hopen) with h | h | ⟨z, hz, h⟩
        · exact absurd h hclosed
        · exact absurd h hlisten
        · exact ⟨z, hz, (hackno htrue).trans h.rcvNxt⟩

theorem Shaking.callActive (h : Shaking A B wire) {e : Event α} (htaken : Takes .active taken e)
    (hwire : ∀ m ∈ taken, m ∈ wire) (hproper : ∀ seg, e = .arrive seg → ∀ m ∈ taken, m.src = .past →
      seg.rst = false → seg.ack = true → seg.ackno ≠ A.pcb.lastack + 1)
    (hout : ∀ m ∈ out, (A.after mtu e).Sends .active m) : Shaking (A.after mtu e) B (wire ++ out) := by
  obtain ⟨a, hiss, hsyns⟩ := h.synsA
  have hsyns' : (A.after mtu e).pcb.SynsAt a := hsyns.exec e
  -- where the call leaves the end, in each of its phases
  have hphase : ((A.after mtu e).opened = false → (A.after mtu e).pcb.state = .closed ∨
        (A.after mtu e).pcb.Asking a) ∧
      ((A.after mtu e).opened = true → Snd.early (A.after mtu e).pcb.state = false ∧
        Agree (A.after mtu e) B) := by
    cases hopened : A.opened with
    | true =>
      have hlate := h.lateA hopened
      refine ⟨fun hno => ?_, fun _ => ⟨Snd.exec_late hlate e, ?_⟩⟩
      · rw [opened_mono hopened] at hno
        cases hno
      · obtain ⟨a', b, ha, hb, hrest⟩ := h.agree hopened
        exact ⟨a', b, ha, (End.after_irs (not_synSent_of_late hlate) e).trans hb, hrest⟩
    | false =>
      rcases h.asking hopened with hclosed | ⟨a', ha', hasking⟩
      · have hstill := Snd.exec_closed_state mtu hclosed e
        have hno : (A.after mtu e).opened = false := End.after_not_open hopened (by rw [hstill]; rfl)
        refine ⟨fun _ => .inl hstill, fun hyes => ?_⟩
        rw [hno] at hyes
        cases hyes
      · obtain rfl := Option.some.inj (ha'.symm.trans hiss)
        rcases hasking.exec mtu e with hasking' | hclosed | ⟨seg, rfl, hrst, hack, hsyn, hackno, hopen⟩
        · have hno : (A.after mtu e).opened = false :=
            End.after_not_open hopened (by rw [hasking'.state]; rfl)
          refine ⟨fun _ => .inr hasking', fun hyes => ?_⟩
          rw [hno] at hyes
          cases hyes
        · have hno : (A.after mtu e).opened = false := End.after_not_open hopened (by rw [hclosed]; rfl)
          refine ⟨fun _ => .inl hclosed, fun hyes => ?_⟩
          rw [hno] at hyes
          cases hyes
        · have hyes : (A.after mtu (.arrive seg)).opened = true := by
            show (A.opened || Snd.isOpen (A.pcb.exec mtu (.arrive seg)).state) = true
            rw [hopen]
            exact Bool.or_true _
          refine ⟨fun hno => ?_, fun _ => ⟨?_, ?_⟩⟩
          · rw [hyes] at hno
            cases hno
          · show Snd.early (A.pcb.exec mtu (.arrive seg)).state = false
            rw [hopen]
            rfl
          · -- the SYN-ACK is the one that answers the SYN
            obtain ⟨m, hm, hsrc, hshows⟩ := htaken
            obtain ⟨hmseqno, hmackno, hmsyn, hmack, hmrst⟩ := hshows
            have hhonest := h.wire m (hwire m hm)
            cases hcase : m.src with
            | active => exact absurd hcase hsrc
            | past =>
              refine absurd ?_ (hproper seg rfl m hm hcase hrst hack)
              rw [hackno, hasking.lastack]
            | passive =>
              obtain ⟨hb, hz⟩ := hhonest.passive hcase (hmrst.symm.trans hrst)
              have hb := hb (hmsyn.symm.trans hsyn)
              rcases hz (hmack.symm.trans hack) with hyes | ⟨z, hz, hmz⟩
              · rw [h.order hyes] at hopened
                cases hopened
              · obtain rfl : a' = z := by
                  have heq : a' + 1 = z + 1 := hackno.symm.trans (hmackno.trans hmz)
                  exact add_right_cancel heq
                refine ⟨a', m.seqno, hiss, ?_, hb, hz⟩
                show (if A.pcb.state = .synSent ∧ (A.pcb.exec mtu (.arrive seg)).state = .established then
                  some seg.seqno else A.irs) = some m.seqno
                rw [if_pos ⟨hasking.state, hopen⟩, hmseqno]
  obtain ⟨hasking', hopened'⟩ := hphase
  refine ⟨fun hno => ?_, h.answering, fun hyes => (hopened' hyes).1, h.lateB, ⟨a, hiss, hsyns'⟩, h.synsB,
    fun hyes => (hopened' hyes).2, fun hyes => opened_mono (h.order hyes) e, fun m hm => ?_⟩
  · exact (hasking' hno).imp_right fun hasking => ⟨a, hiss, hasking⟩
  · rcases List.mem_append.mp hm with hm | hm
    · obtain ⟨hactive, hpassive⟩ := h.wire m hm
      refine ⟨fun hsrc hrst => ⟨fun hack => ?_, (hactive hsrc hrst).2⟩, hpassive⟩
      exact opened_mono ((hactive hsrc hrst).1 hack) e
    · exact honest_active (fun hno => (hasking' hno).imp_right Snd.Asking.state) hiss hsyns' (hout m hm)

theorem Shaking.callPassive (h : Shaking A B wire) {e : Event α} (hstate : B.pcb.state ≠ .listen)
    (htaken : Takes .passive taken e) (hwire : ∀ m ∈ taken, m ∈ wire)
    (hproper : ∀ seg, e = .arrive seg → ∀ m ∈ taken, m.src = .past → seg.rst = false → seg.ack = true →
      tcpSeqBetween seg.ackno (B.pcb.lastack + 1) B.pcb.sndNxt = false)
    (hunused : B.pcb.state = .synRcvd → (∀ args data, e ≠ .write args data) ∧ ∀ env rst, e ≠ .close env rst)
    (hout : ∀ m ∈ out, (B.after mtu e).Sends .passive m) : Shaking A (B.after mtu e) (wire ++ out) := by
  obtain ⟨-, b, hiss, hsyns⟩ := h.synsB.resolve_left fun hboth => hstate hboth.1
  have hsyns' : (B.after mtu e).pcb.SynsAt b := hsyns.exec e
  have hirs : (B.after mtu e).irs = B.irs := by
    refine End.after_irs (fun hsent => ?_) e
    cases hopened : B.opened with
    | true => exact not_synSent_of_late (h.lateB hopened) hsent
    | false =>
      rcases h.answering hopened with hclosed | hlisten | ⟨z, -, hanswering⟩
      · rw [hsent] at hclosed
        cases hclosed
      · exact hstate hlisten
      · rw [hanswering.state] at hsent
        cases hsent
  have hphase : ((B.after mtu e).opened = false → (B.after mtu e).pcb.state = .closed ∨
        ∃ z, B.irs = some z ∧ (B.after mtu e).pcb.Answering z) ∧
      ((B.after mtu e).opened = true → Snd.early (B.after mtu e).pcb.state = false ∧ A.opened = true) := by
    cases hopened : B.opened with
    | true =>
      refine ⟨fun hno => ?_, fun _ => ⟨Snd.exec_late (h.lateB hopened) e, h.order hopened⟩⟩
      rw [opened_mono hopened] at hno
      cases hno
    | false =>
      rcases h.answering hopened with hclosed | hlisten | ⟨z, hz, hanswering⟩
      · have hstill := Snd.exec_closed_state mtu hclosed e
        have hno : (B.after mtu e).opened = false := End.after_not_open hopened (by rw [hstill]; rfl)
        refine ⟨fun _ => .inl hstill, fun hyes => ?_⟩
        rw [hno] at hyes
        cases hyes
      · exact absurd hlisten hstate
      · rcases hanswering.exec mtu (hunused hanswering.state) with
          hanswering' | hclosed | ⟨seg, rfl, hrst, hack, hbetween, hopen⟩
        · have hno : (B.after mtu e).opened = false :=
            End.after_not_open hopened (by rw [hanswering'.state]; rfl)
          refine ⟨fun _ => .inr ⟨z, hz, hanswering'⟩, fun hyes => ?_⟩
          rw [hno] at hyes
          cases hyes
        · have hno : (B.after mtu e).opened = false := End.after_not_open hopened (by rw [hclosed]; rfl)
          refine ⟨fun _ => .inl hclosed, fun hyes => ?_⟩
          rw [hno] at hyes
          cases hyes
        · have hyes : (B.after mtu (.arrive seg)).opened = true := by
            show (B.opened || Snd.isOpen (B.pcb.exec mtu (.arrive seg)).state) = true
            rw [hopen]
            exact Bool.or_true _
          refine ⟨fun hno => ?_, fun _ => ⟨?_, ?_⟩⟩
          · rw [hyes] at hno
            cases hno
          · show Snd.early (B.pcb.exec mtu (.arrive seg)).state = false
            revert hopen
            cases (B.pcb.exec mtu (.arrive seg)).state <;> decide
          · -- only the active end acknowledges, and only when it is open
            obtain ⟨m, hm, hsrc, hshows⟩ := htaken
            obtain ⟨-, -, -, hmack, hmrst⟩ := hshows
            cases hcase : m.src with
            | passive => exact absurd hcase hsrc
            | past =>
              rw [hproper seg rfl m hm hcase hrst hack] at hbetween
              cases hbetween
            | active =>
              have hhonest := (h.wire m (hwire m hm)).active hcase (hmrst.symm.trans hrst)
              exact hhonest.1 (hmack.symm.trans hack)
  obtain ⟨hanswering', hopened'⟩ := hphase
  have hactual : (B.after mtu e).pcb.state ≠ .listen := by
    intro hlisten
    cases hcase : (B.after mtu e).opened with
    | true =>
      have hlate := (hopened' hcase).1
      rw [hlisten] at hlate
      cases hlate
    | false =>
      rcases hanswering' hcase with hclosed | ⟨z, -, hanswering⟩
      · rw [hlisten] at hclosed
        cases hclosed
      · rw [hanswering.state] at hlisten
        cases hlisten
  refine ⟨h.asking, fun hno => ?_, h.lateA, fun hyes => (hopened' hyes).1, h.synsA,
    .inr ⟨hactual, b, hiss, hsyns'⟩, fun hyes => ?_, fun hyes => (hopened' hyes).2, fun m hm => ?_⟩
  · refine (hanswering' hno).imp_right fun hanswering => .inr ?_
    rwa [hirs]
  · obtain ⟨a, b', ha, hb, hb', hz⟩ := h.agree hyes
    exact ⟨a, b', ha, hb, hb', hirs.trans hz⟩
  · rcases List.mem_append.mp hm with hm | hm
    · obtain ⟨hactive, hpassive⟩ := h.wire m hm
      refine ⟨hactive, fun hsrc hrst => ⟨(hpassive hsrc hrst).1, fun hack => ?_⟩⟩
      refine ((hpassive hsrc hrst).2 hack).imp (fun hyes => opened_mono hyes e) fun hz => ?_
      rwa [hirs]
    · refine honest_passive (B := B.after mtu e) (fun hno => ?_) ⟨b, hiss, hsyns'⟩ (hout m hm)
      refine (hanswering' hno).imp_right fun hanswering => .inr ?_
      rwa [hirs]

theorem Shaking.listened (h : Shaking A B wire) (hstate : B.pcb.state = .listen) {seg : Incoming}
    {acked : Bool} (hout : ∀ m ∈ out, (End.listened (α := α) mtu iss seg acked).Sends .passive m) :
    Shaking A (.listened mtu iss seg acked) (wire ++ out) := by
  obtain ⟨-, hiss, hirs⟩ := h.synsB.resolve_right fun hboth => hboth.1 hstate
  have hfresh : A.opened = false := by
    refine Bool.eq_false_iff.mpr fun hyes => ?_
    obtain ⟨a, b, -, -, hb, -⟩ := h.agree hyes
    rw [hiss] at hb
    cases hb
  have hunopened : B.opened = false := Bool.eq_false_iff.mpr fun hyes => by
    rw [h.order hyes] at hfresh
    cases hfresh
  have hanswering := Snd.tcpListenInput_answering (α := α) mtu iss seg acked
  have hsyns := Snd.tcpListenInput_synsAt (α := α) mtu iss seg acked
  refine ⟨h.asking, fun _ => .inr (.inr ⟨_, rfl, hanswering⟩), h.lateA, nofun, h.synsA,
    .inr ⟨?_, iss, rfl, hsyns⟩, fun hyes => ?_, nofun, fun m hm => ?_⟩
  · intro hlisten
    cases hanswering.state.symm.trans hlisten
  · rw [hfresh] at hyes
    cases hyes
  · rcases List.mem_append.mp hm with hm | hm
    · -- nothing has been sent from here before
      obtain ⟨hactive, hpassive⟩ := h.wire m hm
      refine ⟨hactive, fun hsrc hrst => ⟨fun hsyn => ?_, fun hack => ?_⟩⟩
      · have hnone := (hpassive hsrc hrst).1 hsyn
        rw [hiss] at hnone
        cases hnone
      · rcases (hpassive hsrc hrst).2 hack with hyes | ⟨z, hz, -⟩
        · rw [hunopened] at hyes
          cases hyes
        · rw [hirs] at hz
          cases hz
    · exact honest_passive (B := End.listened mtu iss seg acked)
        (fun _ => .inr (.inr ⟨_, rfl, hanswering⟩)) ⟨iss, rfl, hsyns⟩ (hout m hm)

/-- Resets and what comes from elsewhere say nothing. -/
theorem Shaking.silent (h : Shaking A B wire)
    (hout : ∀ m ∈ out, m.src = .past ∨ m.rst = true) : Shaking A B (wire ++ out) := by
  refine { h with wire := fun m hm => ?_ }
  rcases List.mem_append.mp hm with hm | hm
  · exact h.wire m hm
  · rcases hout m hm with hsrc | hrst
    · exact ⟨fun hactive => absurd (hsrc.symm.trans hactive) nofun,
        fun hpassive => absurd (hsrc.symm.trans hpassive) nofun⟩
    · exact ⟨fun _ hno => absurd (hrst.symm.trans hno) nofun,
        fun _ hno => absurd (hrst.symm.trans hno) nofun⟩

theorem passive_ne_active : Role.passive ≠ Role.active := nofun

theorem shaking_reachable {net : Net Role (End α) Header}
    (h : (handshake α mtu).system.ReachableWhile Proper net) :
    Shaking (net.party .active) (net.party .passive) net.wire := by
  refine h.invariant (I := fun net => Shaking (net.party .active) (net.party .passive) net.wire) ?_ ?_
  · rintro net ⟨hparties, hwire⟩
    have hactive := hparties .active
    have hpassive := hparties .passive
    generalize net.party .active = A at hactive ⊢
    generalize net.party .passive = B at hpassive ⊢
    cases hactive with
    | active iss acked =>
      cases hpassive with
      | passive =>
        have hasking := Snd.tcpConnect_asking (α := α) mtu iss acked
        refine ⟨fun _ => .inr ⟨_, rfl, hasking⟩, fun _ => .inr (.inl rfl), nofun, nofun,
          ⟨_, rfl, Snd.tcpConnect_synsAt mtu iss acked⟩, .inl ⟨rfl, rfl, rfl⟩, nofun, nofun, ?_⟩
        · rw [hwire]
          exact fun m hm => absurd hm List.not_mem_nil
  · intro net act net' hshaking hproper hstep
    cases hstep with
    | @mk s' out hwire hlocal =>
      obtain ⟨who, taken, label⟩ := act
      obtain ⟨party, wire⟩ := net
      dsimp only at hshaking hwire hlocal ⊢
      cases hlocal with
      | @call _ _ _ e _ hi hstate htaken hout =>
        cases who with
        | past => exact absurd rfl hi
        | active =>
          rw [Function.update_self, Function.update_of_ne passive_ne_active]
          refine hshaking.callActive htaken hwire ?_ hout
          rintro seg rfl m hm hsrc hrst hack
          exact (hproper m hm hsrc hrst hack).1
        | passive =>
          rw [Function.update_self, Function.update_of_ne passive_ne_active.symm]
          refine hshaking.callPassive hstate htaken hwire ?_ (fun hsyn => ⟨?_, ?_⟩) hout
          · rintro seg rfl m hm hsrc hrst hack
            exact (hproper m hm hsrc hrst hack).2
          · rintro args data rfl
            exact hproper hsyn
          · rintro env rst rfl
            exact hproper hsyn
      | syn hstate _ _ _ _ _ hout =>
        rw [Function.update_self, Function.update_of_ne passive_ne_active.symm]
        exact hshaking.listened hstate hout
      | refused _ _ _ hout =>
        rw [Function.update_eq_self]
        exact hshaking.silent fun m hm => .inr (hout m hm).2
      | past hout =>
        rw [Function.update_eq_self]
        exact hshaking.silent fun m hm => .inl (hout m hm)

/-- The three segments of a handshake -/
def synHeader : Header := { src := .active, seqno := 6, ackno := 0, syn := true, ack := false }
def synAckHeader : Header := { src := .passive, seqno := 100, ackno := 7, syn := true }
def ackHeader : Header := { src := .active, seqno := 7, ackno := 101 }

def Header.incoming (m : Header) : Incoming where
  seqno := m.seqno
  ackno := m.ackno
  wnd := 4096
  syn := m.syn
  ack := m.ack
  rst := m.rst
  wnd_lt := tcpWnd_lt

theorem Header.shows_incoming (m : Header) : m.Shows m.incoming := ⟨rfl, rfl, rfl, rfl, rfl⟩

/-- The active end before and after the SYN-ACK -/
def connectingEnd : End Bool := { pcb := .tcpConnect none 7 true, iss := some 6 }
def askingEnd : End Bool := connectingEnd.after none (.output true)
def openEnd : End Bool := askingEnd.after none (.arrive synAckHeader.incoming)

/-- The passive end before and after the ACK -/
def answeringEnd : End Bool := .listened none 100 synHeader.incoming true
def acceptedEnd : End Bool := answeringEnd.after none (.arrive ackHeader.incoming)

theorem askingEnd_sends : askingEnd.Sends .active synHeader :=
  ⟨rfl, .inr ⟨by decide, by decide, fun _ => by decide, by decide, nofun⟩⟩

theorem answeringEnd_sends : answeringEnd.Sends .passive synAckHeader :=
  ⟨rfl, .inr ⟨by decide, by decide, fun _ => by decide, by decide, fun _ => by decide⟩⟩

theorem openEnd_sends : openEnd.Sends .active ackHeader :=
  ⟨rfl, .inr ⟨by decide, by decide, nofun, by decide, fun _ => by decide⟩⟩

def ends (A B : End Bool) : Role → End Bool
  | .active => A
  | .passive => B
  | .past => {}

/-- A call at one of the ends. -/
theorem step_ends (A B : End Bool) {C : End Bool} (wire : List Header) (who : Role)
    (taken : Option Header) (e : Event Bool) (hwho : who ≠ .past) (hC : C = ends A B who)
    (hstate : C.pcb.state ≠ .listen) (htaken : Takes who taken e) (hwire : ∀ m ∈ taken, m ∈ wire)
    (hout : ∀ m ∈ out, (C.after none e).Sends who m) :
    (handshake Bool none).Step ⟨ends A B, wire⟩ ⟨who, taken, .pcb e⟩
      ⟨Function.update (ends A B) who (C.after none e), wire ++ out⟩ := by
  subst hC
  exact .mk hwire (End.Step.call hwho hstate htaken hout)

end QuietLwip.Sender
