import QuietLwip.Foundation.Transition
import QuietLwip.Sender.Enqueue
import QuietLwip.Tcp.Timers

/-!
# Acknowledgements and the states of a connection

What a segment does to the sending half: the window update, duplicate acknowledgements, the removal
of what has been acknowledged, and the moves of `tcp_process`. What `tcp_receive` makes of the text
of the segment comes with it.
-/

namespace QuietLwip.Sender

open Serial Word Tcp QuietLwip.Stream Transition

/-- A segment that arrives, with what the receiving half makes of it: `TF_GOT_FIN` and where it
leaves `rcv_nxt` and `rcv_wnd`. `mss` is the last MSS option; `accepted` is what the accept callback
returns. -/
structure Incoming where
  seqno : Seq
  ackno : Seq
  wnd : ℕ
  tcplen : ℕ := 0
  rst : Bool := false
  syn : Bool := false
  ack : Bool := true
  mss : Option ℕ := none
  gotFin : Bool := false
  rcvNxt : Seq := seqno
  rcvWnd : ℕ := tcpWnd
  accepted : Bool := true
  wnd_lt : wnd < 65536

/-- What a call for the pcb finds: memory for a segment and for an acknowledgement, and text that the
application has not taken. -/
structure CallEnv where
  memory : Bool := true
  acked : Bool := true
  unread : Bool := false
  deriving DecidableEq, Repr

/-- `tcp_eff_send_mss`; without a route or an MTU there is no limit. -/
def tcpEffSendMss (mtu : Option ℕ) (sendmss : ℕ) : ℕ :=
  match mtu with
  | none => sendmss
  | some mtu => if mtu = 0 then sendmss else min sendmss (u16 ((mtu : ℤ) - 40))

/-- The value of an MSS option, as `tcp_parseopt` takes it. -/
def takenMss (mss : ℕ) : ℕ := if tcpMss < mss ∨ mss = 0 then tcpMss else mss

namespace Snd

variable {α : Type*}

/-- `tcp_parseopt` -/
def tcpParseopt (mss : Option ℕ) (pcb : Snd α) : Snd α :=
  match mss with
  | some mss => { pcb with mss := takenMss mss }
  | none => pcb

/-! ### Acknowledgements -/

/-- The segment may update the window. -/
def UpdatesWindow (seg : Incoming) (pcb : Snd α) : Prop :=
  tcpSeqLt pcb.sndWl1 seg.seqno = true ∨
    pcb.sndWl1 = seg.seqno ∧ tcpSeqLt pcb.sndWl2 seg.ackno = true ∨
    pcb.sndWl2 = seg.ackno ∧ pcb.sndWnd < seg.wnd

instance (seg : Incoming) (pcb : Snd α) : Decidable (pcb.UpdatesWindow seg) :=
  inferInstanceAs (Decidable (_ ∨ _))

/-- The window update, which starts and stops the persist timer. -/
def updateWindow (seg : Incoming) (pcb : Snd α) : Snd α :=
  if pcb.UpdatesWindow seg then
    { pcb with
      sndWnd := seg.wnd
      sndWndMax := max pcb.sndWndMax seg.wnd
      sndWl1 := seg.seqno
      sndWl2 := seg.ackno
      persistCnt := if seg.wnd = 0 ∧ pcb.persistBackoff = 0 then 0 else pcb.persistCnt
      persistBackoff :=
        if seg.wnd = 0 then if pcb.persistBackoff = 0 then 1 else pcb.persistBackoff else 0 }
  else pcb

/-- The right edge of the window that has been offered. -/
def rightWndEdge (pcb : Snd α) : Seq := (pcb.sndWnd : Seq) + pcb.sndWl2

/-- `cwnd` grows by a segment, unless that overflows. -/
def inflate (pcb : Snd α) : Snd α :=
  if pcb.cwnd < u16 (pcb.cwnd + pcb.mss) then { pcb with cwnd := u16 (pcb.cwnd + pcb.mss) } else pcb

/-- `dupacks` stops at 255. -/
def countDupack (dupacks : ℕ) : ℕ := if dupacks < u8 (dupacks + 1) then dupacks + 1 else dupacks

/-- An acknowledgement of nothing new; the right edge of the window before was `edge`. -/
def ackOld (edge : Seq) (seg : Incoming) (pcb : Snd α) : Snd α :=
  let pcb := { pcb with acked := 0 }
  if seg.tcplen = 0 ∧ pcb.rightWndEdge = edge ∧ 0 ≤ pcb.rtime ∧ pcb.lastack = seg.ackno then
    let pcb := { pcb with dupacks := countDupack pcb.dupacks }
    if 3 < pcb.dupacks then pcb.inflate
    else if pcb.dupacks = 3 then pcb.tcpRexmitFast
    else pcb
  else { pcb with dupacks := 0 }

/-- Congestion control when new data has been acknowledged. -/
def growCwnd (pcb : Snd α) : Snd α :=
  if pcb.cwnd < pcb.ssthresh then pcb.inflate
  else
    let newCwnd := u16 (pcb.cwnd + pcb.mss * pcb.mss / pcb.cwnd)
    if pcb.cwnd < newCwnd then { pcb with cwnd := newCwnd } else pcb

/-- A segment is off the queues; its FIN is not reported as sent. -/
def release (seg : OutSeg α) (pcb : Snd α) : Snd α :=
  { pcb with
    acked := if pcb.acked ≠ 0 ∧ seg.fin = true then pcb.acked - 1 else pcb.acked
    sndQueuelen := u16 ((pcb.sndQueuelen : ℤ) - seg.clen) }

/-- The loop over `unacked`. -/
def freeUnacked (ackno : Seq) : List (OutSeg α) → Snd α → Snd α
  | [], pcb => { pcb with unacked := [] }
  | seg :: rest, pcb =>
    if tcpSeqLeq (seg.seqno + (seg.tcplen : Seq)) ackno then
      freeUnacked ackno rest (pcb.release seg)
    else { pcb with unacked := seg :: rest }

/-- `TF_INFR` is reset, and `cwnd` with it. -/
def leaveRecovery (pcb : Snd α) : Snd α :=
  if pcb.infr then { pcb with infr := false, cwnd := pcb.ssthresh } else pcb

/-- The counters after an acknowledgement of something new. -/
def countAcked (ackno : Seq) (pcb : Snd α) : Snd α :=
  let acked := u16 (ackno - pcb.lastack).toNat
  { pcb with
    nrtx := 0, acked := acked, sndBuf := u16 (pcb.sndBuf + acked), dupacks := 0, lastack := ackno }

/-- An acknowledgement of something new. -/
def ackNew (ackno : Seq) (pcb : Snd α) : Snd α :=
  let pcb := (pcb.leaveRecovery.countAcked ackno).growCwnd
  let pcb := freeUnacked ackno pcb.unacked pcb
  { pcb with rtime := if pcb.unacked = [] then -1 else 0 }

/-- The loop over `unsent`, where segments that have been sent before may wait again. -/
def freeUnsent (ackno : Seq) : List (OutSeg α) → Snd α → Snd α
  | [], pcb => { pcb with unsent := [] }
  | seg :: rest, pcb =>
    if tcpSeqBetween ackno (seg.seqno + (seg.tcplen : Seq)) pcb.sndNxt then
      freeUnsent ackno rest ({ pcb with
        unsentOversize := if rest = [] then 0 else pcb.unsentOversize }.release seg)
    else { pcb with unsent := seg :: rest }

/-- The part of `tcp_receive` for a segment with `ACK`. -/
def receiveAck (seg : Incoming) (pcb : Snd α) : Snd α :=
  let edge := pcb.rightWndEdge
  let pcb := pcb.updateWindow seg
  let pcb :=
    if tcpSeqLeq seg.ackno pcb.lastack then pcb.ackOld edge seg
    else if tcpSeqBetween seg.ackno (pcb.lastack + 1) pcb.sndNxt then pcb.ackNew seg.ackno
    else { pcb with acked := 0 }
  freeUnsent seg.ackno pcb.unsent pcb

/-- `tcp_receive` -/
def tcpReceive (seg : Incoming) (pcb : Snd α) : Snd α :=
  { (if seg.ack then pcb.receiveAck seg else pcb) with rcvNxt := seg.rcvNxt, rcvWnd := seg.rcvWnd }

/-! ### The states -/

/-- `tcp_pcb_purge`, and the move to a state in which nothing is sent -/
def leave (state : TcpState) (pcb : Snd α) : Snd α :=
  { pcb with state := state, unsent := [], unacked := [], unsentOversize := 0, rtime := -1 }

/-- `SYN_SENT`: a SYN-ACK for the SYN that is first on `unacked`. -/
def synAcked (mtu : Option ℕ) (seg : Incoming) (unacked : List (OutSeg α)) (pcb : Snd α) : Snd α :=
  let mss := tcpEffSendMss mtu pcb.mss
  { pcb with
    sndBuf := pcb.sndBuf + 1
    rcvNxt := seg.seqno + 1
    lastack := seg.ackno
    sndWnd := seg.wnd
    sndWndMax := seg.wnd
    sndWl1 := seg.seqno - 1
    state := .established
    mss := mss
    ssthresh := u16 (mss * 10)
    cwnd := if pcb.cwnd = 1 then u16 (mss * 2) else mss
    sndQueuelen := pcb.sndQueuelen - 1
    unacked := unacked
    rtime := if unacked = [] then -1 else 0
    nrtx := if unacked = [] then pcb.nrtx else 0
    ackNow := true }

/-- `SYN_RCVD`: the acknowledgement of the SYN-ACK. -/
def accept (seg : Incoming) (pcb : Snd α) : Snd α :=
  let received := { pcb with state := .established }.tcpReceive seg
  let opened := { received with
    acked := received.acked - 1
    cwnd := if pcb.cwnd = 1 then u16 (received.mss * 2) else received.mss }
  if seg.gotFin then { opened with ackNow := true, state := .closeWait } else opened

/-- The FIN is taken for acknowledged. -/
def finAcked (seg : Incoming) (pcb : Snd α) : Bool := seg.ack && seg.ackno == pcb.sndNxt

/-- `tcp_process` from `tcp_parseopt` on. -/
def processState (mtu : Option ℕ) (seg : Incoming) (pcb : Snd α) : Snd α :=
  match pcb.state with
  | .synSent =>
    match pcb.unacked with
    | [] => pcb
    | rseg :: unacked =>
      if seg.ack = true ∧ seg.syn = true ∧ seg.ackno = rseg.seqno + 1 then
        pcb.synAcked mtu seg unacked
      else pcb
  | .synRcvd =>
    if seg.ack then
      if tcpSeqBetween seg.ackno (pcb.lastack + 1) pcb.sndNxt then
        if seg.accepted then pcb.accept seg else pcb.leave .closed
      else pcb
    else if seg.syn = true ∧ seg.seqno = pcb.rcvNxt - 1 then pcb.tcpRexmit
    else pcb
  | .established | .closeWait =>
    let pcb := pcb.tcpReceive seg
    if seg.gotFin then { pcb with ackNow := true, state := .closeWait } else pcb
  | .finWait1 =>
    let pcb := pcb.tcpReceive seg
    if seg.gotFin then
      if pcb.finAcked seg then { pcb with ackNow := true }.leave .timeWait
      else { pcb with ackNow := true, state := .closing }
    else if pcb.finAcked seg then { pcb with state := .finWait2 }
    else pcb
  | .finWait2 =>
    let pcb := pcb.tcpReceive seg
    if seg.gotFin then { pcb with ackNow := true }.leave .timeWait else pcb
  | .closing =>
    let pcb := pcb.tcpReceive seg
    if pcb.finAcked seg then pcb.leave .timeWait else pcb
  | .lastAck =>
    let pcb := pcb.tcpReceive seg
    if pcb.finAcked seg then pcb.leave .closed else pcb
  | _ => pcb

/-- An acceptable RST. -/
def resetAcceptable (seg : Incoming) (pcb : Snd α) : Bool :=
  if pcb.state = .synSent then seg.ackno == pcb.sndNxt
  else tcpSeqBetween seg.seqno pcb.rcvNxt (pcb.rcvNxt + pcb.rcvWnd)

/-- `tcp_process`, with the removal of a pcb that has been reset or closed. -/
def tcpProcess (mtu : Option ℕ) (seg : Incoming) (pcb : Snd α) : Snd α :=
  if seg.rst then if pcb.resetAcceptable seg then pcb.leave .closed else pcb
  else if seg.syn = true ∧ pcb.state ≠ .synSent ∧ pcb.state ≠ .synRcvd then
    { pcb with ackNow := true }
  else (pcb.tcpParseopt seg.mss).processState mtu seg

/-! ### The other calls -/

/-- The FIN is queued, and the state follows. -/
def sendFin (env : CallEnv) (state : TcpState) (pcb : Snd α) : Snd α :=
  let sent := pcb.tcpSendFin env.memory
  if sent.2 then { sent.1 with state := state }.tcpOutput env.acked else sent.1

/-- `tcp_close_shutdown`, for a pcb that is not listening; `rst` is `rst_on_unacked_data`. -/
def tcpCloseShutdown (env : CallEnv) (rst : Bool) (pcb : Snd α) : Snd α :=
  if rst = true ∧ (pcb.state = .established ∨ pcb.state = .closeWait) ∧ env.unread = true then
    pcb.leave (if pcb.state = .established then .timeWait else .closed)
  else
    match pcb.state with
    | .synSent => pcb.leave .closed
    | .synRcvd | .established => pcb.sendFin env .finWait1
    | .closeWait => pcb.sendFin env .lastAck
    | _ => pcb

/-- The persist timer. -/
def persist (pcb : Snd α) : Snd α :=
  let cnt := u8 (pcb.persistCnt + 1)
  if tcpPersistBackoff.getD (pcb.persistBackoff - 1) 0 ≤ cnt then
    { pcb with
      persistCnt := 0
      persistBackoff :=
        if pcb.persistBackoff < tcpPersistBackoff.length then pcb.persistBackoff + 1
        else pcb.persistBackoff }
  else { pcb with persistCnt := cnt }

/-- The retransmission timer has expired. -/
def retransmit (env : CallEnv) (pcb : Snd α) : Snd α :=
  { pcb with rtime := 0, ssthresh := pcb.halved pcb.wnd, cwnd := pcb.mss }.tcpRexmitRto env.acked

/-- `tcp_slowtmr` for the pcb. Whether `rtime` has reached `rto`, and whether the pcb has used up its
retries or has been in its state for too long, are answers. -/
def tcpSlowtmr (env : CallEnv) (expired remove : Bool) (pcb : Snd α) : Snd α :=
  if remove then pcb.leave .closed
  else if 0 < pcb.persistBackoff then pcb.persist
  else
    let pcb := { pcb with rtime := if 0 ≤ pcb.rtime then s16 (pcb.rtime + 1) else pcb.rtime }
    if pcb.unacked ≠ [] ∧ expired = true then pcb.retransmit env else pcb

/-! ### Opening -/

/-- A new pcb, as `tcp_connect` sets it up. -/
def connecting (mtu : Option ℕ) (iss : Seq) : Snd α where
  sndNxt := iss
  lastack := iss - 1
  sndLbb := iss - 1
  sndWnd := tcpWnd
  mss := tcpEffSendMss mtu 536
  ssthresh := u16 (tcpEffSendMss mtu 536 * 10)
  sndWl2 := iss

/-- `tcp_connect` for a new pcb. -/
def tcpConnect (mtu : Option ℕ) (iss : Seq) (acked : Bool) : Snd α :=
  let opened := (connecting mtu iss).tcpEnqueueFlags true true false
  { opened.1 with state := .synSent }.tcpOutput acked

/-- A new pcb, as `tcp_listen_input` sets it up for a SYN. -/
def created (mtu : Option ℕ) (iss : Seq) (seg : Incoming) : Snd α :=
  let npcb : Snd α := tcpParseopt seg.mss {
    state := .synRcvd
    sndNxt := iss
    lastack := iss
    sndLbb := iss
    sndWl2 := iss
    rcvNxt := seg.seqno + 1
    sndWnd := seg.wnd
    sndWndMax := seg.wnd
    ssthresh := seg.wnd
    sndWl1 := seg.seqno - 1 }
  { npcb with mss := tcpEffSendMss mtu npcb.mss }

/-- `tcp_listen_input` for a SYN: the new pcb. -/
def tcpListenInput (mtu : Option ℕ) (iss : Seq) (seg : Incoming) (acked : Bool) : Snd α :=
  let opened := (created mtu iss seg).tcpEnqueueFlags true true false
  opened.1.tcpOutput acked

end Snd

/-! ### Runs -/

/-- What happens to the sending half: a segment, a call of the application or of a timer, and an
acknowledgement that the receiving half wants to be sent. -/
inductive Event (α : Type*) where
  | arrive (seg : Incoming)
  | write (args : WriteArgs) (data : List α)
  | output (acked : Bool)
  | close (env : CallEnv) (rst : Bool)
  | slowtmr (env : CallEnv) (expired remove : Bool)
  | ackNow

variable {α : Type*}

/-- `tcp_process` and `tcp_slowtmr` see active pcbs only. -/
def Snd.exec (mtu : Option ℕ) (pcb : Snd α) : Event α → Snd α
  | .arrive seg => if pcb.state.isActive then pcb.tcpProcess mtu seg else pcb
  | .write args data => (pcb.tcpWrite args data).1
  | .output acked => pcb.tcpOutput acked
  | .close env rst => pcb.tcpCloseShutdown env rst
  | .slowtmr env expired remove =>
    if pcb.state.isActive then pcb.tcpSlowtmr env expired remove else pcb
  | .ackNow => { pcb with ackNow := true }

/-- One connection, from its SYN on, over an interface with the given MTU. -/
def sending (α : Type*) (mtu : Option ℕ) : System (Snd α) (Event α) where
  start pcb := (∃ iss acked, pcb = .tcpConnect mtu iss acked) ∨
    ∃ iss seg acked, pcb = .tcpListenInput mtu iss seg acked
  step pcb e pcb' := pcb' = pcb.exec mtu e

end QuietLwip.Sender
