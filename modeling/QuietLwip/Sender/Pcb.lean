import QuietLwip.Stream.Receive

/-!
# The sending half of a pcb

The queues `unsent` and `unacked`, the two windows, and the functions of `tcp_out.c` that move
segments between the queues. The estimate of the round-trip time is left out: whether `rtime` has
reached `rto` is an answer.
-/

namespace QuietLwip.Sender

open Serial Word Tcp QuietLwip.Stream

/-- `TCP_SND_BUF` and `TCP_SND_QUEUELEN` -/
def tcpSndBuf : ℕ := 2048
def tcpSndQueuelen : ℕ := 8

/-- A segment to send, with the number of its pbufs. -/
structure OutSeg (α : Type*) extends Seg α where
  clen : ℕ := 1
  deriving DecidableEq, Repr

/-- The fields of a `tcp_pcb` that sending concerns; the two of the receiving half are looked at when
a segment arrives. -/
structure Snd (α : Type*) where
  state : TcpState := .closed
  mss : ℕ := 536
  cwnd : ℕ := 1
  ssthresh : ℕ := 0
  sndWnd : ℕ := 0
  sndWndMax : ℕ := 0
  sndNxt : Seq := 0
  lastack : Seq := 0
  sndLbb : Seq := 0
  sndWl1 : Seq := 0
  sndWl2 : Seq := 0
  sndBuf : ℕ := tcpSndBuf
  sndQueuelen : ℕ := 0
  unsent : List (OutSeg α) := []
  unacked : List (OutSeg α) := []
  unsentOversize : ℕ := 0
  rtime : ℤ := -1
  nrtx : ℕ := 0
  dupacks : ℕ := 0
  acked : ℕ := 0
  persistCnt : ℕ := 0
  persistBackoff : ℕ := 0
  rcvNxt : Seq := 0
  rcvWnd : ℕ := tcpWnd
  -- `TF_INFR`, `TF_NAGLEMEMERR`, `TF_FIN`, `TF_NODELAY`, `TF_ACK_NOW`
  infr : Bool := false
  nagleMemErr : Bool := false
  finQueued : Bool := false
  nodelay : Bool := false
  ackNow : Bool := false
  deriving DecidableEq, Repr

namespace Snd

variable {α : Type*}

/-! ### Output -/

/-- `tcp_do_output_nagle`, where `unsent` is `seg :: rest`. -/
def tcpDoOutputNagle (seg : OutSeg α) (rest : List (OutSeg α)) (pcb : Snd α) : Bool :=
  pcb.unacked.isEmpty || pcb.nodelay || pcb.infr || !rest.isEmpty || decide (pcb.mss ≤ seg.len) ||
    pcb.sndBuf == 0 || decide (tcpSndQueuelen ≤ pcb.sndQueuelen)

/-- `min(snd_wnd, cwnd)` -/
def wnd (pcb : Snd α) : ℕ := min pcb.sndWnd pcb.cwnd

/-- The window allows the segment to be sent. -/
def fits (seg : OutSeg α) (pcb : Snd α) : Bool :=
  decide ((seg.seqno - pcb.lastack + (seg.len : Seq)).toNat ≤ pcb.wnd)

end Snd

variable {α : Type*}

/-- A segment is put in front of the first one that is not before it. -/
def insertBySeqno (seg : OutSeg α) : List (OutSeg α) → List (OutSeg α)
  | [] => [seg]
  | cur :: rest =>
    if tcpSeqLt cur.seqno seg.seqno then cur :: insertBySeqno seg rest else seg :: cur :: rest

/-- A segment that has been sent is put on `unacked`. -/
def pushUnacked (seg : OutSeg α) (unacked : List (OutSeg α)) : List (OutSeg α) :=
  match unacked.getLast? with
  | none => [seg]
  | some useg =>
    if tcpSeqLt seg.seqno useg.seqno then insertBySeqno seg unacked else unacked ++ [seg]

namespace Snd

/-- `tcp_output_segment`, and what `tcp_output` does with the segment afterwards. -/
def outputSegment (seg : OutSeg α) (pcb : Snd α) : Snd α :=
  let sndNxt := seg.seqno + (seg.tcplen : Seq)
  { pcb with
    ackNow := if pcb.state = .synSent then pcb.ackNow else false
    rtime := if pcb.rtime = -1 then 0 else pcb.rtime
    sndNxt := if tcpSeqLt pcb.sndNxt sndNxt then sndNxt else pcb.sndNxt
    unacked := if 0 < seg.tcplen then pushUnacked seg pcb.unacked else pcb.unacked }

/-- The loop of `tcp_output`; the list is what is left of `unsent`. -/
def outputLoop : List (OutSeg α) → Snd α → Snd α
  | [], pcb => { pcb with unsent := [], unsentOversize := 0, nagleMemErr := false }
  | seg :: rest, pcb =>
    if pcb.fits seg && (pcb.tcpDoOutputNagle seg rest || pcb.nagleMemErr || pcb.finQueued) then
      outputLoop rest (pcb.outputSegment seg)
    else { pcb with unsent := seg :: rest, nagleMemErr := false }

/-- Nothing can be sent with the acknowledgement that is due. -/
def onlyAck (pcb : Snd α) : Bool :=
  pcb.ackNow && match pcb.unsent with
    | [] => true
    | seg :: _ => !pcb.fits seg

/-- `tcp_output`, not from within `tcp_input`; `tcp_send_empty_ack` may find no memory. -/
def tcpOutput (acked : Bool) (pcb : Snd α) : Snd α :=
  if pcb.onlyAck then { pcb with ackNow := !acked }
  else outputLoop pcb.unsent pcb

/-! ### Retransmission -/

/-- `tcp_rexmit_rto`, from a timer -/
def tcpRexmitRto (acked : Bool) (pcb : Snd α) : Snd α :=
  match pcb.unacked with
  | [] => pcb
  | seg :: rest =>
    tcpOutput acked { pcb with
      unsent := (seg :: rest) ++ pcb.unsent, unacked := [], nrtx := u8 (pcb.nrtx + 1) }

/-- `tcp_rexmit` -/
def tcpRexmit (pcb : Snd α) : Snd α :=
  match pcb.unacked with
  | [] => pcb
  | seg :: rest =>
    { pcb with
      unacked := rest
      unsent := insertBySeqno seg pcb.unsent
      unsentOversize :=
        if pcb.unsent.all fun cur => tcpSeqLt cur.seqno seg.seqno then 0 else pcb.unsentOversize
      nrtx := u8 (pcb.nrtx + 1) }

/-- `ssthresh` after a loss, for a window of `wnd` bytes -/
def halved (wnd : ℕ) (pcb : Snd α) : ℕ :=
  if wnd / 2 < 2 * pcb.mss then u16 (2 * pcb.mss) else wnd / 2

/-- `tcp_rexmit_fast` -/
def tcpRexmitFast (pcb : Snd α) : Snd α :=
  if pcb.unacked ≠ [] ∧ pcb.infr = false then
    let ssthresh := pcb.halved pcb.wnd
    { pcb.tcpRexmit with
      ssthresh := ssthresh, cwnd := u16 (ssthresh + 3 * pcb.mss), infr := true }
  else pcb

/-! ### Queueing -/

/-- `tcp_enqueue_flags`; the answer is whether there was memory. -/
def tcpEnqueueFlags (memory syn fin : Bool) (pcb : Snd α) : Snd α × Bool :=
  if tcpSndQueuelen ≤ pcb.sndQueuelen then ({ pcb with nagleMemErr := true }, false)
  else if pcb.sndBuf = 0 then (pcb, false)
  else if memory = false then ({ pcb with nagleMemErr := true }, false)
  else
    ({ pcb with
      unsent := pcb.unsent ++ [{ seqno := pcb.sndLbb, len := 0, p := [], syn := syn, fin := fin }]
      unsentOversize := 0
      sndLbb := pcb.sndLbb + 1
      sndBuf := pcb.sndBuf - 1
      finQueued := pcb.finQueued || fin
      sndQueuelen := pcb.sndQueuelen + 1 }, true)

/-- The last segment of a queue, and what is in front of it. -/
def unsnoc {β : Type*} (queue : List β) : Option (List β × β) :=
  match queue.getLast? with
  | none => none
  | some last => some (queue.dropLast, last)

/-- `tcp_send_fin` -/
def tcpSendFin (memory : Bool) (pcb : Snd α) : Snd α × Bool :=
  match unsnoc pcb.unsent with
  | some (front, last) =>
    if last.syn || last.fin then pcb.tcpEnqueueFlags memory false true
    else ({ pcb with unsent := front ++ [{ last with fin := true }], finQueued := true }, true)
  | none => pcb.tcpEnqueueFlags memory false true

end Snd

end QuietLwip.Sender
