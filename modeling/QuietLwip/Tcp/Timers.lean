import QuietLwip.Tcp.Api

/-!
# The timers of TCP

`tcp_tmr` runs `tcp_fasttmr` and, every other time, `tcp_slowtmr`. Both walk the active pcbs and
call the application back on the way. A timer is cut into the turns of its loops here: between
two turns, and in a callback, the walk is where an `Activity` says.
-/

namespace QuietLwip.Tcp

open Word

/-- What a callback returns. -/
inductive Err where
  | ok | abrt | other
  deriving DecidableEq

/-- The places where `tcp_input` calls the application back. -/
inductive InputPoint where
  -- refused data is offered again, with its `PBUF_FLAG_TCP_FIN`
  | refused (fin : Bool)
  | refusedClosed
  | connected
  | accept
  -- the error callbacks for a reset and for a connection that has been closed
  | reset
  | closed
  | sent
  | recv
  | gotFin
  -- the error callback of `tcp_abort`, after which nothing is left to do
  | aborted
  deriving DecidableEq

/-- A segment, as far as the pcbs and their lists depend on it. The tests on sequence numbers
and what `tcp_receive` makes of the data are answers that come with it. -/
structure Segment where
  src : ℕ
  dest : ℕ
  srcIp : ℕ
  destIp : ℕ
  rst : Bool
  syn : Bool
  ack : Bool
  fin : Bool
  -- `tcplen > 0`
  tcplen : Bool
  -- the sequence number of a `RST` is acceptable
  acceptable : Bool
  -- the acknowledgement is the one that the state of the connection waits for
  ackno : Bool
  -- `TF_GOT_FIN`, `recv_data != NULL` and `acked > 0` after `tcp_receive`
  gotFin : Bool
  data : Bool
  acked : Bool
  -- what `tcp_receive`, `tcp_parseopt` and `tcp_rexmit` leave of the connection
  received : Conn → Conn

/-- What the thread of the stack is doing. -/
inductive Activity where
  | idle
  -- `tcp_fasttmr` in front of `pcb`, and in its two callbacks
  | fast (pcb : Option ℕ)
  | fastRecv (pcb : ℕ) (fin : Bool) (next : Option ℕ)
  | fastClosed (next : Option ℕ)
  -- `tcp_slowtmr` in front of `pcb`, and in its two callbacks
  | slow (prev pcb : Option ℕ)
  | slowErr (prev pcb : Option ℕ)
  | slowPoll (prev : ℕ) (pcb : Option ℕ)
  -- its second loop
  | timeWait (prev pcb : Option ℕ)
  -- `tcp_input` in a callback for `pcb`
  | input (point : InputPoint) (pcb : ℕ) (seg : Segment)
  -- `tcp_listen_input` waits for the error callback in `tcp_alloc`
  | accepting (lpcb prio : ℕ) (seg : Segment)

/-! ### The work of the timers -/

/-- The delayed acknowledgement. -/
def Conn.sendDelayed (env : Env) (conn : Conn) : Conn :=
  if conn.ackDelay then
    { conn.tcpAckNow.tcpOutput env with ackDelay := false, ackNow := false }
  else conn

def tcpBackoff : List ℕ := [1, 2, 3, 4, 5, 6, 7, 7, 7, 7, 7, 7, 7]

def tcpPersistBackoff : List ℕ := [3, 6, 12, 24, 48, 96, 120]

/-- `tcp_rexmit_rto`. -/
def Conn.tcpRexmitRto (env : Env) (conn : Conn) : Conn :=
  if conn.unacked then
    Conn.tcpOutput env { conn with unacked := false, nrtx := u8 (conn.nrtx + 1) }
  else conn

def Conn.persist (conn : Conn) : Conn :=
  let cnt := u8 (conn.persistCnt + 1)
  if tcpPersistBackoff.getD (conn.persistBackoff - 1) 0 ≤ cnt then
    { conn with
      persistCnt := 0
      persistBackoff :=
        if conn.persistBackoff < tcpPersistBackoff.length then conn.persistBackoff + 1
        else conn.persistBackoff }
  else { conn with persistCnt := cnt }

/-- The retransmission, when its time has come. -/
def Conn.retransmit (env : Env) (state : TcpState) (conn : Conn) : Conn :=
  let rto :=
    if state = .synSent then conn.rto
    else s16 ((conn.sa / 8 + conn.sv) * 2 ^ tcpBackoff.getD conn.nrtx 0)
  let ssthresh := min conn.cwnd conn.sndWnd / 2
  Conn.tcpRexmitRto env
    { conn with
      rto := rto
      rtime := 0
      ssthresh := if ssthresh < conn.mss * 2 then u16 (conn.mss * 2) else ssthresh
      cwnd := conn.mss }

def Conn.slowRetransmit (env : Env) (state : TcpState) (conn : Conn) : Conn :=
  if 0 < conn.persistBackoff then conn.persist
  else
    let conn := { conn with rtime := if 0 ≤ conn.rtime then s16 (conn.rtime + 1) else conn.rtime }
    if conn.unacked ∧ conn.rto ≤ conn.rtime then conn.retransmit env state else conn

/-- The retries of the connection are used up. -/
def TcpPcb.retried (pcb : TcpPcb) : Bool :=
  (pcb.state == .synSent && pcb.conn.nrtx == 6) || pcb.conn.nrtx == 12

def TcpPcb.keepsAlive (pcb : TcpPcb) : Bool :=
  pcb.conn.keepalive && (pcb.state == .established || pcb.state == .closeWait)

def TcpPcb.keepaliveOver (pcb : TcpPcb) (age : ℕ) : Bool :=
  pcb.keepsAlive && decide ((pcb.conn.keepIdle + 9 * 75000) / 500 < age)

/-- The pcb after the retransmission or the persist timer. -/
def TcpPcb.retransmitted (env : Env) (pcb : TcpPcb) : TcpPcb :=
  if pcb.retried then pcb
  else { pcb with conn := pcb.conn.slowRetransmit env pcb.state }

/-- Whether the pcb has been in one of its states for too long; `pcb_remove`. -/
def TcpPcb.due (env : Env) (pcb : TcpPcb) (age : ℕ) : Bool :=
  pcb.retried ||
    (pcb.state == .finWait2 && (pcb.retransmitted env).conn.rxClosed && decide (40 < age)) ||
    (pcb.retransmitted env).keepaliveOver age ||
    (pcb.state == .synRcvd && decide (40 < age)) ||
    (pcb.state == .lastAck && decide (240 < age))

/-- The keepalive probe and the drop of old out-of-sequence data. -/
def Conn.slowKeep (keeps timedOut : Bool) (age : ℕ) (conn : Conn) : Conn :=
  let conn :=
    if keeps && !timedOut && decide ((conn.keepIdle + conn.keepCntSent * 75000) / 500 < age) then
      { conn with keepCntSent := u8 (conn.keepCntSent + 1) }
    else conn
  if conn.ooseq ∧ u32 (conn.rto * 6) ≤ age then { conn with ooseq := false } else conn

/-- The pcb after the work of the slow timer. -/
def TcpPcb.slowWork (env : Env) (pcb : TcpPcb) (age : ℕ) : TcpPcb :=
  let worked := pcb.retransmitted env
  { worked with
    conn := worked.conn.slowKeep worked.keepsAlive (worked.keepaliveOver age) age }

/-- A pcb stays in `TIME_WAIT` for twice `TCP_MSL`. -/
def timeWaitOver (age : ℕ) : Bool := decide (240 < age)

namespace Stack

/-! ### The turns of the loops -/

def tcpTmr (t : Stack) : Stack × Activity :=
  ({ t with timerCtr := u8 (t.timerCtr + 1) }, .fast (t.lists.head .active))

/-- `tcp_process_refused_data` up to its first callback. -/
def takeRefused (n : ℕ) (t : Stack) : Stack :=
  t.modifyConn n fun conn => { conn with refusedData := none }

/-- The `FIN` behind refused data takes a byte of the window. -/
def correctWnd (n : ℕ) (t : Stack) : Stack :=
  t.modifyConn n fun conn =>
    { conn with rcvWnd := if conn.rcvWnd = tcpWnd then conn.rcvWnd else u16 (conn.rcvWnd + 1) }

def keepRefused (n : ℕ) (fin : Bool) (t : Stack) : Stack :=
  t.modifyConn n fun conn => { conn with refusedData := some fin }

def fastWork (env : Env) (n : ℕ) (t : Stack) : Stack :=
  t.modify n fun pcb =>
    { pcb with lastTimer := t.timerCtr, conn := pcb.conn.sendDelayed env }

/-- `tcp_fasttmr` goes on with `next`, or starts again. -/
def fastNext (next : Option ℕ) (t : Stack) : Activity :=
  if t.changed then .fast (t.lists.head .active) else .fast next

/-- One turn of the loop of `tcp_fasttmr`, for the pcb `n`. -/
def fastTurn (env : Env) (n : ℕ) (t : Stack) : Stack × Activity :=
  if (t.pcb n).lastTimer = t.timerCtr then (t, .fast (some n))
  else
    let t := t.fastWork env n
    match (t.pcb n).conn.refusedData with
    | some fin => ({ t.takeRefused n with changed := false }, .fastRecv n fin (t.lists.next n))
    | none => (t, .fast (t.lists.next n))

/-- `tcp_tmr` after `tcp_fasttmr`. -/
def fastEnd (t : Stack) : Stack × Activity :=
  let t := { t with timer := u8 (t.timer + 1) }
  if t.timer % 2 = 1 then
    ({ t with ticks := u32 (t.ticks + 1), timerCtr := u8 (t.timerCtr + 1) },
      .slow none (t.lists.head .active))
  else (t, .idle)

/-- `tcp_slowtmr` goes on with `pcb`, or starts again. -/
def slowNext (prev pcb : Option ℕ) (t : Stack) : Activity :=
  if t.changed then .slow none (t.lists.head .active) else .slow prev pcb

/-- The assertion in front of unlinking a pcb. -/
def unlinkAssert (t : Stack) (w : PcbList) (prev : Option ℕ) (n : ℕ) : Bool :=
  if prev.isSome then t.lists.head w ≠ some n else t.lists.head w = some n

/-- `pcb_remove`. -/
def slowRemove (prev : Option ℕ) (n : ℕ) (t : Stack) : Option (Stack × Activity) :=
  if t.unlinkAssert .active prev n then
    let t := { t.modify n TcpPcb.purge with lists := t.lists.unlink .active prev n }
    some ({ t.free n with changed := false }, .slowErr prev (t.lists.next n))
  else none

/-- The poll timer. -/
def slowPolled (n : ℕ) (t : Stack) : Stack × Activity :=
  let polltmr := u8 ((t.pcb n).conn.polltmr + 1)
  if (t.pcb n).conn.pollinterval ≤ polltmr then
    ({ t.modifyConn n fun conn => { conn with polltmr := 0 } with changed := false },
      .slowPoll n (t.lists.next n))
  else
    (t.modifyConn n fun conn => { conn with polltmr := polltmr },
      .slow (some n) (t.lists.next n))

def slowWorked (env : Env) (n : ℕ) (t : Stack) : Stack :=
  t.modify n fun pcb => { pcb.slowWork env (t.age n) with lastTimer := t.timerCtr }

/-- One turn of the first loop of `tcp_slowtmr`, for the pcb `n`. -/
def slowTurn (env : Env) (prev : Option ℕ) (n : ℕ) (t : Stack) : Option (Stack × Activity) :=
  if (t.pcb n).state = .closed ∨ (t.pcb n).state = .listen ∨ (t.pcb n).state = .timeWait then none
  else if (t.pcb n).lastTimer = t.timerCtr then some (t, .slow prev (t.lists.next n))
  else if (t.pcb n).due env (t.age n) then (t.slowWorked env n).slowRemove prev n
  else some ((t.slowWorked env n).slowPolled n)

/-- One turn of the second loop of `tcp_slowtmr`, for the pcb `n`. -/
def timeWaitTurn (prev : Option ℕ) (n : ℕ) (t : Stack) : Option (Stack × Activity) :=
  if (t.pcb n).state = .timeWait then
    if timeWaitOver (t.age n) then
      if t.unlinkAssert .tw prev n then
        let t := { t.modify n TcpPcb.purge with lists := t.lists.unlink .tw prev n }
        some (t.free n, .timeWait prev (t.lists.next n))
      else none
    else some (t, .timeWait (some n) (t.lists.next n))
  else none

/-- One turn of a timer. -/
def turn (env : Env) (t : Stack) : Activity → Option (Stack × Activity)
  | .fast (some n) => some (t.fastTurn env n)
  | .fast none => some t.fastEnd
  | .slow prev (some n) => t.slowTurn env prev n
  | .slow _ none => some (t, .timeWait none (t.lists.head .tw))
  | .timeWait prev (some n) => t.timeWaitTurn prev n
  | .timeWait _ none => some (t, .idle)
  | _ => none

end Stack

end QuietLwip.Tcp
