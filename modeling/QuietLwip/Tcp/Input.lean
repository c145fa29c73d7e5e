import QuietLwip.Tcp.Timers

/-!
# The segments that arrive

`tcp_input` finds the pcb of a segment, `tcp_process` runs the state machine of the connection
and `tcp_listen_input` makes a new one. Each place where the application is called back ends a
step; the functions named after such a place go on from there.
-/

namespace QuietLwip.Tcp

open Links

/-- Where `tcp_input` stops: it is done, or an application has to return first. -/
inductive Await where
  | done
  | input (point : InputPoint) (pcb : ℕ) (seg : Segment)
  | accepting (lpcb prio : ℕ) (seg : Segment)

def Await.activity : Await → Activity
  | .done => .idle
  | .input point pcb seg => .input point pcb seg
  | .accepting lpcb prio seg => .accepting lpcb prio seg

/-- The pcb is the connection that the segment belongs to. -/
def Segment.matches (seg : Segment) (pcb : TcpPcb) : Bool :=
  pcb.remotePort == seg.src && pcb.localPort == seg.dest && pcb.remoteIp == seg.srcIp &&
    pcb.localIp == seg.destIp

namespace Stack

def find (t : Stack) (w : PcbList) (p : TcpPcb → Bool) : Option (Option (Option ℕ × ℕ)) :=
  findFrom t.lists.next (fun n => p (t.pcb n)) t.room none (t.lists.head w)

def toFront (w : PcbList) (prev : Option ℕ) (n : ℕ) (t : Stack) : Stack :=
  { t with lists := t.lists.toFront w prev n }

/-- `tcp_pcb_remove` from the active pcbs and `memp_free`, in `tcp_input`. -/
def inputRemove (env : Env) (n : ℕ) (t : Stack) : Option (Stack × Await) :=
  (t.tcpPcbRemove env .active n).map fun t => (t.free n, .done)

/-- `tcp_abort`, after which `tcp_input` is done. -/
def inputAbort (env : Env) (n : ℕ) (seg : Segment) (t : Stack) : Option (Stack × Await) :=
  (t.tcpAbandon env n).map fun (t, told) => (t, if told then .input .aborted n seg else .done)

/-- The end of `tcp_input`. -/
def inputDone (env : Env) (n : ℕ) (t : Stack) : Stack × Await :=
  (t.modifyConn n (Conn.tcpOutput env), .done)

/-- `tcp_input` from the test of `TF_GOT_FIN` on. -/
def inputFin (env : Env) (n : ℕ) (seg : Segment) (t : Stack) : Stack × Await :=
  if seg.gotFin then
    match (t.pcb n).conn.refusedData with
    | some _ => (t.keepRefused n true).inputDone env n
    | none => (t.correctWnd n, .input .gotFin n seg)
  else t.inputDone env n

/-- `tcp_input` from the test of `recv_data` on. -/
def inputData (env : Env) (n : ℕ) (seg : Segment) (t : Stack) : Option (Stack × Await) :=
  if seg.data then
    if (t.pcb n).conn.rxClosed then t.inputAbort env n seg
    else some (t, .input .recv n seg)
  else some (t.inputFin env n seg)

/-- `tcp_input` after `tcp_process`, when the connection stays. -/
def inputEvents (env : Env) (n : ℕ) (seg : Segment) (t : Stack) : Option (Stack × Await) :=
  if seg.acked then some (t, .input .sent n seg) else t.inputData env n seg

/-- `tcp_input` when `tcp_process` has not called `tcp_receive`. -/
def inputNothing (env : Env) (n : ℕ) (seg : Segment) (t : Stack) : Option (Stack × Await) :=
  t.inputEvents env n { seg with gotFin := false, data := false }

/-- `tcp_input` after `tcp_process`, when the connection has been closed. -/
def inputClosed (env : Env) (n : ℕ) (seg : Segment) (t : Stack) : Option (Stack × Await) :=
  if (t.pcb n).conn.rxClosed then t.inputRemove env n
  else some (t, .input .closed n seg)

def ackNow (n : ℕ) (t : Stack) : Stack := t.modifyConn n Conn.tcpAckNow

/-- `tcp_receive`, which asserts that the connection is past its handshake. -/
def tcpReceive (n : ℕ) (seg : Segment) (t : Stack) : Option Stack :=
  match (t.pcb n).state with
  | .closed | .listen | .synSent | .synRcvd => none
  | _ => some (t.modifyConn n seg.received)

/-- `SYN_RCVD` after the accept callback. -/
def processAccepted (env : Env) (n : ℕ) (seg : Segment) (t : Stack) :
    Option (Stack × Await) := do
  let t ← t.tcpReceive n seg
  if seg.gotFin then ((t.ackNow n).setState n .closeWait).inputEvents env n seg
  else t.inputEvents env n seg

/-- The state machine of `tcp_process`. -/
def processState (env : Env) (n : ℕ) (seg : Segment) (t : Stack) : Option (Stack × Await) :=
  match (t.pcb n).state with
  | .synSent =>
    if seg.ack && seg.syn && seg.ackno then
      some ((t.setState n .established).modifyConn n seg.received, .input .connected n seg)
    else t.inputNothing env n seg
  | .synRcvd =>
    if seg.ack then
      if seg.ackno then some (t.setState n .established, .input .accept n seg)
      else t.inputNothing env n seg
    else (t.modifyConn n seg.received).inputNothing env n seg
  | .closeWait | .established => do
    let t ← t.tcpReceive n seg
    if seg.gotFin then ((t.ackNow n).setState n .closeWait).inputEvents env n seg
    else t.inputEvents env n seg
  | .finWait1 => do
    let t ← t.tcpReceive n seg
    if seg.gotFin then
      if seg.ack && seg.ackno then do
        let t ← (t.ackNow n).enterTimeWait n
        t.inputEvents env n seg
      else ((t.ackNow n).setState n .closing).inputEvents env n seg
    else if seg.ack && seg.ackno then (t.setState n .finWait2).inputEvents env n seg
    else t.inputEvents env n seg
  | .finWait2 => do
    let t ← t.tcpReceive n seg
    if seg.gotFin then do
      let t ← (t.ackNow n).enterTimeWait n
      t.inputEvents env n seg
    else t.inputEvents env n seg
  | .closing => do
    let t ← t.tcpReceive n seg
    if seg.ack && seg.ackno then do
      let t ← t.enterTimeWait n
      t.inputEvents env n seg
    else t.inputEvents env n seg
  | .lastAck => do
    let t ← t.tcpReceive n seg
    if seg.ack && seg.ackno then t.inputClosed env n seg else t.inputEvents env n seg
  | _ => t.inputNothing env n seg

/-- The segment keeps the connection from timing out. -/
def touch (n : ℕ) (seg : Segment) (t : Stack) : Stack :=
  t.modifyConn n fun conn =>
    { seg.received conn with
      tmr := if conn.rxClosed then conn.tmr else t.ticks
      keepCntSent := 0 }

def tcpProcess (env : Env) (n : ℕ) (seg : Segment) (t : Stack) : Option (Stack × Await) :=
  if seg.rst then
    if seg.acceptable then
      some (t.modifyConn n fun conn => { conn with ackDelay := false }, .input .reset n seg)
    else t.inputNothing env n seg
  else if seg.syn && (t.pcb n).state != .synSent && (t.pcb n).state != .synRcvd then
    (t.ackNow n).inputNothing env n seg
  else (t.touch n seg).processState env n seg

/-- `tcp_input` after refused data has been offered again. -/
def inputOffered (env : Env) (n : ℕ) (seg : Segment) (t : Stack) : Option (Stack × Await) :=
  if (t.pcb n).conn.refusedData.isSome && seg.tcplen then some (t, .done)
  else t.tcpProcess env n seg

/-- `tcp_timewait_input`. -/
def tcpTimewaitInput (env : Env) (n : ℕ) (seg : Segment) (t : Stack) : Stack :=
  if seg.rst then t
  else if seg.syn && seg.acceptable then t
  else
    let t := t.modifyConn n fun conn =>
      { conn with tmr := if !seg.syn && seg.fin then t.ticks else conn.tmr }
    if seg.tcplen then t.modifyConn n fun conn => conn.tcpAckNow.tcpOutput env else t

/-- The new pcb that `tcp_listen_input` registers. -/
def acceptPcb (lpcb n : ℕ) (seg : Segment) (t : Stack) : Stack :=
  (t.modify n fun npcb =>
    { npcb with
      state := .synRcvd
      reuseaddr := (t.pcb lpcb).reuseaddr
      localIp := seg.destIp
      localPort := (t.pcb lpcb).localPort
      remoteIp := seg.srcIp
      remotePort := seg.src
      conn := { seg.received npcb.conn with keepalive := (t.pcb lpcb).conn.keepalive } }).regActive n

/-- `tcp_listen_input` from `tcp_alloc` on. -/
def listenAccept (env : Env) (lpcb : ℕ) (npcb : Option ℕ) (seg : Segment) (t : Stack) :
    Option (Stack × Await) :=
  match npcb with
  | none => some (t, .done)
  | some n =>
    if env.enqueue then
      some ((t.acceptPcb lpcb n seg).modifyConn n (Conn.tcpOutput env), .done)
    else ((t.acceptPcb lpcb n seg).tcpAbandon env n).map fun (t, _) => (t, .done)

def tcpListenInput (env : Env) (lpcb : ℕ) (seg : Segment) (t : Stack) :
    Option (Stack × Await) :=
  if seg.rst || seg.ack || !seg.syn then some (t, .done)
  else do
    let prio := (t.pcb lpcb).prio
    let (t, npcb) ← t.tcpAlloc env prio
    match npcb with
    | none => some (t, .accepting lpcb prio seg)
    | some npcb => t.listenAccept env lpcb npcb seg

/-- The listening pcb for a segment, and the one in front of it: one with the address of the
segment, or else the last one with any address. -/
def findListen (seg : Segment) (t : Stack) : Option (Option (Option ℕ × ℕ)) := do
  match ← t.find .listen fun lpcb => lpcb.localPort == seg.dest && lpcb.localIp == seg.destIp with
  | some found => some (some found)
  | none =>
    let lpcbs ← t.walk .listen
    some <| ((none :: lpcbs.map some).zip lpcbs).reverse.find? fun (_, n) =>
      (t.pcb n).localPort == seg.dest && (t.pcb n).localIp == 0

def tcpInput (env : Env) (seg : Segment) (t : Stack) : Option (Stack × Await) := do
  match ← t.find .active seg.matches with
  | some (prev, n) =>
    let t := t.toFront .active prev n
    match (t.pcb n).conn.refusedData with
    | some fin => some (t.takeRefused n, .input (.refused fin) n seg)
    | none => t.tcpProcess env n seg
  | none =>
    match ← t.find .tw seg.matches with
    | some (_, n) => some (t.tcpTimewaitInput env n seg, .done)
    | none =>
      match ← t.findListen seg with
      | some (prev, n) => (t.toFront .listen prev n).tcpListenInput env n seg
      | none => some (t, .done)

/-! ### After a callback -/

/-- `tcp_input` after a callback for `pcb` that has returned `err`. -/
def inputReturn (env : Env) (err : Err) (n : ℕ) (seg : Segment) (t : Stack) :
    InputPoint → Option (Stack × Await)
  | .refused fin =>
    match err with
    | .ok =>
      if fin then some (t.correctWnd n, .input .refusedClosed n seg)
      else t.inputOffered env n seg
    | .abrt => some (t, .done)
    | .other => (t.keepRefused n fin).inputOffered env n seg
  | .refusedClosed => if err = .abrt then some (t, .done) else t.inputOffered env n seg
  | .connected =>
    if err = .abrt then some (t, .done) else (t.ackNow n).inputNothing env n seg
  | .accept =>
    match err with
    | .ok => t.processAccepted env n seg
    | .abrt => some (t, .done)
    | .other => t.inputAbort env n seg
  | .reset | .closed => t.inputRemove env n
  | .sent => if err = .abrt then some (t, .done) else t.inputData env n seg
  | .recv =>
    match err with
    | .ok => some (t.inputFin env n seg)
    | .abrt => some (t, .done)
    | .other => some ((t.keepRefused n false).inputFin env n seg)
  | .gotFin => if err = .abrt then some (t, .done) else some (t.inputDone env n)
  | .aborted => some (t, .done)

/-- `tcp_fasttmr` after the callback for refused data. -/
def fastReturn (err : Err) (n : ℕ) (fin : Bool) (next : Option ℕ) (t : Stack) :
    Stack × Activity :=
  match err with
  | .ok =>
    if fin then (t.correctWnd n, .fastClosed next) else (t, t.fastNext next)
  | .abrt => (t, t.fastNext next)
  | .other => (t.keepRefused n fin, t.fastNext next)

/-- `tcp_slowtmr` after the poll callback. -/
def pollReturn (env : Env) (err : Err) (prev : ℕ) (pcb : Option ℕ) (t : Stack) :
    Stack × Activity :=
  if t.changed then (t, .slow none (t.lists.head .active))
  else if err = .ok then (t.modifyConn prev (Conn.tcpOutput env), .slow (some prev) pcb)
  else (t, .slow (some prev) pcb)

end Stack

end QuietLwip.Tcp
