import QuietLwip.Tcp.Pcbs

/-!
# The calls of the application

The functions of `tcp.c` that an application calls, as far as they touch the pcbs and their
lists. A function is `none` when it does not return: a search in a list does not end, or an
assertion has aborted the process (`LWIP_ERROR` does so as well). What depends on the rest of
the stack (segments, memory, routes) is answered by an environment.
-/

namespace QuietLwip.Tcp

open Links Word

/-- What `tcp_output` leaves: whether segments are unacknowledged, the timer and the flags. -/
structure Output where
  unacked : Bool
  rtime : ℤ
  ackDelay : Bool
  ackNow : Bool

/-- What the rest of the stack answers during one step. -/
structure Env where
  out : Conn → Output
  -- what `memp_malloc` is given by the pool, for each of its calls
  malloc : ℕ → Option ℕ
  -- the address of the interface towards the peer
  route : Option ℕ
  -- whether there is memory for a `SYN` or a `FIN`
  enqueue : Bool
  effSendMss : ℕ

def Conn.tcpOutput (env : Env) (conn : Conn) : Conn :=
  { conn with
    unacked := (env.out conn).unacked
    rtime := (env.out conn).rtime
    ackDelay := (env.out conn).ackDelay
    ackNow := (env.out conn).ackNow }

/-- The data that `tcp_connect` begins with. -/
def Conn.connecting (env : Env) (conn : Conn) : Conn :=
  { conn with
    rcvWnd := tcpWnd
    sndWnd := tcpWnd
    mss := env.effSendMss
    cwnd := 1
    ssthresh := u16 (env.effSendMss * 10) }

/-- `tcp_ack_now`. -/
def Conn.tcpAckNow (conn : Conn) : Conn := { conn with ackNow := true }

/-- The pcbs, their lists and the counters of the timers. -/
structure Stack where
  -- the pcbs of the pools are those below
  room : ℕ
  live : ℕ → Bool
  pcb : ℕ → TcpPcb
  lists : PcbLists
  -- `tcp_active_pcbs_changed`
  changed : Bool
  -- `tcp_port`, `tcp_timer`, `tcp_timer_ctr`, `tcp_ticks`
  port : ℕ
  timer : ℕ
  timerCtr : ℕ
  ticks : ℕ

namespace Stack

def modify (n : ℕ) (f : TcpPcb → TcpPcb) (t : Stack) : Stack :=
  { t with pcb := Function.update t.pcb n (f (t.pcb n)) }

def modifyConn (n : ℕ) (f : Conn → Conn) (t : Stack) : Stack :=
  t.modify n fun pcb => { pcb with conn := f pcb.conn }

def setState (n : ℕ) (state : TcpState) (t : Stack) : Stack :=
  t.modify n fun pcb => { pcb with state := state }

def setLocalPort (n port : ℕ) (t : Stack) : Stack :=
  t.modify n fun pcb => { pcb with localPort := port }

def reg (w : PcbList) (n : ℕ) (t : Stack) : Stack :=
  { t with lists := t.lists.reg w n }

def rmv (w : PcbList) (n : ℕ) (t : Stack) : Option Stack :=
  (t.lists.rmv t.room w n).map fun lists => { t with lists := lists }

/-- `tcp_active_pcbs_changed = 1`. -/
def setChanged (t : Stack) : Stack := { t with changed := true }

def regActive (n : ℕ) (t : Stack) : Stack := (t.reg .active n).setChanged

def rmvActive (n : ℕ) (t : Stack) : Option Stack := (t.rmv .active n).map setChanged

/-- Whether one of the pcbs of the list satisfies `p`. -/
def search (t : Stack) (w : PcbList) (p : TcpPcb → Bool) : Option Bool :=
  (findFrom t.lists.next (fun n => p (t.pcb n)) t.room none (t.lists.head w)).map Option.isSome

/-- The lists are searched one after the other. -/
def searchAll (t : Stack) (p : TcpPcb → Bool) : List PcbList → Option Bool
  | [] => some false
  | w :: ws => (t.search w p).bind fun found => if found then some true else t.searchAll p ws

/-- The pcbs of a list. -/
def walk (t : Stack) (w : PcbList) : Option (List ℕ) :=
  Links.walk t.lists.next t.room (t.lists.head w)

/-! ### The pool -/

/-- The pool gives an element that is not in use. -/
def mempMalloc (t : Stack) (answer : Option ℕ) : Option ℕ :=
  answer.filter fun n => n < t.room && !t.live n

def free (n : ℕ) (t : Stack) : Stack := { t with live := Function.update t.live n false }

/-- The fresh pcb that `tcp_alloc` returns. -/
def newPcb (t : Stack) (prio : ℕ) : TcpPcb where
  state := .closed
  prio := prio
  reuseaddr := false
  localIp := 0
  localPort := 0
  remoteIp := 0
  remotePort := 0
  lastTimer := t.timerCtr
  conn := { tmr := t.ticks }

/-- An element of the pool is taken for `pcb`. -/
def take (n : ℕ) (pcb : TcpPcb) (t : Stack) : Stack :=
  { t with live := Function.update t.live n true, pcb := Function.update t.pcb n pcb }

def initPcb (n prio : ℕ) (t : Stack) : Stack :=
  { t.take n (t.newPcb prio) with
    lists := { t.lists with next := Function.update t.lists.next n none } }

/-- How long the connection has been inactive. -/
def age (t : Stack) (n : ℕ) : ℕ := u32 ((t.ticks : ℤ) - (t.pcb n).conn.tmr)

end Stack

/-- `tcp_pcb_purge`. -/
def TcpPcb.purge (pcb : TcpPcb) : TcpPcb :=
  match pcb.state with
  | .closed | .timeWait | .listen => pcb
  | _ =>
    { pcb with
      conn := { pcb.conn with refusedData := none, ooseq := false, rtime := -1, unacked := false } }

/-- What `tcp_pcb_remove` leaves of the pcb. -/
def TcpPcb.removed (env : Env) (pcb : TcpPcb) : TcpPcb :=
  let purged := pcb.purge
  { purged with
    state := .closed
    conn :=
      if pcb.state ≠ .timeWait ∧ pcb.state ≠ .listen ∧ purged.conn.ackDelay then
        purged.conn.tcpAckNow.tcpOutput env
      else purged.conn }

namespace Stack

def tcpPcbRemove (env : Env) (w : PcbList) (n : ℕ) (t : Stack) : Option Stack :=
  (t.rmv w n).map (modify n (TcpPcb.removed env))

/-- The flag says whether the application is told, by its error callback. -/
def tcpAbandon (env : Env) (n : ℕ) (t : Stack) : Option (Stack × Bool) :=
  match (t.pcb n).state with
  | .listen => none
  | .timeWait => (t.tcpPcbRemove env .tw n).map fun t => (t.free n, false)
  | _ => (t.tcpPcbRemove env .active n).map fun t => (t.setChanged.free n, true)

/-- The connection that `tcp_kill_prio` has found so far. -/
structure Inactive where
  mprio : ℕ := 127
  inactivity : ℕ := 0
  pcb : Option ℕ := none

def killPrioStep (t : Stack) (prio : ℕ) (found : Inactive) (n : ℕ) : Inactive :=
  if (t.pcb n).prio ≤ prio ∧ (t.pcb n).prio ≤ found.mprio ∧ found.inactivity ≤ t.age n then
    { mprio := (t.pcb n).prio, inactivity := t.age n, pcb := some n }
  else found

def tcpKillPrio (env : Env) (prio : ℕ) (t : Stack) : Option (Stack × Bool) := do
  let pcbs ← t.walk .active
  match (pcbs.foldl (t.killPrioStep prio) {}).pcb with
  | none => some (t, false)
  | some n => t.tcpAbandon env n

def killTimewaitStep (t : Stack) (found : Inactive) (n : ℕ) : Inactive :=
  if found.inactivity ≤ t.age n then { found with inactivity := t.age n, pcb := some n } else found

def tcpKillTimewait (env : Env) (t : Stack) : Option Stack := do
  let pcbs ← t.walk .tw
  match (pcbs.foldl t.killTimewaitStep {}).pcb with
  | none => some t
  | some n => (t.tcpAbandon env n).map Prod.fst

/-- The last attempt of `tcp_alloc`, after `tcp_kill_prio`. -/
def tcpAllocAgain (env : Env) (prio : ℕ) (t : Stack) : Stack × Option ℕ :=
  match t.mempMalloc (env.malloc 2) with
  | some n => (t.initPcb n prio, some n)
  | none => (t, none)

/-- `tcp_alloc` returns a pcb or `NULL`; the outer `none` says that it waits for the error
callback of the connection it has aborted. -/
def tcpAlloc (env : Env) (prio : ℕ) (t : Stack) : Option (Stack × Option (Option ℕ)) :=
  match t.mempMalloc (env.malloc 0) with
  | some n => some (t.initPcb n prio, some (some n))
  | none => do
    let t ← t.tcpKillTimewait env
    match t.mempMalloc (env.malloc 1) with
    | some n => some (t.initPcb n prio, some (some n))
    | none => do
      let (t, told) ← t.tcpKillPrio env prio
      if told then some (t, none)
      else some ((t.tcpAllocAgain env prio).1, some (t.tcpAllocAgain env prio).2)

/-! ### Binding, listening, connecting -/

/-- The next candidate of `tcp_new_port`. -/
def nextPort (t : Stack) : Stack := { t with port := if t.port = 0xffff then 0xc000 else t.port + 1 }

/-- `tcp_new_port`, when so many more ports may turn out to be in use. -/
def newPortLoop (t : Stack) (more : ℕ) : Option (Stack × ℕ) := do
  let used ← t.nextPort.searchAll (fun pcb => pcb.localPort == t.nextPort.port)
    [.listen, .bound, .active, .tw]
  if used then
    match more with
    | 0 => some (t.nextPort, 0)
    | more + 1 => t.nextPort.newPortLoop more
  else some (t.nextPort, t.nextPort.port)

def tcpNewPort (t : Stack) : Option (Stack × ℕ) := t.newPortLoop 0x3fff

/-- Whether a pcb with this address and port keeps `tcp_bind` from taking them. -/
def clashes (reuseaddr : Bool) (ip port : ℕ) (cpcb : TcpPcb) : Bool :=
  cpcb.localPort == port && (!reuseaddr || !cpcb.reuseaddr) &&
    (cpcb.localIp == 0 || ip == 0 || cpcb.localIp == ip)

/-- A port is chosen when none is asked for. -/
def choosePort (port : ℕ) (t : Stack) : Option (Stack × ℕ) :=
  if port = 0 then t.tcpNewPort else some (t, port)

/-- Whether the address and port are in use. -/
def inUse (n ip port : ℕ) (t : Stack) : Option Bool :=
  t.searchAll (clashes (t.pcb n).reuseaddr ip port)
    (if (t.pcb n).reuseaddr then [.listen, .bound, .active] else [.listen, .bound, .active, .tw])

def tcpBind (n ip port : ℕ) (t : Stack) : Option Stack :=
  if (t.pcb n).state = .closed then do
    let (t, port) ← t.choosePort port
    if port = 0 then some t
    else
      let used ← t.inUse n ip port
      if used then some t
      else
        let t := t.modify n fun pcb =>
          { pcb with localIp := if ip = 0 then pcb.localIp else ip, localPort := port }
        some (t.reg .bound n)
  else none

/-- `TCP_RMV` from the bound pcbs, of a pcb that has a port. -/
def unbind (n port : ℕ) (t : Stack) : Option Stack := if port = 0 then some t else t.rmv .bound n

/-- The smaller pcb that a listening connection is kept in. -/
def listenPcb (t : Stack) (n : ℕ) : TcpPcb :=
  { t.newPcb (t.pcb n).prio with
    state := .listen
    reuseaddr := (t.pcb n).reuseaddr
    localIp := (t.pcb n).localIp
    localPort := (t.pcb n).localPort
    conn := { keepalive := (t.pcb n).conn.keepalive } }

/-- Whether another pcb listens at the address of this one, which shares its own. -/
def listening (n : ℕ) (t : Stack) : Option Bool :=
  if (t.pcb n).reuseaddr then
    t.search .listen fun lpcb =>
      lpcb.localPort == (t.pcb n).localPort && lpcb.localIp == (t.pcb n).localIp
  else some false

def tcpListen (env : Env) (n : ℕ) (t : Stack) : Option Stack :=
  if (t.pcb n).state = .closed then do
    let used ← t.listening n
    if used then some t
    else
      match t.mempMalloc (env.malloc 0) with
      | none => some t
      | some m => do
        let lpcb := t.listenPcb n
        let t ← t.unbind n (t.pcb n).localPort
        some (((t.free n).take m lpcb).reg .listen m)
  else none

/-- `tcp_connect` takes the address of the interface when the pcb has none. -/
def connectIp (env : Env) (n : ℕ) (t : Stack) : Option Stack :=
  if (t.pcb n).localIp = 0 then
    env.route.map fun ip => t.modify n fun pcb => { pcb with localIp := ip }
  else some t

/-- Whether another connection has the addresses and ports of this one, which shares its own. -/
def connected (n : ℕ) (t : Stack) : Option Bool :=
  if (t.pcb n).reuseaddr then
    t.searchAll (fun cpcb =>
      cpcb.localPort == (t.pcb n).localPort && cpcb.remotePort == (t.pcb n).remotePort &&
        cpcb.localIp == (t.pcb n).localIp && cpcb.remoteIp == (t.pcb n).remoteIp) [.active, .tw]
  else some false

/-- The rest of `tcp_connect`, from the local port on; before it the pcb had `oldLocalPort`. -/
def connectFrom (env : Env) (n oldLocalPort : ℕ) (t : Stack) : Option Stack := do
  let used ← t.connected n
  if used then some t
  else
    let t := t.modifyConn n (Conn.connecting env)
    if env.enqueue then do
      let t ← (t.setState n .synSent).unbind n oldLocalPort
      some ((t.regActive n).modifyConn n (Conn.tcpOutput env))
    else some t

/-- `tcp_connect` for a pcb that is not bound: it chooses a port. -/
def connectNew (env : Env) (n : ℕ) (t : Stack) : Option Stack := do
  let (t, port) ← t.tcpNewPort
  if port = 0 then some (t.setLocalPort n port) else (t.setLocalPort n port).connectFrom env n 0

def setRemote (n ip port : ℕ) (t : Stack) : Stack :=
  t.modify n fun pcb => { pcb with remoteIp := ip, remotePort := port }

def tcpConnect (env : Env) (n : ℕ) (ip : Option ℕ) (port : ℕ) (t : Stack) : Option Stack :=
  if (t.pcb n).state = .closed then
    match ip with
    | none => some t
    | some ip =>
      match (t.setRemote n ip port).connectIp env n with
      | none => some (t.setRemote n ip port)
      | some t =>
        if (t.pcb n).localPort = 0 then t.connectNew env n
        else t.connectFrom env n (t.pcb n).localPort
  else none

/-! ### Closing -/

/-- Entering a closing state, when the `FIN` could be queued. -/
def sendFin (env : Env) (n : ℕ) (state : TcpState) (t : Stack) : Stack :=
  if env.enqueue then (t.setState n state).modifyConn n (Conn.tcpOutput env) else t

/-- A connection that has been purged leaves the active pcbs for those in `TIME_WAIT`. -/
def enterTimeWait (n : ℕ) (t : Stack) : Option Stack :=
  ((t.modify n TcpPcb.purge).rmvActive n).map fun t => (t.setState n .timeWait).reg .tw n

def tcpCloseShutdown (env : Env) (n : ℕ) (rstOnUnackedData : Bool) (t : Stack) : Option Stack :=
  let pcb := t.pcb n
  if rstOnUnackedData ∧ (pcb.state = .established ∨ pcb.state = .closeWait) ∧
      (pcb.conn.refusedData ≠ none ∨ pcb.conn.rcvWnd ≠ tcpWnd) then
    if pcb.state = .established then t.enterTimeWait n
    else ((t.modify n TcpPcb.purge).rmvActive n).map (free n)
  else
    match pcb.state with
    | .closed => (t.unbind n pcb.localPort).map (free n)
    | .listen => (t.tcpPcbRemove env .listen n).map (free n)
    | .synSent => (t.tcpPcbRemove env .active n).map fun t => t.setChanged.free n
    | .synRcvd => some (t.sendFin env n .finWait1)
    | .established => some (t.sendFin env n .finWait1)
    | .closeWait => some (t.sendFin env n .lastAck)
    | _ => some t

def setRxClosed (n : ℕ) (t : Stack) : Stack := t.modifyConn n fun conn => { conn with rxClosed := true }

def tcpClose (env : Env) (n : ℕ) (t : Stack) : Option Stack :=
  if (t.pcb n).state = .listen then t.tcpCloseShutdown env n true
  else (t.setRxClosed n).tcpCloseShutdown env n true

def tcpShutdown (env : Env) (n : ℕ) (shutRx shutTx : Bool) (t : Stack) : Option Stack :=
  if (t.pcb n).state = .listen then some t
  else if shutRx ∧ shutTx then (t.setRxClosed n).tcpCloseShutdown env n true
  else if shutRx then
    some (t.modifyConn n fun conn => { conn with rxClosed := true, refusedData := none })
  else if shutTx then
    match (t.pcb n).state with
    | .synRcvd | .established | .closeWait => t.tcpCloseShutdown env n false
    | _ => some t
  else some t

end Stack

/-- The calls of an application. -/
inductive Call where
  -- `tcp_new`
  | new
  | bind (n ip port : ℕ)
  | listen (n : ℕ)
  | connect (n : ℕ) (ip : Option ℕ) (port : ℕ)
  | close (n : ℕ)
  | shutdown (n : ℕ) (shutRx shutTx : Bool)
  | abort (n : ℕ)
  -- the calls that only touch the data of a connection, its priority and its options
  | other (n prio : ℕ) (reuseaddr : Bool) (conn : Conn)

/-- The pcb that a call is made for. -/
def Call.pcb : Call → Option ℕ
  | .new => none
  | .bind n _ _ | .listen n | .connect n _ _ | .close n | .shutdown n _ _ | .abort n
  | .other n _ _ _ => some n

end QuietLwip.Tcp
