import QuietLwip.Netconn.Conn

/-!
# The messages of a netconn

What the TCP/IP thread does with a message for a netconn, and the callbacks that go with it. Of the
functions that answer at once and change none of the fields here, only the answer is left.
-/

namespace QuietLwip.Netconn

open Sockets

/-- What the stack answers to a message: on top of a turn, the results of `tcp_connect` (`udp_connect`,
`raw_connect`) and of `sys_mbox_new`, whether `tcp_listen` has returned a pcb, and what any other
function has answered. -/
structure Reply extends Turn where
  connectErr : ℤ := errOk
  mboxErr : ℤ := errOk
  listens : Bool := true
  err : ℤ := errOk
  deriving DecidableEq, Repr

/-- The functions that a message may name. -/
inductive Api (α : Type*) where
  | connect
  | listen
  | write (dataptr : List α) (dontblock : Bool) (timeStarted : ℕ)
  | close (shutRx shutTx : Bool)
  | delconn
  | other
  deriving DecidableEq, Repr

/-- The assertions of `netconn_free`, on whether the pcb and the mailboxes are still there. -/
def netconnFree (pcb recvmbox acceptmbox : Bool) : Except Fault Unit :=
  if pcb then .error .pcbLeft
  else if recvmbox || acceptmbox then .error .mboxLeft
  else .ok ()

/-- The second loop of `netconn_drain`: a netconn that waits to be accepted is drained, its pcb is
aborted and it is freed. -/
def drainNewconns {μ : Type*} : List (Option (Newconn μ)) → Except Fault (List (Option μ))
  | [] => .ok []
  | none :: _ => .error .nullConn
  | some newconn :: rest =>
    let drained : Newconn μ := { newconn with recvmbox := none }
    let aborted : Newconn μ := { drained with pcb := false }
    (netconnFree aborted.pcb aborted.recvmbox.isSome false).bind fun _ =>
      (drainNewconns rest).map (newconn.recvmbox.getD [] ++ ·)

namespace Conn

variable {α μ τ : Type*}

/-- `setup_tcp` -/
def setupTcp (pcb : Pcb) : Pcb :=
  { pcb with arg := true, recv := true, sent := true, poll := true, err := true }

/-- `netconn_drain`, with what it has freed. -/
def netconnDrain (conn : Conn α μ τ) : Except Fault (Conn α μ τ × List (Option μ)) :=
  (drainNewconns (conn.acceptmbox.getD [])).map fun freed =>
    ({ conn with recvmbox := none, acceptmbox := none }, conn.recvmbox.getD [] ++ freed)

/-- The message is answered, and nothing else happens. -/
def answered (id : τ) (err : ℤ) (conn : Conn α μ τ) : Except Fault (Conn α μ τ × Effects α μ τ) :=
  .ok (conn, { answers := [⟨id, err, 0⟩] })

/-- A message to close becomes the current one. -/
def beginClose (closeErr : ℤ) (id : τ) (shutRx shutTx : Bool) (freed : List (Option μ))
    (conn : Conn α μ τ) : Except Fault (Conn α μ τ × Effects α μ τ) :=
  if conn.currentMsg ≠ none ∨ conn.writeOffset ≠ 0 then .error .alreadyWriting
  else
    (doCloseInternal closeErr { conn with
      state := .close
      currentMsg := some ⟨id, .close shutRx shutTx⟩ }).map fun (conn, eff) =>
        (conn, { eff with freed := freed })

/-- `do_delconn`; without a pcb and for UDP and RAW no `err` is set. -/
def doDelconn (closeErr : ℤ) (id : τ) (conn : Conn α μ τ) :
    Except Fault (Conn α μ τ × Effects α μ τ) :=
  if conn.state ≠ .none ∧ conn.state ≠ .listen ∧ conn.state ≠ .connect then
    if conn.type ≠ .tcp then .error .wrongType else conn.answered id errInprogress
  else if conn.state = .connect ∧ conn.inNonblockingConnect = false then .error .blockingConnect
  else
    conn.netconnDrain.bind fun (conn, freed) =>
      if conn.pcb ≠ none ∧ conn.type = .tcp then conn.beginClose closeErr id true true freed
      else
        .ok ({ conn with pcb := none },
          { answers := [⟨id, errVal, 0⟩], events := [.rcvPlus, .sendPlus], freed := freed })

/-- `do_close` -/
def doClose (closeErr : ℤ) (id : τ) (shutRx shutTx : Bool) (conn : Conn α μ τ) :
    Except Fault (Conn α μ τ × Effects α μ τ) :=
  if conn.state ≠ .none ∧ conn.state ≠ .listen then
    if conn.type ≠ .tcp then .error .wrongType else conn.answered id errInprogress
  else if conn.pcb ≠ none ∧ conn.type = .tcp then
    if (shutRx && shutTx) = false ∧ conn.state = .listen then conn.answered id errConn
    else if shutRx then
      conn.netconnDrain.bind fun (conn, freed) => conn.beginClose closeErr id shutRx shutTx freed
    else conn.beginClose closeErr id shutRx shutTx []
  else conn.answered id errVal

/-- `do_connect` -/
def doConnect (connectErr : ℤ) (id : τ) (conn : Conn α μ τ) :
    Except Fault (Conn α μ τ × Effects α μ τ) :=
  match conn.pcb with
  | none => conn.answered id errClsd
  | some pcb =>
    if conn.type ≠ .tcp then conn.answered id connectErr
    else if conn.state ≠ .none then conn.answered id errIsconn
    else if connectErr = errOk then
      let connecting := { conn with
        pcb := some { setupTcp pcb with synSent := true }
        state := .connect
        inNonblockingConnect := conn.nonBlocking }
      if conn.nonBlocking then connecting.answered id errInprogress
      else .ok ({ connecting with currentMsg := some ⟨id, .connect⟩ }, {})
    else answered id connectErr { conn with pcb := some (setupTcp pcb) }

/-- `do_connected`; without an argument the callback does nothing. -/
def doConnected (err : ℤ) (conn : Conn α μ τ) : Except Fault (Conn α μ τ × Effects α μ τ) :=
  match conn.pcb with
  | none => .ok (conn, {})
  | some pcb =>
    if pcb.arg = false then .ok (conn, {})
    else if conn.state ≠ .connect then .error .wrongState
    else if conn.currentMsg = none ∧ conn.inNonblockingConnect = false then .error .noMsg
    else
      let connected := { conn.finish with
        pcb := some { (if conn.type = .tcp ∧ err = errOk then setupTcp pcb else pcb) with
          synSent := false }
        inNonblockingConnect := false }
      if conn.inNonblockingConnect then .ok (connected.setSafeErr errOk, { events := [.sendPlus] })
      else .ok (connected,
        { answers := conn.currentMsg.toList.map fun msg => ⟨msg.id, err, 0⟩, events := [.sendPlus] })

/-- `do_listen` -/
def doListen (reply : Reply) (id : τ) (conn : Conn α μ τ) :
    Except Fault (Conn α μ τ × Effects α μ τ) :=
  if ErrIsFatal conn.lastErr then conn.answered id conn.lastErr
  else if conn.pcb = none then conn.answered id errConn
  else if conn.type ≠ .tcp then conn.answered id errArg
  else if conn.state ≠ .none then conn.answered id errConn
  else if reply.listens = false then conn.answered id errMem
  else if conn.acceptmbox ≠ none ∨ reply.mboxErr = errOk then
    answered id errOk { conn with
      state := .listen
      pcb := some { listen := true, arg := true, accept := true }
      recvmbox := none
      acceptmbox := some (conn.acceptmbox.getD []) }
  else answered id reply.mboxErr { conn with pcb := none, recvmbox := none }

/-- The function that the message names. -/
def handle (reply : Reply) (id : τ) (conn : Conn α μ τ) :
    Api α → Except Fault (Conn α μ τ × Effects α μ τ)
  | .connect => conn.doConnect reply.connectErr id
  | .listen => conn.doListen reply id
  | .write data dontblock timeStarted => conn.doWrite reply.toTurn id data dontblock timeStarted
  | .close shutRx shutTx => conn.doClose reply.closeErr id shutRx shutTx
  | .delconn => conn.doDelconn reply.closeErr id
  | .other => conn.answered id reply.err

/-- `recv_tcp`, and `recv_udp` and `recv_raw`, which do not look at `last_err`. -/
def recvMsg (p : Option μ) (err : ℤ) (room : Bool) (conn : Conn α μ τ) :
    Conn α μ τ × Effects α μ τ :=
  match conn.recvmbox with
  | none => (conn, { freed := [p] })
  | some msgs =>
    let conn := if conn.type = .tcp then conn.setSafeErr err else conn
    if room then ({ conn with recvmbox := some (msgs ++ [p]) }, { events := [.rcvPlus] })
    else (conn, {})

/-- `accept_function` -/
def acceptFunction (room : Bool) (conn : Conn α μ τ) : Conn α μ τ × Effects α μ τ :=
  match conn.acceptmbox with
  | none => (conn, {})
  | some conns =>
    if room then ({ conn with acceptmbox := some (conns ++ [some {}]) }, { events := [.rcvPlus] })
    else (conn, {})

end Conn

end QuietLwip.Netconn
