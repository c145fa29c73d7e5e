import QuietLwip.Sockets.Table

/-!
# The netconn in the TCP/IP thread

A message to the TCP/IP thread is carried out at once, or becomes the netconn's `current_msg` and is
carried on from the callbacks of its pcb. What the stack answers meanwhile is an argument.
-/

namespace QuietLwip.Netconn

open Word Sockets

def errOk : ℤ := 0
def errMem : ℤ := -1
def errInprogress : ℤ := -5
def errVal : ℤ := -6
def errWouldblock : ℤ := -7
def errIsconn : ℤ := -9
def errConnWarn : ℤ := -10
def errClsd : ℤ := -13
def errConn : ℤ := -14
def errArg : ℤ := -15

/-- `ERR_IS_FATAL` -/
def ErrIsFatal (err : ℤ) : Prop := err < errConnWarn

instance (err : ℤ) : Decidable (ErrIsFatal err) := inferInstanceAs (Decidable (_ < _))

/-- `TCP_SNDLOWAT` and `TCP_SNDQUEUELOWAT` -/
def tcpSndlowat : ℕ := 2047
def tcpSndqueuelowat : ℕ := 5

/-- `enum netconn_type`, by groups -/
inductive ConnType where
  | tcp
  | udp
  | raw
  deriving DecidableEq, Repr

/-- `enum netconn_state` -/
inductive ConnState where
  | none
  | write
  | listen
  | connect
  | close
  deriving DecidableEq, Repr

/-- Of the pcb: whether it is one of `listen_pcbs` or in `SYN_SENT`, whether the netconn is its
argument, and which of its callbacks are set. -/
structure Pcb where
  listen : Bool := false
  synSent : Bool := false
  arg : Bool := false
  recv : Bool := false
  sent : Bool := false
  poll : Bool := false
  err : Bool := false
  accept : Bool := false
  deriving DecidableEq, Repr

/-- What a message asks for, where it is not done at once. -/
inductive Request (α : Type*) where
  | write (dataptr : List α) (dontblock : Bool) (timeStarted : ℕ)
  | connect
  | close (shutRx shutTx : Bool)
  deriving DecidableEq, Repr

/-- `struct api_msg_msg` of the message `id`. -/
structure Msg (α τ : Type*) where
  id : τ
  request : Request α
  deriving DecidableEq, Repr

/-- `msg.w.len`, as the caller has set it. -/
def Msg.len {α τ : Type*} (msg : Msg α τ) : ℕ :=
  match msg.request with
  | .write data _ _ => data.length
  | _ => 0

/-- A message has been answered, with `err` and `msg.w.len`, and `op_completed` been signalled. -/
structure Answer (τ : Type*) where
  id : τ
  err : ℤ
  len : ℕ := 0
  deriving DecidableEq, Repr

/-- A netconn that waits to be accepted: whether it still has its pcb, and its `recvmbox`. -/
structure Newconn (μ : Type*) where
  pcb : Bool := true
  recvmbox : Option (List (Option μ)) := some []
  deriving DecidableEq, Repr

/-- `struct netconn`; an element of a mailbox may be `NULL`. -/
structure Conn (α μ τ : Type*) where
  type : ConnType := .tcp
  state : ConnState := .none
  pcb : Option Pcb := Option.none
  lastErr : ℤ := errOk
  recvmbox : Option (List (Option μ)) := some []
  acceptmbox : Option (List (Option (Newconn μ))) := Option.none
  sendTimeout : ℤ := 0
  nonBlocking : Bool := false
  inNonblockingConnect : Bool := false
  checkWritespace : Bool := false
  writeOffset : ℕ := 0
  currentMsg : Option (Msg α τ) := Option.none
  deriving DecidableEq, Repr

/-- The assertions, and the accesses through a null pointer. -/
inductive Fault where
  | noMsg
  | wrongState
  | noPcb
  | nothingToWrite
  | alreadyWriting
  | emptyWrite
  | blockingConnect
  | listenCloseFails
  | strayMsg
  | wrongType
  | nullConn
  | pcbLeft
  | mboxLeft
  | usedFreed
  deriving DecidableEq, Repr

/-- What a step does besides changing the netconn: the bytes that `tcp_write` has taken, the answers,
the events, and the messages taken out of the mailboxes and freed. -/
structure Effects (α μ τ : Type*) where
  written : List α := []
  answers : List (Answer τ) := []
  events : List Evt := []
  freed : List (Option μ) := []
  deriving DecidableEq

/-- What the stack answers while a callback runs: the clock, `tcp_sndbuf` and the result of
`tcp_write`, the two levels after it, and the result of `tcp_close` or `tcp_shutdown`. -/
structure Turn where
  now : ℕ := 0
  sndbuf : ℕ := 0
  writeErr : ℤ := errOk
  sndbufAfter : ℕ := 0
  queuelenAfter : ℕ := 0
  closeErr : ℤ := errOk
  deriving DecidableEq, Repr

namespace Conn

variable {α μ τ : Type*}

/-- The message is answered and the netconn free for the next one. -/
def finish (conn : Conn α μ τ) : Conn α μ τ := { conn with state := .none, currentMsg := none }

/-- `NETCONN_SET_SAFE_ERR` -/
def setSafeErr (err : ℤ) (conn : Conn α μ τ) : Conn α μ τ :=
  if ErrIsFatal conn.lastErr then conn else { conn with lastErr := err }

/-- After `tcp_write` the pcb may have to be marked as not writable. -/
def markSpace (turn : Turn) (dontblock : Bool) (len total : ℕ) (conn : Conn α μ τ) :
    Conn α μ τ × List Evt :=
  if dontblock = true ∧ len < total then ({ conn with checkWritespace := true }, [.sendMinus])
  else if turn.sndbufAfter ≤ tcpSndlowat ∨ tcpSndqueuelowat ≤ turn.queuelenAfter then
    (conn, [.sendMinus])
  else (conn, [])

/-- The send timeout of the message has run out. -/
def Expired (turn : Turn) (timeStarted : ℕ) (conn : Conn α μ τ) : Prop :=
  conn.sendTimeout ≠ 0 ∧ conn.sendTimeout ≤ s32 (turn.now - timeStarted)

instance (turn : Turn) (timeStarted : ℕ) (conn : Conn α μ τ) :
    Decidable (conn.Expired turn timeStarted) := inferInstanceAs (Decidable (_ ∧ _))

/-- The length that is asked of `tcp_write`. -/
def chunk (turn : Turn) (total : ℕ) (conn : Conn α μ τ) : ℕ :=
  min (min (total - conn.writeOffset) 0xffff) turn.sndbuf

/-- There is no room at all and the caller does not wait. -/
def NoRoom (turn : Turn) (dontblock : Bool) (total : ℕ) (conn : Conn α μ τ) : Prop :=
  turn.sndbuf < min (total - conn.writeOffset) 0xffff ∧ dontblock = true ∧ turn.sndbuf = 0

instance (turn : Turn) (dontblock : Bool) (total : ℕ) (conn : Conn α μ τ) :
    Decidable (conn.NoRoom turn dontblock total) := inferInstanceAs (Decidable (_ ∧ _))

/-- `do_writemore` for a message to write `data`, from the test of the send timeout on. -/
def writeTurn (turn : Turn) (id : τ) (data : List α) (dontblock : Bool) (timeStarted : ℕ)
    (conn : Conn α μ τ) : Conn α μ τ × Effects α μ τ :=
  if conn.Expired turn timeStarted then
    -- `write_offset` stays as it is
    if conn.writeOffset = 0 then
      (conn.finish, { answers := [⟨id, errWouldblock, 0⟩] })
    else (conn.finish, { answers := [⟨id, errOk, conn.writeOffset⟩] })
  else if conn.NoRoom turn dontblock data.length then
    let marked := conn.markSpace turn dontblock 0 data.length
    (marked.1.finish, { answers := [⟨id, errWouldblock, 0⟩], events := marked.2 })
  else
    let len := conn.chunk turn data.length
    if turn.writeErr = errOk then
      let marked := conn.markSpace turn dontblock len data.length
      let written := (data.drop conn.writeOffset).take len
      let offset := conn.writeOffset + len
      if offset = data.length ∨ dontblock = true then
        ({ marked.1.finish with writeOffset := 0 },
          { written := written, answers := [⟨id, errOk, offset⟩], events := marked.2 })
      else ({ marked.1 with writeOffset := offset }, { written := written, events := marked.2 })
    else if turn.writeErr = errMem then
      let marked := conn.markSpace turn dontblock len data.length
      if dontblock = true then
        (marked.1.finish, { answers := [⟨id, errMem, 0⟩], events := marked.2 })
      else (marked.1, { events := marked.2 })
    else (conn.finish, { answers := [⟨id, turn.writeErr, 0⟩] })

/-- `do_writemore` -/
def doWritemore (turn : Turn) (conn : Conn α μ τ) : Except Fault (Conn α μ τ × Effects α μ τ) :=
  match conn.currentMsg with
  | some ⟨id, .write data dontblock timeStarted⟩ =>
    if conn.state ≠ .write then .error .wrongState
    else if conn.pcb = none then .error .noPcb
    else if ¬conn.writeOffset < data.length then .error .nothingToWrite
    else .ok (conn.writeTurn turn id data (conn.nonBlocking || dontblock) timeStarted)
  | _ => .error .noMsg

/-- `do_write` -/
def doWrite (turn : Turn) (id : τ) (data : List α) (dontblock : Bool) (timeStarted : ℕ)
    (conn : Conn α μ τ) : Except Fault (Conn α μ τ × Effects α μ τ) :=
  if ErrIsFatal conn.lastErr then .ok (conn, { answers := [⟨id, conn.lastErr, data.length⟩] })
  else if conn.type ≠ .tcp then .ok (conn, { answers := [⟨id, errVal, data.length⟩] })
  else if conn.state ≠ .none then .ok (conn, { answers := [⟨id, errInprogress, data.length⟩] })
  else if conn.pcb = none then .ok (conn, { answers := [⟨id, errConn, data.length⟩] })
  else if conn.currentMsg ≠ none ∨ conn.writeOffset ≠ 0 then .error .alreadyWriting
  else if data = [] then .error .emptyWrite
  else
    doWritemore turn { conn with
      state := .write
      currentMsg := some ⟨id, .write data dontblock timeStarted⟩
      writeOffset := 0 }

/-- The callback pointers that `do_close_internal` sets back before it tries to close. -/
def dropCallbacks (shutRx shutTx : Bool) (pcb : Pcb) : Pcb :=
  let close := shutRx && shutTx
  let pcb := if close then { pcb with arg := false } else pcb
  if pcb.listen then { pcb with accept := false }
  else
    let pcb := if shutRx then { pcb with recv := false, accept := false } else pcb
    let pcb := if shutTx then { pcb with sent := false } else pcb
    if close then { pcb with poll := false, err := false } else pcb

/-- `do_close_internal`. A pcb that is listening or in `SYN_SENT` can always be closed. -/
def doCloseInternal (closeErr : ℤ) (conn : Conn α μ τ) :
    Except Fault (Conn α μ τ × Effects α μ τ) :=
  match conn.currentMsg, conn.pcb with
  | some ⟨id, .close shutRx shutTx⟩, some pcb =>
    if conn.type ≠ .tcp ∨ conn.state ≠ .close then .error .wrongState
    else
      let close := shutRx && shutTx
      let pcb := dropCallbacks shutRx shutTx pcb
      let err := if close && (pcb.listen || pcb.synSent) then errOk else closeErr
      if err = errOk then
        .ok ({ conn.finish with pcb := if close then none else some pcb },
          { answers := [⟨id, errOk, 0⟩]
            events := (if close then [.error] else []) ++ (if shutRx then [.rcvPlus] else []) ++
              if shutTx then [.sendPlus] else [] })
      else if pcb.listen then .error .listenCloseFails
      else
        .ok ({ conn with
          pcb := some { pcb with sent := true, poll := true, err := true, arg := true } }, {})
  | none, _ => .error .noMsg
  | some _, none => .error .noPcb
  | some _, some _ => .error .strayMsg

/-- What `sent_tcp` and `poll_tcp` begin with. -/
def carryOn (turn : Turn) (conn : Conn α μ τ) : Except Fault (Conn α μ τ × Effects α μ τ) :=
  if conn.state = .write then conn.doWritemore turn
  else if conn.state = .close then conn.doCloseInternal turn.closeErr
  else .ok (conn, {})

/-- `select` may mark the pcb as writable again. -/
def Writable (turn : Turn) (conn : Conn α μ τ) : Prop :=
  conn.pcb ≠ none ∧ tcpSndlowat < turn.sndbufAfter ∧ turn.queuelenAfter < tcpSndqueuelowat

instance (turn : Turn) (conn : Conn α μ τ) : Decidable (conn.Writable turn) :=
  inferInstanceAs (Decidable (_ ∧ _))

/-- `sent_tcp` -/
def sentTcp (turn : Turn) (conn : Conn α μ τ) : Except Fault (Conn α μ τ × Effects α μ τ) :=
  (conn.carryOn turn).map fun (conn, eff) =>
    if conn.Writable turn then
      ({ conn with checkWritespace := false }, { eff with events := eff.events ++ [.sendPlus] })
    else (conn, eff)

/-- `poll_tcp` -/
def pollTcp (turn : Turn) (conn : Conn α μ τ) : Except Fault (Conn α μ τ × Effects α μ τ) :=
  (conn.carryOn turn).map fun (conn, eff) =>
    if conn.checkWritespace = true ∧ conn.Writable turn then
      ({ conn with checkWritespace := false }, { eff with events := eff.events ++ [.sendPlus] })
    else (conn, eff)

/-- `err_tcp`; the two booleans are for room in `recvmbox` and in `acceptmbox`. -/
def errTcp (err : ℤ) (room room' : Bool) (conn : Conn α μ τ) :
    Except Fault (Conn α μ τ × Effects α μ τ) :=
  let reset := { conn with
    pcb := none
    lastErr := err
    state := .none
    recvmbox := conn.recvmbox.map fun msgs => if room then msgs ++ [none] else msgs
    acceptmbox := conn.acceptmbox.map fun conns => if room' then conns ++ [none] else conns }
  if conn.state = .write ∨ conn.state = .close ∨ conn.state = .connect then
    if conn.inNonblockingConnect then
      .ok ({ reset with inNonblockingConnect := false }, { events := [.error, .rcvPlus, .sendPlus] })
    else
      match conn.currentMsg with
      | none => .error .noMsg
      | some msg =>
        .ok ({ reset with currentMsg := none },
          { answers := [⟨msg.id, err, msg.len⟩], events := [.error, .rcvPlus, .sendPlus] })
  else if conn.currentMsg ≠ none then .error .strayMsg
  else .ok (reset, { events := [.error, .rcvPlus, .sendPlus] })

end Conn

end QuietLwip.Netconn
