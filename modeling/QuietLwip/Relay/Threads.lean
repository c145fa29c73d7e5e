import QuietLwip.Foundation.Slots
import QuietLwip.Foundation.Transition

/-!
# The relay threads of the proxies

`relay.c` and the accept loop of `proxy_server.c` (that of `proxy_client.c` is the same).
A `relay_conn *` is a number that may be handed out again after the connection was
destroyed. A step is a critical section, one turn of the read or of the write loop, or
one of the calls such a turn ends with. The value `none` stands for an access behind
the end of an array or to a destroyed connection.
-/

namespace QuietLwip.Relay

open QuietLwip.Slots QuietLwip.Transition

inductive Agent where
  | lwip
  | native
  deriving DecidableEq

instance : Fintype Agent := ⟨{.lwip, .native}, by intro a; cases a <;> decide⟩

/-- `(agent + 1) % 2` -/
def Agent.other : Agent → Agent
  | lwip => native
  | native => lwip

@[simp] theorem Agent.other_other (a : Agent) : a.other.other = a := by cases a <;> rfl

theorem Agent.other_ne (a : Agent) : a.other ≠ a := by cases a <;> decide

theorem Agent.eq_or_eq_other (a b : Agent) : b = a ∨ b = a.other := by
  cases a <;> cases b <;> decide

abbrev ConnId := ℕ

def numRelays : ℕ := 256
/-- `MEMP_NUM_NETCONN` -/
def NUM_SOCKETS : ℕ := 100
def EAGAIN : ℕ := 11
def EWOULDBLOCK : ℕ := EAGAIN

/-! ### Connections -/

structure RelayConn where
  fds : Agent → ℕ
  bufs : Agent → ℕ → UInt8
  buflens : Agent → ℕ
  closeCount : ℕ

namespace RelayConn

variable (conn : RelayConn) (agent : Agent)

def fd : ℕ := conn.fds agent
def readBuf : ℕ → UInt8 := conn.bufs agent
def readBuflen : ℕ := conn.buflens agent
/-- Not the same as `readBuf`: we write to the buffer that the other one reads. -/
def writeBuf : ℕ → UInt8 := conn.bufs agent.other

def setBuf (buf : ℕ → UInt8) : RelayConn := { conn with bufs := Function.update conn.bufs agent buf }

@[simp] theorem setBuf_bufs (buf : ℕ → UInt8) :
    (conn.setBuf agent buf).bufs = Function.update conn.bufs agent buf := rfl

end RelayConn

/-- `relay_conn_create` with whatever the buffers hold. -/
def relayConnCreate (nativeFd lwipFd bufLen : ℕ) (bufs : Agent → ℕ → UInt8) : RelayConn where
  fds
    | .native => nativeFd
    | .lwip => lwipFd
  bufs := bufs
  buflens _ := bufLen
  closeCount := 0

/-- What `read` leaves in the buffer. -/
def overwrite (buf : ℕ → UInt8) (bs : List UInt8) (i : ℕ) : UInt8 := (bs[i]?).getD (buf i)

/-- `memmove(buf, buf + n, remaining)` -/
def moveDown (buf : ℕ → UInt8) (n remaining i : ℕ) : UInt8 :=
  if i < remaining then buf (n + i) else buf i

/-- What has happened in the two directions of a connection since it was created;
direction `a` is that of `bufs[a]`. -/
structure Log where
  received : Agent → List UInt8
  sent : Agent → List UInt8
  -- `relay_conn_close` was called for the direction
  closed : Agent → Bool
  -- calls of `relay_conn_destroy`
  destroyed : ℕ

namespace Log

variable (l : Log) (a : Agent)

def new : Log := ⟨fun _ => [], fun _ => [], fun _ => false, 0⟩
def receive (bs : List UInt8) : Log :=
  { l with received := Function.update l.received a (l.received a ++ bs) }
def send (bs : List UInt8) : Log := { l with sent := Function.update l.sent a (l.sent a ++ bs) }
def close : Log := { l with closed := Function.update l.closed a true }
def destroy : Log := { l with destroyed := l.destroyed + 1 }

@[simp] theorem close_closed : (l.close a).closed = Function.update l.closed a true := rfl
@[simp] theorem receive_received (bs : List UInt8) :
    (l.receive a bs).received = Function.update l.received a (l.received a ++ bs) := rfl
@[simp] theorem receive_sent (bs : List UInt8) : (l.receive a bs).sent = l.sent := rfl
@[simp] theorem send_received (bs : List UInt8) : (l.send a bs).received = l.received := rfl
@[simp] theorem send_sent (bs : List UInt8) :
    (l.send a bs).sent = Function.update l.sent a (l.sent a ++ bs) := rfl

end Log

/-! ### Crossbars -/

structure Crossbar where
  readyForWriting : ℕ → ConnId
  writeLen : ℕ → ℕ
  readyForReading : ℕ → ConnId
  readyForWritingLen : ℕ
  readyForReadingLen : ℕ

def crossbarAddForReading (x : Crossbar) (conn : ConnId) : Option Crossbar :=
  if x.readyForReadingLen < numRelays then
    some { x with
      readyForReading := Function.update x.readyForReading x.readyForReadingLen conn
      readyForReadingLen := x.readyForReadingLen + 1 }
  else none

def crossbarAddForWriting (x : Crossbar) (conn : ConnId) (buflen : ℕ) : Option Crossbar :=
  if x.readyForWritingLen < numRelays then
    some { x with
      readyForWriting := Function.update x.readyForWriting x.readyForWritingLen conn
      writeLen := Function.update x.writeLen x.readyForWritingLen buflen
      readyForWritingLen := x.readyForWritingLen + 1 }
  else none

/-! ### The state -/

/-- Where a relay thread is in its loop: `i` and `new_read_len`, `new_write_len`. -/
inductive Phase where
  | drain
  | select
  | reading (i new : ℕ)
  | writing (i new : ℕ)

/-- A call that a turn of a loop ends with. -/
inductive Call where
  | addForWriting (conn : ConnId) (buflen : ℕ)
  | addForReading (conn : ConnId)
  | close (conn : ConnId)
  -- within `relay_conn_close`
  | destroy (conn : ConnId)

/-- The locals of `relay`. -/
structure RelayLocals where
  relayRead : ℕ → ConnId
  relayWrite : ℕ → ConnId
  relayReadLen : ℕ
  relayWriteLen : ℕ
  writeLen : ℕ → ℕ
  readFds : ℕ → Bool
  writeFds : ℕ → Bool
  phase : Phase
  call : Option Call

/-- The accept loop, and the connection it is handing over. -/
inductive Accept where
  | idle
  | addToClient (conn : ConnId)
  | addToRemote (conn : ConnId)

structure State where
  conns : ConnId → Option RelayConn
  log : ConnId → Log
  -- `client_crossbar` is that of `lwip`, `remote_crossbar` that of `native`
  incoming : Agent → Crossbar
  relays : Agent → RelayLocals
  accept : Accept

namespace State

variable (s : State)

def setRelay (a : Agent) (t : RelayLocals) : State := { s with relays := Function.update s.relays a t }
def setIncoming (a : Agent) (x : Crossbar) : State :=
  { s with incoming := Function.update s.incoming a x }
def setConn (c : ConnId) (conn : Option RelayConn) (l : Log) : State :=
  { s with conns := Function.update s.conns c conn, log := Function.update s.log c l }

end State

/-! ### The relay loop -/

/-- `relay` reads its crossbar, with the mutex held. -/
def readCrossbar (t : RelayLocals) (x : Crossbar) : Option (RelayLocals × Crossbar) :=
  if t.relayReadLen + x.readyForReadingLen ≤ numRelays ∧
      t.relayWriteLen + x.readyForWritingLen ≤ numRelays then
    some ({ t with
      relayRead := copy t.relayRead t.relayReadLen x.readyForReading x.readyForReadingLen
      relayWrite := copy t.relayWrite t.relayWriteLen x.readyForWriting x.readyForWritingLen
      writeLen := copy t.writeLen t.relayWriteLen x.writeLen x.readyForWritingLen
      relayReadLen := t.relayReadLen + x.readyForReadingLen
      relayWriteLen := t.relayWriteLen + x.readyForWritingLen
      phase := .select }, { x with readyForReadingLen := 0, readyForWritingLen := 0 })
  else none

/-- The descriptors that are put in an `fd_set`. -/
def fdSet (conns : ConnId → Option RelayConn) (a : Agent) (cs : List ConnId) : Option (List ℕ) :=
  cs.mapM fun c => (conns c).map fun conn => conn.fd a

/-- The sets are built and passed to `select`, whose result is `res`. -/
def selectStep (s : State) (a : Agent) (res : ℤ) (readable writable : ℕ → Bool) : Option State := do
  let t := s.relays a
  let readFds ← fdSet s.conns a (slots t.relayRead t.relayReadLen)
  let writeFds ← fdSet s.conns a (slots t.relayWrite t.relayWriteLen)
  if res ≤ 0 then
    -- an error, or a timeout
    return s.setRelay a { t with phase := .drain }
  else
    return s.setRelay a { t with
      readFds := fun fd => decide (fd ∈ readFds) && readable fd
      writeFds := fun fd => decide (fd ∈ writeFds) && writable fd
      phase := .reading 0 0 }

/-- `get_errno`: `lwip_errno` has nothing to return. -/
def getErrno : Agent → ℕ → ℕ
  | .lwip, _ => 0
  | .native, errno => errno

inductive ReadRes where
  | data (bs : List UInt8)
  | eof
  | error (errno : ℕ)

inductive WriteRes where
  | wrote (n : ℕ)
  | eof
  | error (errno : ℕ)

/-- The entry read last is written back. -/
def keepRead (t : RelayLocals) (i new : ℕ) : RelayLocals :=
  { t with
    relayRead := Function.update t.relayRead new (t.relayRead i)
    phase := .reading (i + 1) (new + 1) }

def keepWrite (t : RelayLocals) (i new len : ℕ) : RelayLocals :=
  { t with
    relayWrite := Function.update t.relayWrite new (t.relayWrite i)
    writeLen := Function.update t.writeLen new len
    phase := .writing (i + 1) (new + 1) }

/-- The turn of a loop ends with a call. -/
def callAt (t : RelayLocals) (phase : Phase) (call : Call) : RelayLocals :=
  { t with phase := phase, call := some call }

/-- One turn of the loop over `relay_read`; `res` is what `read` returns if it is called. -/
def readTurn (s : State) (a : Agent) (i new : ℕ) (res : ReadRes) : Option State :=
  let t := s.relays a
  if i < t.relayReadLen then do
    let c := t.relayRead i
    let conn ← s.conns c
    let close := (s.setConn c conn ((s.log c).close a)).setRelay a
      (callAt t (.reading (i + 1) new) (.close c))
    let keep := s.setRelay a (keepRead t i new)
    if t.readFds (conn.fd a) then
      match res with
      | .data bs =>
        return (s.setConn c (conn.setBuf a (overwrite (conn.readBuf a) bs))
          ((s.log c).receive a bs)).setRelay a
            (callAt t (.reading (i + 1) new) (.addForWriting c bs.length))
      | .eof => return close
      | .error errno =>
        if getErrno a errno = EAGAIN ∨ getErrno a errno = EWOULDBLOCK then return keep
        else return close
    else return keep
  else some (s.setRelay a { t with relayReadLen := new, phase := .writing 0 0 })

/-- One turn of the loop over `relay_write`; `res` is what `write` returns if it is called. -/
def writeTurn (s : State) (a : Agent) (i new : ℕ) (res : WriteRes) : Option State :=
  let t := s.relays a
  if i < t.relayWriteLen then do
    let c := t.relayWrite i
    let conn ← s.conns c
    let len := t.writeLen i
    let close := (s.setConn c conn ((s.log c).close a.other)).setRelay a
      (callAt t (.writing (i + 1) new) (.close c))
    let keep := s.setRelay a (keepWrite t i new len)
    if t.writeFds (conn.fd a) then
      match res with
      | .wrote n =>
        let l := (s.log c).send a.other (slots (conn.writeBuf a) n)
        if n < len then
          -- wrote less than the full message: the rest moves to the start of the buffer
          return (s.setConn c (conn.setBuf a.other (moveDown (conn.writeBuf a) n (len - n))) l).setRelay
            a (keepWrite t i new (len - n))
        else
          return (s.setConn c conn l).setRelay a (callAt t (.writing (i + 1) new) (.addForReading c))
      | .eof => return close
      | .error errno =>
        if getErrno a errno = EAGAIN ∨ getErrno a errno = EWOULDBLOCK then return keep
        else return close
    else return keep
  else some (s.setRelay a { t with relayWriteLen := new, phase := .drain })

/-- The call a turn ended with; `outgoing` is the other thread's crossbar. -/
def callStep (s : State) (a : Agent) : Option State :=
  let t := s.relays a
  match t.call with
  | none => none
  | some (.addForWriting c buflen) => do
    let x ← crossbarAddForWriting (s.incoming a.other) c buflen
    return (s.setIncoming a.other x).setRelay a { t with call := none }
  | some (.addForReading c) => do
    let x ← crossbarAddForReading (s.incoming a.other) c
    return (s.setIncoming a.other x).setRelay a { t with call := none }
  | some (.close c) => do
    let conn ← s.conns c
    -- `atomic_compare_exchange_strong(&conn->close_count, &expected, 1)`
    if conn.closeCount = 0 then
      return (s.setConn c (some { conn with closeCount := 1 }) (s.log c)).setRelay a
        { t with call := none }
    else return s.setRelay a { t with call := some (.destroy c) }
  | some (.destroy c) => do
    let _ ← s.conns c
    return (s.setConn c none (s.log c).destroy).setRelay a { t with call := none }

/-! ### The accept loop -/

/-- The next of the two `crossbar_add_for_reading` calls. -/
def acceptStep (s : State) : Option State :=
  match s.accept with
  | .idle => none
  | .addToClient c => do
    let x ← crossbarAddForReading (s.incoming .lwip) c
    return { s.setIncoming .lwip x with accept := .addToRemote c }
  | .addToRemote c => do
    let x ← crossbarAddForReading (s.incoming .native) c
    return { s.setIncoming .native x with accept := .idle }

/-! ### Runs -/

inductive Event where
  | create (conn : ConnId) (nativeFd lwipFd bufLen : ℕ) (bufs : Agent → ℕ → UInt8)
  | accept
  | drain (a : Agent)
  | select (a : Agent) (res : ℤ) (readable writable : ℕ → Bool)
  | read (a : Agent) (res : ReadRes)
  | write (a : Agent) (res : WriteRes)
  | call (a : Agent)

/-- The thread is between calls. -/
def State.At (s : State) (a : Agent) (phase : Phase) : Prop :=
  (s.relays a).phase = phase ∧ (s.relays a).call = none

/-- What may happen next: the thread is there, it need not wait, and `read`, `write` and
the lwIP socket layer (which hands out the index of a free socket) do as documented. -/
def Event.Enabled (s : State) : Event → Prop
  | create c _ lwipFd _ _ => s.accept = .idle ∧ s.conns c = none ∧ lwipFd < NUM_SOCKETS ∧
      ∀ d conn, s.conns d = some conn → conn.fd .lwip ≠ lwipFd
  | accept => s.accept ≠ .idle
  | drain a => s.At a .drain ∧
      ¬((s.relays a).relayReadLen = 0 ∧ (s.relays a).relayWriteLen = 0 ∧
        (s.incoming a).readyForWritingLen = 0 ∧ (s.incoming a).readyForReadingLen = 0)
  | select a _ _ _ => s.At a .select
  | read a res => ∃ i new, s.At a (.reading i new) ∧
      ∀ bs conn, res = .data bs → s.conns ((s.relays a).relayRead i) = some conn →
        bs ≠ [] ∧ bs.length ≤ conn.readBuflen a
  | write a res => ∃ i new, s.At a (.writing i new) ∧
      ∀ n, res = .wrote n → 0 < n ∧ n ≤ (s.relays a).writeLen i
  | call a => (s.relays a).call ≠ none

def Event.exec (s : State) : Event → Option State
  | create c nativeFd lwipFd bufLen bufs =>
    some { s.setConn c (relayConnCreate nativeFd lwipFd bufLen bufs) Log.new with
      accept := .addToClient c }
  | accept => acceptStep s
  | drain a => do
    let (t, x) ← readCrossbar (s.relays a) (s.incoming a)
    return (s.setIncoming a x).setRelay a t
  | select a res readable writable => selectStep s a res readable writable
  | read a res =>
    match (s.relays a).phase with
    | .reading i new => readTurn s a i new res
    | _ => none
  | write a res =>
    match (s.relays a).phase with
    | .writing i new => writeTurn s a i new res
    | _ => none
  | call a => callStep s a

/-- Both threads have just been started; the arrays hold anything. -/
structure Initial (s : State) : Prop where
  conns : ∀ c, s.conns c = none
  log : ∀ c, s.log c = Log.new
  incoming : ∀ a, (s.incoming a).readyForReadingLen = 0 ∧ (s.incoming a).readyForWritingLen = 0
  relays : ∀ a, (s.relays a).relayReadLen = 0 ∧ (s.relays a).relayWriteLen = 0 ∧ s.At a .drain
  accept : s.accept = .idle

def relaySystem : System State Event where
  start := Initial
  step s e s' := e.Enabled s ∧ e.exec s = some s'

end QuietLwip.Relay
