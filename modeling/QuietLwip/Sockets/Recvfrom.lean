import QuietLwip.Foundation.Transition
import QuietLwip.Sockets.Table

/-!
# `lwip_recvfrom` on a stream socket

One thread reads. A chain of pbufs comes from `recvmbox` and stays in `lastdata` until all of it has
been returned; `netconn_recved` gives the length back to the stack. Between any two steps of a call
`recv_tcp` may put another chain into `recvmbox`.
-/

namespace QuietLwip.Sockets

open Word Transition

/-- A chain of pbufs; `recv_tcp` gets no empty one, and `tot_len` has 16 bits. -/
structure Chain (α : Type*) where
  data : List α
  push : Bool := false
  nonempty : data ≠ []
  totLen_lt : data.length < 65536
  deriving DecidableEq

/-- The values of `last_err` that a read leaves. -/
inductive ConnErr where
  | ok
  | timeout
  | clsd
  deriving DecidableEq

/-- `ERR_IS_FATAL` -/
def ConnErr.isFatal : ConnErr → Bool
  | .clsd => true
  | _ => false

/-- `NETCONN_SET_SAFE_ERR` -/
def ConnErr.setSafe (err lastErr : ConnErr) : ConnErr := if lastErr.isFatal then lastErr else err

/-- The arguments of a call: `nonblocking` is `MSG_DONTWAIT` or the flag of the netconn. -/
structure RecvCall where
  len : ℕ
  peek : Bool := false
  nonblocking : Bool := false
  deriving DecidableEq

/-- A call with what has been copied to `mem`; `off` is the length of it, and `len` what is left. -/
structure RecvFrame (α : Type*) extends RecvCall where
  mem : List α := []
  deriving DecidableEq

/-- `INT_MAX` -/
def intMax : ℕ := 2 ^ 31 - 1

/-- Where a call stands. -/
inductive RecvPc (α : Type*) where
  | idle
  -- the head of the loop
  | top (f : RecvFrame α)
  -- `sys_arch_mbox_fetch`
  | fetch (f : RecvFrame α)
  -- there is data in `lastdata`
  | copy (f : RecvFrame α)
  -- `off` has overflowed, what follows is undefined
  | overflow (f : RecvFrame α)
  deriving DecidableEq

/-- What a call returns: bytes, 0 at the end of the stream, or -1 with `EWOULDBLOCK` or the error of a
timeout. -/
inductive RecvResult (α : Type*) where
  | bytes (mem : List α)
  | closed
  | wouldBlock
  | timedOut
  deriving DecidableEq

/-- The return of a call; `peek` is that of its arguments. -/
structure Returned (α : Type*) where
  peek : Bool
  result : RecvResult α
  deriving DecidableEq

/-- The socket, its `recvmbox` and the reading thread. `unnotified` counts the messages whose
`API_EVENT` is still to come, `ended` says that `recv_tcp` has put `NULL` into `recvmbox`. -/
structure RecvState (α : Type*) where
  sock : Sock Unit (Chain α)
  recvmbox : List (Option (Chain α)) := []
  unnotified : ℕ := 0
  ended : Bool := false
  lastErr : ConnErr := .ok
  pc : RecvPc α := .idle

/-- `do_recv`: the lengths that `tcp_recved` gets, of 16 bits each. -/
def doRecv (remaining : ℕ) : List ℕ :=
  if remaining ≤ 0xffff then [remaining] else 0xffff :: doRecv (remaining - 0xffff)
termination_by remaining
decreasing_by omega

/-- The state after a turn, the lengths that `do_recv` got, and what was returned. -/
structure RecvTurn (α : Type*) where
  next : RecvState α
  recved : List ℕ := []
  returned : Option (Returned α) := none

namespace RecvState

variable {α : Type*}

/-- The end of a call that returns `off`. -/
def finish (f : RecvFrame α) (s : RecvState α) : RecvTurn α where
  next := { s with pc := .idle }
  recved := if 0 < f.mem.length then [f.mem.length] else []
  returned := some ⟨f.peek, .bytes f.mem⟩

/-- No data; what has been copied before is returned. -/
def noData (f : RecvFrame α) (result : RecvResult α) (s : RecvState α) : RecvTurn α :=
  if 0 < f.mem.length then s.finish f
  else { next := { s with pc := .idle }, returned := some ⟨f.peek, result⟩ }

/-- The head of the loop, as far as the mailbox. -/
def turnTop (f : RecvFrame α) (s : RecvState α) : RecvTurn α :=
  match s.sock.lastdata with
  | some _ => { next := { s with pc := .copy f } }
  | none =>
    if f.nonblocking = true ∧ s.sock.rcvevent ≤ 0 then s.noData f .wouldBlock
    else if s.lastErr.isFatal then s.noData f .closed
    else { next := { s with pc := .fetch f } }

/-- The rest of `netconn_recv_data`; `expired` is the answer for an empty mailbox. -/
def turnFetch (expired : Bool) (f : RecvFrame α) (s : RecvState α) : Option (RecvTurn α) :=
  match s.recvmbox with
  | [] =>
    if expired then some ({ s with lastErr := ConnErr.timeout.setSafe s.lastErr }.noData f .timedOut)
    else none
  | some chain :: rest =>
    some { next := { s with
      recvmbox := rest
      sock := { s.sock.event .rcvMinus with lastdata := some chain }
      pc := .copy f } }
  | none :: rest =>
    let turn := { s with
      recvmbox := rest
      sock := s.sock.event .rcvMinus
      lastErr := ConnErr.clsd.setSafe s.lastErr }.noData f .closed
    some { turn with recved := 1 :: turn.recved }

/-- What is left in `lastdata` when `copylen` bytes have been taken. -/
def take (chain : Chain α) (copylen : ℕ) (sock : Sock Unit (Chain α)) : Sock Unit (Chain α) :=
  if copylen < chain.data.length - sock.lastoffset then
    { sock with lastdata := some chain, lastoffset := sock.lastoffset + copylen }
  else { sock with lastdata := none, lastoffset := 0 }

/-- The copy from `lastdata`, and the end of the turn of the loop. -/
def turnCopy (f : RecvFrame α) (chain : Chain α) (s : RecvState α) : RecvTurn α :=
  let copylen := min f.len (chain.data.length - s.sock.lastoffset)
  if intMax < f.mem.length + copylen then { next := { s with pc := .overflow f } }
  else
    let f := { f with
      len := f.len - copylen
      mem := f.mem ++ (chain.data.drop s.sock.lastoffset).take copylen }
    let s := { s with sock := if f.peek then s.sock else take chain copylen s.sock }
    if f.len = 0 ∨ chain.push = true ∨ s.sock.rcvevent ≤ 0 ∨ f.peek = true then s.finish f
    else { next := { s with pc := .top f } }

/-- A turn of the reading thread. -/
def turn (expired : Bool) (s : RecvState α) : Option (RecvTurn α) :=
  match s.pc with
  | .idle => none
  | .top f => some (s.turnTop f)
  | .fetch f => s.turnFetch expired f
  | .copy f => s.sock.lastdata.map fun chain => s.turnCopy f chain
  | .overflow _ => none

end RecvState

/-- What happens to a stream socket: `recv_tcp` puts a chain or `NULL` into `recvmbox` and gives its
event afterwards, and the thread calls `lwip_recvfrom` and takes its turns. -/
inductive RecvEvent (α : Type*) where
  | post (msg : Option (Chain α))
  | notify
  | call (c : RecvCall)
  | turn (expired : Bool) (recved : List ℕ) (returned : Option (Returned α))

/-- One stream socket from its connection on. -/
def receiving (α : Type*) : System (RecvState α) (RecvEvent α) where
  start s := s = { sock := { conn := some () } }
  step s e t :=
    match e with
    | .post msg => s.ended = false ∧ t = { s with
        recvmbox := s.recvmbox ++ [msg], unnotified := s.unnotified + 1, ended := msg.isNone }
    | .notify => 0 < s.unnotified ∧
        t = { s with sock := s.sock.event .rcvPlus, unnotified := s.unnotified - 1 }
    | .call c => s.pc = .idle ∧ t = { s with pc := .top { c with } }
    | .turn expired recved returned => s.turn expired = some ⟨t, recved, returned⟩

/-! ### Building runs -/

section

variable {α : Type*} {ok : RecvState α → RecvEvent α → Prop} {as : List (RecvEvent α)}
  {s t : RecvState α}

theorem run_post (h : (receiving α).Run ok as s) (m : Option (Chain α)) (hok : ok s (.post m))
    (hopen : s.ended = false) : (receiving α).Run ok (as ++ [.post m]) { s with
      recvmbox := s.recvmbox ++ [m], unnotified := s.unnotified + 1, ended := m.isNone } :=
  h.snoc hok ⟨hopen, rfl⟩

theorem run_notify (h : (receiving α).Run ok as s) (hok : ok s .notify) (hpos : 0 < s.unnotified) :
    (receiving α).Run ok (as ++ [.notify])
      { s with sock := s.sock.event .rcvPlus, unnotified := s.unnotified - 1 } :=
  h.snoc hok ⟨hpos, rfl⟩

theorem run_call (h : (receiving α).Run ok as s) (c : RecvCall) (hok : ok s (.call c))
    (hidle : s.pc = .idle) :
    (receiving α).Run ok (as ++ [.call c]) { s with pc := .top { c with } } :=
  h.snoc hok ⟨hidle, rfl⟩

theorem run_turn {recved : List ℕ} {returned : Option (Returned α)}
    (h : (receiving α).Run ok as s) (e : Bool) (hok : ok s (.turn e recved returned))
    (ht : s.turn e = some ⟨t, recved, returned⟩) :
    (receiving α).Run ok (as ++ [.turn e recved returned]) t :=
  h.snoc hok ht

end

/-! ### What a run has done -/

variable {α : Type*}

/-- The bytes that an event puts into `recvmbox`. -/
def RecvEvent.delivered : RecvEvent α → List α
  | .post (some chain) => chain.data
  | _ => []

/-- The bytes that a non-peeking call returns. -/
def Returned.read : Option (Returned α) → List α
  | some ⟨false, .bytes mem⟩ => mem
  | _ => []

def RecvEvent.read : RecvEvent α → List α
  | .turn _ _ returned => Returned.read returned
  | _ => []

/-- The length that is credited back to the window. -/
def RecvEvent.credited : RecvEvent α → ℕ
  | .turn _ recved _ => (recved.flatMap doRecv).sum
  | _ => 0

/-- The bytes delivered to `recvmbox`, in order. -/
def delivered (as : List (RecvEvent α)) : List α := as.flatMap RecvEvent.delivered

/-- The bytes that the non-peeking calls have returned, in order. -/
def readBytes (as : List (RecvEvent α)) : List α := as.flatMap RecvEvent.read

/-- The total length credited back. -/
def credited (as : List (RecvEvent α)) : ℕ := (as.map RecvEvent.credited).sum

end QuietLwip.Sockets
