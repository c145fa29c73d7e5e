import QuietLwip.Foundation.Links
import QuietLwip.Mailbox.Mbox

/-!
# The table of sockets

`sockets` and the list of the calls of `lwip_select` that wait, with what one section between
`SYS_ARCH_PROTECT` and `SYS_ARCH_UNPROTECT` does to them. A call of `lwip_select` keeps its
`select_cb` on the stack of its thread, and so threads name these.
-/

namespace QuietLwip.Sockets

open Word Links

/-- `NUM_SOCKETS`, which is `MEMP_NUM_NETCONN`. -/
def numSockets : ℕ := 100

/-- `struct lwip_sock` over the netconns `κ` and the data `δ` that a read leaves. -/
structure Sock (κ δ : Type*) where
  conn : Option κ := none
  lastdata : Option δ := none
  lastoffset : ℕ := 0
  rcvevent : ℤ := 0
  sendevent : ℕ := 0
  errevent : ℕ := 0
  err : ℤ := 0
  selectWaiting : ℤ := 0

/-- `enum netconn_evt` -/
inductive Evt where
  | rcvPlus
  | rcvMinus
  | sendPlus
  | sendMinus
  | error
  deriving DecidableEq

/-- `struct timeval` -/
structure Timeval where
  tvSec : ℤ
  tvUsec : ℤ
  deriving DecidableEq

/-- The time to wait in milliseconds; 0 means for ever. -/
def msectimeout : Option Timeval → ℕ
  | none => 0
  | some tv =>
    let msec := u32 (tv.tvSec * 1000 + (tv.tvUsec + 500).tdiv 1000)
    if msec = 0 then 1 else msec

/-- `set && FD_ISSET(i, set)` -/
def fdIsset (i : ℕ) (set : Option (Finset ℕ)) : Bool := set.any fun set => decide (i ∈ set)

/-- The arguments of `lwip_select`. -/
structure Call where
  maxfdp1 : ℕ
  readset : Option (Finset ℕ)
  writeset : Option (Finset ℕ)
  exceptset : Option (Finset ℕ)
  timeout : Option Timeval

/-- The descriptor is in one of the sets. -/
def Call.wants (c : Call) (i : ℕ) : Bool :=
  fdIsset i c.readset || fdIsset i c.writeset || fdIsset i c.exceptset

/-- The call is interested in the descriptor. -/
def Call.Asks (c : Call) (i : ℕ) : Prop := i < c.maxfdp1 ∧ c.wants i = true

instance (c : Call) (i : ℕ) : Decidable (c.Asks i) := inferInstanceAs (Decidable (_ ∧ _))

/-- `struct lwip_select_cb`, less its links. -/
structure SelectCb where
  readset : Option (Finset ℕ)
  writeset : Option (Finset ℕ)
  exceptset : Option (Finset ℕ)
  semSignalled : Bool
  sem : ℕ

/-- What `lwip_selscan` has found. -/
structure Found where
  nready : ℕ := 0
  readset : Finset ℕ := ∅
  writeset : Finset ℕ := ∅
  exceptset : Finset ℕ := ∅

section

variable {κ δ : Type*}

/-- Whether there is something to read, by the test of `lwip_selscan`. -/
def Sock.readable (sock : Sock κ δ) : Bool := sock.lastdata.isSome || decide (0 < sock.rcvevent)

/-- The socket is ready for what the call asks of it, by the test of `lwip_selscan`. -/
def Call.Ready (c : Call) (i : ℕ) (sock : Sock κ δ) : Prop :=
  fdIsset i c.readset = true ∧ sock.readable = true ∨
    fdIsset i c.writeset = true ∧ sock.sendevent ≠ 0 ∨
      fdIsset i c.exceptset = true ∧ sock.errevent ≠ 0

instance (c : Call) (i : ℕ) (sock : Sock κ δ) : Decidable (c.Ready i sock) :=
  inferInstanceAs (Decidable (_ ∨ _))

/-- `lwip_selscan` at one descriptor; without a socket nothing is ready. -/
def Call.selscan (c : Call) (i : ℕ) (sock : Option (Sock κ δ)) (found : Found) : Found :=
  match sock with
  | none => found
  | some sock =>
    let found :=
      if fdIsset i c.readset && sock.readable then
        { found with readset := insert i found.readset, nready := found.nready + 1 }
      else found
    let found :=
      if fdIsset i c.writeset && decide (sock.sendevent ≠ 0) then
        { found with writeset := insert i found.writeset, nready := found.nready + 1 }
      else found
    if fdIsset i c.exceptset && decide (sock.errevent ≠ 0) then
      { found with exceptset := insert i found.exceptset, nready := found.nready + 1 }
    else found

/-- The first section of `event_callback` sets the event as required. -/
def Sock.event (evt : Evt) (sock : Sock κ δ) : Sock κ δ :=
  match evt with
  | .rcvPlus => { sock with rcvevent := s16 (sock.rcvevent + 1) }
  | .rcvMinus => { sock with rcvevent := s16 (sock.rcvevent - 1) }
  | .sendPlus => { sock with sendevent := 1 }
  | .sendMinus => { sock with sendevent := 0 }
  | .error => { sock with errevent := 1 }

/-- `do_signal` of `event_callback` for the socket with number `s`. -/
def SelectCb.doSignal (cb : SelectCb) (s : ℕ) (sock : Sock κ δ) : Bool :=
  decide (0 < sock.rcvevent) && fdIsset s cb.readset ||
    decide (sock.sendevent ≠ 0) && fdIsset s cb.writeset ||
      decide (sock.errevent ≠ 0) && fdIsset s cb.exceptset

end

/-- `sockets`, `select_cb_list` and `select_cb_ctr`. The counter does not wrap here, and where it is
compared it is taken modulo `2 ^ 32`. -/
structure Mem (τ κ δ : Type*) where
  sockets : ℕ → Sock κ δ
  cbs : τ → SelectCb
  next : τ → Option τ
  prev : τ → Option τ
  selectCbList : Option τ
  selectCbCtr : ℕ

namespace Mem

variable {τ κ δ : Type*} (m : Mem τ κ δ)

/-- `tryget_socket`, and `get_socket` but for `errno` -/
def trygetSocket (s : ℕ) : Option (Sock κ δ) :=
  if s < numSockets ∧ (m.sockets s).conn.isSome then some (m.sockets s) else none

/-- An update of the socket with number `s`. -/
def onSock (s : ℕ) (f : Sock κ δ → Sock κ δ) : Mem τ κ δ :=
  { m with sockets := Function.update m.sockets s (f (m.sockets s)) }

variable [DecidableEq τ] (t : τ)

/-- The fields of `select_cb` before it is put on the list. -/
def initCb (c : Call) : Mem τ κ δ :=
  { m with
    cbs := Function.update m.cbs t ⟨c.readset, c.writeset, c.exceptset, false, 0⟩
    next := Function.update m.next t none
    prev := Function.update m.prev t none }

/-- The section that puts `select_cb` on top of the list. -/
def link : Mem τ κ δ :=
  { m with
    next := Function.update m.next t m.selectCbList
    prev := pointBack m.prev m.selectCbList (some t)
    selectCbList := some t
    selectCbCtr := m.selectCbCtr + 1 }

/-- The section that takes `select_cb` off the list; `none` where one of its assertions fails. -/
def unlink : Option (Mem τ κ δ) :=
  let prev := pointBack m.prev (m.next t) (m.prev t)
  if m.selectCbList = some t then
    if m.prev t = none then
      some { m with
        prev := prev
        selectCbList := m.next t
        selectCbCtr := m.selectCbCtr + 1 }
    else none
  else
    match m.prev t with
    | none => none
    | some p =>
      some { m with
        prev := prev
        next := Function.update m.next p (m.next t)
        selectCbCtr := m.selectCbCtr + 1 }

/-- `sys_arch_sem_wait` on the semaphore of `select_cb` ends. -/
def takeSem : Mem τ κ δ :=
  { m with cbs := Function.update m.cbs t { m.cbs t with sem := (m.cbs t).sem - 1 } }

/-- `event_callback` at one `select_cb` of the list. -/
def signal (s : ℕ) : Mem τ κ δ :=
  if (m.cbs t).semSignalled = false ∧ (m.cbs t).doSignal s (m.sockets s) = true then
    { m with
      cbs := Function.update m.cbs t
        { m.cbs t with semSignalled := true, sem := Mailbox.sysSemSignal (m.cbs t).sem } }
  else m

end Mem

end QuietLwip.Sockets
