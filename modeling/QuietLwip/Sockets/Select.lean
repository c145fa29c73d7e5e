import QuietLwip.Foundation.Transition
import QuietLwip.Sockets.Table

/-!
# Threads in `lwip_select`, `event_callback`, `lwip_close` and `alloc_socket`

Any number of threads, each at a point between two sections of `SYS_ARCH_PROTECT`. A section is one
step, and so is what `lwip_selscan` does for one descriptor.
-/

namespace QuietLwip.Sockets

open Transition

/-- Which of the three calls of `lwip_selscan`. -/
inductive Round where
  | first
  | second
  | last
  deriving DecidableEq

/-- The assertions of `lwip_select`: on `sock`, on `select_waiting` and on `select_cb.prev`. -/
inductive Assertion where
  | sock
  | selectWaiting
  | prev
  deriving DecidableEq

/-- The next step of a thread. -/
inductive Pc (τ κ δ : Type*) where
  | idle
  -- `lwip_selscan`, before the descriptor `i`
  | scan (c : Call) (round : Round) (i : ℕ) (found : Found)
  -- `sys_sem_new`
  | newSem (c : Call)
  -- the section that puts `select_cb` on the list
  | link (c : Call)
  -- `tryget_socket(i)` before the increment of `select_waiting`, and the increment
  | register (c : Call) (i : ℕ)
  | count (c : Call) (i : ℕ)
  -- `sys_arch_sem_wait`
  | block (c : Call)
  -- `tryget_socket(i)` before the decrement of `select_waiting`, and the decrement
  | unregister (c : Call) (i : ℕ) (timedOut : Bool)
  | uncount (c : Call) (i : ℕ) (timedOut : Bool)
  -- the section that takes `select_cb` off the list
  | unlink (c : Call) (timedOut : Bool)
  -- `lwip_select` has returned
  | returned (found : Found)
  -- `event_callback`: `get_socket(s)`, the first section, and between two sections
  | getSocket (s : ℕ) (evt : Evt)
  | mark (s : ℕ) (evt : Evt)
  | walk (s : ℕ) (scb : τ) (lastSelectCbCtr : ℕ)
  -- a reader in `lwip_recvfrom` that is about to set `lastdata`
  | leave (s : ℕ) (lastdata : Option δ) (lastoffset : ℕ)
  -- `lwip_close`: `get_socket(s)`, `netconn_delete`, and the section of `free_socket`
  | close (s : ℕ)
  | delete (s : ℕ)
  | free (s : ℕ)
  -- `alloc_socket`: the section for the slot `i`, and what follows in the slot it has taken
  | alloc (conn : κ) (isTcp accepted : Bool) (i : ℕ)
  | clear (isTcp accepted : Bool) (i : ℕ)
  | clearWaiting (i : ℕ)
  | aborted (a : Assertion)

/-- Where `lwip_select` goes on after `lwip_selscan`. -/
def Call.afterScan {τ κ δ : Type*} (c : Call) (round : Round) (found : Found) : Pc τ κ δ :=
  match round with
  | .first =>
    if found.nready ≠ 0 ∨ c.timeout = some ⟨0, 0⟩ then .returned found else .newSem c
  | .second => if found.nready ≠ 0 then .unregister c 0 false else .block c
  | .last => .returned found

/-- `event_callback` from `scb` on to the end of the section. -/
def Mem.visit {τ κ δ : Type*} [DecidableEq τ] (m : Mem τ κ δ) (s : ℕ) (scb : Option τ) :
    Mem τ κ δ × Pc τ κ δ :=
  match scb with
  | none => (m, .idle)
  | some scb => (m.signal scb s, .walk s scb m.selectCbCtr)

variable {τ κ δ : Type*} [DecidableEq τ]

/-- One step of the thread `t`. -/
inductive Step (t : τ) (m : Mem τ κ δ) : Pc τ κ δ → Mem τ κ δ → Pc τ κ δ → Prop
  | select {c : Call} : Step t m .idle m (.scan c .first 0 {})
  | selscan {c : Call} {round : Round} {i : ℕ} {found : Found} (h : i < c.maxfdp1) :
    Step t m (.scan c round i found) m
      (.scan c round (i + 1) (c.selscan i (m.trygetSocket i) found))
  | scanned {c : Call} {round : Round} {i : ℕ} {found : Found} (h : ¬i < c.maxfdp1) :
    Step t m (.scan c round i found) m (c.afterScan round found)
  | noSem {c : Call} : Step t m (.newSem c) m .idle
  | newSem {c : Call} : Step t m (.newSem c) (m.initCb t c) (.link c)
  | link {c : Call} : Step t m (.link c) (m.link t) (.register c 0)
  | registerSkip {c : Call} {i : ℕ} (h : i < c.maxfdp1) (hw : c.wants i = false) :
    Step t m (.register c i) m (.register c (i + 1))
  | registerNull {c : Call} {i : ℕ} (h : c.Asks i) (hs : m.trygetSocket i = none) :
    Step t m (.register c i) m (.aborted .sock)
  | register {c : Call} {i : ℕ} (h : c.Asks i) (hs : (m.trygetSocket i).isSome) :
    Step t m (.register c i) m (.count c i)
  | registered {c : Call} {i : ℕ} (h : ¬i < c.maxfdp1) :
    Step t m (.register c i) m (.scan c .second 0 {})
  | count {c : Call} {i : ℕ} (h : 0 < (m.sockets i).selectWaiting + 1) :
    Step t m (.count c i)
      (m.onSock i fun sock => { sock with selectWaiting := sock.selectWaiting + 1 })
      (.register c (i + 1))
  | countFails {c : Call} {i : ℕ} (h : ¬0 < (m.sockets i).selectWaiting + 1) :
    Step t m (.count c i) m (.aborted .selectWaiting)
  | woken {c : Call} (h : 0 < (m.cbs t).sem) :
    Step t m (.block c) (m.takeSem t) (.unregister c 0 false)
  | timedOut {c : Call} (h : msectimeout c.timeout ≠ 0) :
    Step t m (.block c) m (.unregister c 0 true)
  | unregisterSkip {c : Call} {i : ℕ} {timedOut : Bool} (h : i < c.maxfdp1)
    (hw : c.wants i = false) :
    Step t m (.unregister c i timedOut) m (.unregister c (i + 1) timedOut)
  | unregisterNull {c : Call} {i : ℕ} {timedOut : Bool} (h : c.Asks i)
    (hs : m.trygetSocket i = none) : Step t m (.unregister c i timedOut) m (.aborted .sock)
  | unregister {c : Call} {i : ℕ} {timedOut : Bool} (h : c.Asks i)
    (hs : (m.trygetSocket i).isSome) :
    Step t m (.unregister c i timedOut) m (.uncount c i timedOut)
  | unregistered {c : Call} {i : ℕ} {timedOut : Bool} (h : ¬i < c.maxfdp1) :
    Step t m (.unregister c i timedOut) m (.unlink c timedOut)
  | uncount {c : Call} {i : ℕ} {timedOut : Bool} (h : 0 ≤ (m.sockets i).selectWaiting - 1) :
    Step t m (.uncount c i timedOut)
      (m.onSock i fun sock => { sock with selectWaiting := sock.selectWaiting - 1 })
      (.unregister c (i + 1) timedOut)
  | uncountFails {c : Call} {i : ℕ} {timedOut : Bool}
    (h : ¬0 ≤ (m.sockets i).selectWaiting - 1) :
    Step t m (.uncount c i timedOut) m (.aborted .selectWaiting)
  | unlink {c : Call} {timedOut : Bool} {m' : Mem τ κ δ} (h : m.unlink t = some m') :
    Step t m (.unlink c timedOut) m' (if timedOut then .returned {} else .scan c .last 0 {})
  | unlinkFails {c : Call} {timedOut : Bool} (h : m.unlink t = none) :
    Step t m (.unlink c timedOut) m (.aborted .prev)
  | take {found : Found} : Step t m (.returned found) m .idle
  | callback {s : ℕ} {evt : Evt} : Step t m .idle m (.getSocket s evt)
  | noSocket {s : ℕ} {evt : Evt} (h : m.trygetSocket s = none) :
    Step t m (.getSocket s evt) m .idle
  | getSocket {s : ℕ} {evt : Evt} (h : (m.trygetSocket s).isSome) :
    Step t m (.getSocket s evt) m (.mark s evt)
  | markAlone {s : ℕ} {evt : Evt} (h : (m.sockets s).selectWaiting = 0) :
    Step t m (.mark s evt) (m.onSock s (Sock.event evt)) .idle
  | mark {s : ℕ} {evt : Evt} (h : (m.sockets s).selectWaiting ≠ 0) :
    Step t m (.mark s evt) ((m.onSock s (Sock.event evt)).visit s m.selectCbList).1
      ((m.onSock s (Sock.event evt)).visit s m.selectCbList).2
  | walk {s : ℕ} {scb : τ} {ctr : ℕ} (h : ctr % 2 ^ 32 = m.selectCbCtr % 2 ^ 32) :
    Step t m (.walk s scb ctr) (m.visit s (m.next scb)).1 (m.visit s (m.next scb)).2
  | again {s : ℕ} {scb : τ} {ctr : ℕ} (h : ctr % 2 ^ 32 ≠ m.selectCbCtr % 2 ^ 32) :
    Step t m (.walk s scb ctr) (m.visit s m.selectCbList).1 (m.visit s m.selectCbList).2
  | read {s : ℕ} {lastdata : Option δ} {lastoffset : ℕ} :
    Step t m .idle m (.leave s lastdata lastoffset)
  | leave {s : ℕ} {lastdata : Option δ} {lastoffset : ℕ} :
    Step t m (.leave s lastdata lastoffset)
      (m.onSock s fun sock => { sock with lastdata := lastdata, lastoffset := lastoffset }) .idle
  | closeCall {s : ℕ} : Step t m .idle m (.close s)
  | closeBad {s : ℕ} (h : m.trygetSocket s = none) : Step t m (.close s) m .idle
  | close {s : ℕ} (h : (m.trygetSocket s).isSome) : Step t m (.close s) m (.delete s)
  | delete {s : ℕ} :
    Step t m (.delete s)
      (m.onSock s fun sock => { sock with lastdata := none, lastoffset := 0, err := 0 }) (.free s)
  | free {s : ℕ} : Step t m (.free s) (m.onSock s fun sock => { sock with conn := none }) .idle
  | allocCall {conn : κ} {isTcp accepted : Bool} : Step t m .idle m (.alloc conn isTcp accepted 0)
  | allocNext {conn : κ} {isTcp accepted : Bool} {i : ℕ} (hi : i < numSockets)
    (h : (m.sockets i).conn.isSome) :
    Step t m (.alloc conn isTcp accepted i) m (.alloc conn isTcp accepted (i + 1))
  | allocFull {conn : κ} {isTcp accepted : Bool} {i : ℕ} (hi : ¬i < numSockets) :
    Step t m (.alloc conn isTcp accepted i) m .idle
  | alloc {conn : κ} {isTcp accepted : Bool} {i : ℕ} (hi : i < numSockets)
    (h : (m.sockets i).conn = none) :
    Step t m (.alloc conn isTcp accepted i) (m.onSock i fun sock => { sock with conn := some conn })
      (.clear isTcp accepted i)
  | clear {isTcp accepted : Bool} {i : ℕ} :
    Step t m (.clear isTcp accepted i)
      (m.onSock i fun sock =>
        { sock with
          lastdata := none
          lastoffset := 0
          rcvevent := 0
          sendevent := if isTcp then accepted.toNat else 1
          errevent := 0
          err := 0 })
      (.clearWaiting i)
  | clearWaiting {i : ℕ} :
    Step t m (.clearWaiting i) (m.onSock i fun sock => { sock with selectWaiting := 0 }) .idle

/-- The sockets with the threads that use them. -/
structure State (τ κ δ : Type*) where
  mem : Mem τ κ δ
  pc : τ → Pc τ κ δ

/-- Any interleaving, from a moment on at which no thread is in a call. -/
def selecting (τ κ δ : Type*) [DecidableEq τ] : System (State τ κ δ) τ where
  start s := (∀ t, s.pc t = .idle) ∧ s.mem.selectCbList = none ∧
    ∀ i, (s.mem.sockets i).selectWaiting = 0
  step s t s' := ∃ m pc, Step t s.mem (s.pc t) m pc ∧ s' = ⟨m, Function.update s.pc t pc⟩

/-! ### Regions of the program -/

/-- The `select_cb` of the thread is on the list. -/
def Pc.Listed : Pc τ κ δ → Prop
  | register .. | count .. | scan _ .second .. | block _ | unregister .. | uncount ..
  | unlink .. => True
  | _ => False

/-- The thread is counted in `select_waiting` of the socket. -/
def Pc.counted (i : ℕ) : Pc τ κ δ → Bool
  | register c j | count c j => decide (i < j ∧ c.Asks i)
  | scan c .second _ _ => decide (c.Asks i)
  | block c => decide (c.Asks i)
  | unregister c j _ | uncount c j _ => decide (j ≤ i ∧ c.Asks i)
  | _ => false

/-- The thread is in a call of `lwip_select` that still looks the descriptor up or is counted in for
it. -/
def Pc.Uses (i : ℕ) : Pc τ κ δ → Prop
  | register c _ | count c _ => c.Asks i
  | scan c .second _ _ => c.Asks i
  | block c => c.Asks i
  | unregister c j _ | uncount c j _ => j ≤ i ∧ c.Asks i
  | _ => False

omit [DecidableEq τ] in
theorem Pc.uses_of_counted {i : ℕ} {pc : Pc τ κ δ} (h : pc.counted i = true) : pc.Uses i := by
  cases pc with
  | register c j => exact (of_decide_eq_true (p := i < j ∧ c.Asks i) h).2
  | count c j => exact (of_decide_eq_true (p := i < j ∧ c.Asks i) h).2
  | scan c round j found =>
    cases round with
    | second => exact of_decide_eq_true (p := c.Asks i) h
    | _ => cases h
  | block c => exact of_decide_eq_true (p := c.Asks i) h
  | unregister c j timedOut => exact of_decide_eq_true (p := j ≤ i ∧ c.Asks i) h
  | uncount c j timedOut => exact of_decide_eq_true (p := j ≤ i ∧ c.Asks i) h
  | _ => cases h

/-- The thread is in `alloc_socket`, with the slot taken and not yet cleared. -/
def Pc.Clears (i : ℕ) : Pc τ κ δ → Prop
  | clear _ _ j | clearWaiting j => j = i
  | _ => False

/-- The thread is in `event_callback`. -/
def Pc.InCallback : Pc τ κ δ → Prop
  | getSocket .. | mark .. | walk .. => True
  | _ => False

/-! ### What a program owes `lwip_select` -/

/-- When a call goes on the list, the descriptors in its sets are open sockets, none of them just being
set up, and none of them is freed before the call is through with it. -/
def Disciplined (s : State τ κ δ) (t : τ) : Prop :=
  match s.pc t with
  | .link c => ∀ i, c.Asks i → (s.mem.trygetSocket i).isSome ∧ ∀ u, ¬(s.pc u).Clears i
  | .free i => ∀ u, ¬(s.pc u).Uses i
  | _ => True

/-- Fewer than `2 ^ 32` changes of the list have been made since a walk left its last section, with
the next one. -/
def State.Room (s : State τ κ δ) : Prop :=
  ∀ e i scb k, s.pc e = .walk i scb k → s.mem.selectCbCtr + 1 < k + 2 ^ 32

/-- The list is changed less than `2 ^ 32` times while a walk is between two sections. -/
def Roomy (s : State τ κ δ) (t : τ) : Prop :=
  match s.pc t with
  | .link _ | .unlink .. => s.Room
  | _ => True

/-- No reader leaves data in a socket that a call on the list uses. -/
def Unread (s : State τ κ δ) (t : τ) : Prop :=
  match s.pc t with
  | .leave i lastdata _ => lastdata.isSome → ∀ u, ¬(s.pc u).Uses i
  | _ => True

def Attended (s : State τ κ δ) (t : τ) : Prop := Disciplined s t ∧ Roomy s t ∧ Unread s t

/-- None of the three concerns what the thread does next. -/
def Pc.Harmless : Pc τ κ δ → Prop
  | link _ | unlink .. | free _ | leave .. => False
  | _ => True

omit [DecidableEq τ] in
theorem attended_of {s : State τ κ δ} {t : τ} {pc : Pc τ κ δ} (hpc : s.pc t = pc)
    (h : pc.Harmless) : Attended s t := by
  subst hpc
  rw [Attended, Disciplined, Roomy, Unread]
  revert h
  cases s.pc t with
  | link | unlink | free | leave => exact False.elim
  | _ => exact fun _ => ⟨trivial, trivial, trivial⟩

end QuietLwip.Sockets
