import QuietLwip.Foundation.Transition
import QuietLwip.Tcp.Input

/-!
# The stack, its application and its clock

One thread runs the stack. When it is idle, a segment may arrive, the timer may fire or the
application may make a call; in a callback the application may make calls until it returns. An
error callback of a call (`tcp_abort`, `tcp_new`) is made before this call returns, so callbacks
nest.
-/

namespace QuietLwip.Tcp

open Transition

/-- A call of the application that is not done: it has made an error callback. -/
inductive Pending where
  -- `tcp_abort`
  | aborting
  -- `tcp_new`, in `tcp_kill_prio`
  | newing

structure State where
  tcp : Stack
  activity : Activity
  -- the calls that are not done, the last one first
  pending : List Pending

/-- `TCP_PRIO_NORMAL`. -/
def tcpPrioNormal : ℕ := 64

def Call.exec (env : Env) (t : Stack) : Call → Option (Stack × Option Pending)
  | .new => (t.tcpAlloc env tcpPrioNormal).map fun (t, npcb) =>
      (t, if npcb = none then some .newing else none)
  | .bind n ip port => (t.tcpBind n ip port).map fun t => (t, none)
  | .listen n => (t.tcpListen env n).map fun t => (t, none)
  | .connect n ip port => (t.tcpConnect env n ip port).map fun t => (t, none)
  | .close n => (t.tcpClose env n).map fun t => (t, none)
  | .shutdown n shutRx shutTx => (t.tcpShutdown env n shutRx shutTx).map fun t => (t, none)
  | .abort n => (t.tcpAbandon env n).map fun (t, told) =>
      (t, if told then some .aborting else none)
  | .other n prio reuseaddr conn =>
    some (t.modify n fun pcb => { pcb with prio := prio, reuseaddr := reuseaddr, conn := conn },
      none)

/-- The application only uses the pcbs that are in use. -/
def Call.Valid (t : Stack) (c : Call) : Prop := ∀ n ∈ c.pcb, t.live n = true

/-- The application runs: the stack is idle or in a callback. -/
def Activity.AppRuns : Activity → Prop
  | .fast _ | .slow _ _ | .timeWait _ _ => False
  | _ => True

/-- What the stack does when a callback it has made itself returns. -/
def Activity.resume (env : Env) (err : Err) (t : Stack) : Activity → Option (Stack × Activity)
  | .fastRecv n fin next => some (t.fastReturn err n fin next)
  | .fastClosed next => some (t, t.fastNext next)
  | .slowErr prev pcb => some (t, t.slowNext prev pcb)
  | .slowPoll prev pcb => some (t.pollReturn env err prev pcb)
  | .input point n seg => (t.inputReturn env err n seg point).map fun (t, wait) => (t, wait.activity)
  | .accepting lpcb prio seg =>
    ((t.tcpAllocAgain env prio).1.listenAccept env lpcb (t.tcpAllocAgain env prio).2 seg).map
      fun (t, wait) => (t, wait.activity)
  | _ => none

inductive Event where
  | call (env : Env) (c : Call)
  | ret (env : Env) (err : Err)
  | segment (env : Env) (seg : Segment)
  | tmr
  | turn (env : Env)

/-- One step; `none` when it does not end or an assertion fails. -/
inductive State.Step : State → Event → State → Prop
  | call {s : State} {env : Env} {c : Call} {t : Stack} {pending : Option Pending}
      (happ : s.activity.AppRuns) (hvalid : c.Valid s.tcp)
      (hexec : c.exec env s.tcp = some (t, pending)) :
      Step s (.call env c) { s with tcp := t, pending := pending.toList ++ s.pending }
  | aborted {s : State} {env : Env} {err : Err} {pending : List Pending}
      (hpending : s.pending = .aborting :: pending) :
      Step s (.ret env err) { s with pending := pending }
  | newed {s : State} {env : Env} {err : Err} {pending : List Pending}
      (hpending : s.pending = .newing :: pending) :
      Step s (.ret env err)
        { s with tcp := (s.tcp.tcpAllocAgain env tcpPrioNormal).1, pending := pending }
  | ret {s : State} {env : Env} {err : Err} {t : Stack} {activity : Activity}
      (hpending : s.pending = []) (hresume : s.activity.resume env err s.tcp = some (t, activity)) :
      Step s (.ret env err) ⟨t, activity, []⟩
  | segment {s : State} {env : Env} {seg : Segment} {t : Stack} {wait : Await}
      (hidle : s.activity = .idle) (hpending : s.pending = [])
      (hinput : s.tcp.tcpInput env seg = some (t, wait)) :
      Step s (.segment env seg) ⟨t, wait.activity, []⟩
  | tmr {s : State} (hidle : s.activity = .idle) (hpending : s.pending = []) :
      Step s .tmr ⟨s.tcp.tcpTmr.1, s.tcp.tcpTmr.2, []⟩
  | turn {s : State} {env : Env} {t : Stack} {activity : Activity}
      (hturn : s.tcp.turn env s.activity = some (t, activity)) :
      Step s (.turn env) ⟨t, activity, s.pending⟩

/-- The pools are empty and so are the lists. -/
structure State.Start (s : State) : Prop where
  live : ∀ n, s.tcp.live n = false
  head : ∀ w, s.tcp.lists.head w = none
  activity : s.activity = .idle
  pending : s.pending = []

def tcpSystem : System State Event where
  start := State.Start
  step := State.Step

end QuietLwip.Tcp
