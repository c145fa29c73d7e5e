import QuietLwip.Foundation.Transition
import QuietLwip.Mailbox.Mbox
import QuietLwip.Netconn.Api
import QuietLwip.Netconn.Write

/-!
# `netconn_delete`

Several threads send messages for one netconn and wait for its `op_completed`. The one that deletes
it frees it when it wakes up.
-/

namespace QuietLwip.Netconn

open Transition Sockets

variable {α μ τ κ : Type*}

/-! ### The threads -/

/-- A thread that calls the API. While it waits in `tcpip_apimsg` it has sent the message `id`;
`netconn_delete` goes on to `netconn_free` from there, whatever `err` the message has. -/
inductive Caller where
  | idle
  | waiting (deleting : Bool) (id : ℕ)
  | freeing (id : ℕ)
  deriving DecidableEq, Repr

/-- The thread has called `netconn_delete`. -/
def Caller.Deletes : Caller → Prop
  | .idle => False
  | .waiting deleting _ => deleting = true
  | .freeing _ => True

/-- A netconn, the messages for it that the TCP/IP thread has not come to, `op_completed`, what has
been answered to the messages, and the threads. -/
structure Parties (α μ κ : Type*) where
  conn : Conn α μ ℕ
  queue : List (ℕ × Api α) := []
  issued : ℕ := 0
  errs : ℕ → Option ℤ := fun _ => none
  opCompleted : ℕ := 0
  callers : κ → Caller := fun _ => .idle
  freed : Bool := false

inductive Step (α μ κ : Type*) where
  | post (t : κ) (api : Api α)
  | handle (reply : Reply)
  | sent (turn : Turn)
  | poll (turn : Turn)
  | err (err : ℤ) (room room' : Bool)
  | connected (err : ℤ)
  | recv (p : Option μ) (err : ℤ) (room : Bool)
  | accept (room : Bool)
  | newconns (conns : List (Option (Newconn μ)))
  | fetch
  | configure (nonBlocking : Bool) (sendTimeout : ℤ)
  | safeErr (err : ℤ)
  | wake (t : κ)
  | free (t : κ)

namespace Parties

/-- What a function of the TCP/IP thread leaves. -/
def settle (conn : Conn α μ ℕ) (eff : Effects α μ ℕ) (s : Parties α μ κ) : Parties α μ κ :=
  { s with
    conn := conn
    errs := eff.answers.foldl (fun errs a => Function.update errs a.id (some a.err)) s.errs
    opCompleted := eff.answers.foldl (fun c _ => Mailbox.sysSemSignal c) s.opCompleted }

/-- A function of the TCP/IP thread runs on the netconn. -/
def did (called : Except Fault (Conn α μ ℕ × Effects α μ ℕ)) (s : Parties α μ κ) :
    Except Fault (Parties α μ κ) :=
  if s.freed then .error .usedFreed else called.map fun (conn, eff) => s.settle conn eff

/-- The pcb has the netconn for its argument and the callback is set. -/
def CallsBack (callback : Pcb → Bool) (s : Parties α μ κ) : Prop :=
  ∃ pcb, s.conn.pcb = some pcb ∧ pcb.arg = true ∧ callback pcb = true

theorem CallsBack.pcb_ne {callback : Pcb → Bool} {s : Parties α μ κ} (h : s.CallsBack callback) :
    s.conn.pcb ≠ none := by
  obtain ⟨pcb, hpcb, -⟩ := h
  rw [hpcb]
  exact nofun

/-- A step is possible. What the netconn itself is used for by a thread needs that it has not been
freed; the stack calls back for errors that are fatal, and never for a pcb that listens. -/
def Enabled (s : Parties α μ κ) : Step α μ κ → Prop
  | .post t _ => s.callers t = .idle ∧ s.freed = false
  | .handle _ => s.queue ≠ []
  | .sent _ => s.CallsBack Pcb.sent
  | .poll _ => s.CallsBack Pcb.poll
  | .err err _ _ => s.CallsBack Pcb.err ∧ ErrIsFatal err
  | .connected _ => ∃ pcb, s.conn.pcb = some pcb ∧ pcb.synSent = true
  | .recv .. => s.CallsBack Pcb.recv
  | .accept _ => s.CallsBack Pcb.accept
  | .newconns conns => ∃ conns', s.conn.acceptmbox = some conns' ∧
      List.Forall₂ (fun a b => a.isSome = b.isSome) conns conns'
  | .fetch => s.freed = false
  | .configure .. => s.freed = false
  | .safeErr _ => s.freed = false
  | .wake t => (∃ deleting id, s.callers t = .waiting deleting id) ∧ 0 < s.opCompleted
  | .free t => ∃ id, s.callers t = .freeing id

variable [DecidableEq κ]

/-- The thread `t` calls a function that sends a message. -/
def post (t : κ) (api : Api α) (s : Parties α μ κ) : Parties α μ κ :=
  { s with
    queue := s.queue ++ [(s.issued, api)]
    issued := s.issued + 1
    callers := Function.update s.callers t
      (.waiting (match api with | .delconn => true | _ => false) s.issued) }

/-- `sys_arch_sem_wait` in `tcpip_apimsg` returns. -/
def wake (t : κ) (s : Parties α μ κ) : Except Fault (Parties α μ κ) :=
  if s.freed then .error .usedFreed
  else .ok { s with
    opCompleted := s.opCompleted - 1
    callers := Function.update s.callers t
      (match s.callers t with | .waiting true id => .freeing id | _ => .idle) }

/-- `netconn_free` -/
def free (t : κ) (s : Parties α μ κ) : Except Fault (Parties α μ κ) :=
  if s.freed then .error .usedFreed
  else (netconnFree s.conn.pcb.isSome s.conn.recvmbox.isSome s.conn.acceptmbox.isSome).map fun _ =>
    { s with freed := true, callers := Function.update s.callers t .idle }

def after (s : Parties α μ κ) : Step α μ κ → Except Fault (Parties α μ κ)
  | .post t api => .ok (s.post t api)
  | .handle reply =>
    match s.queue with
    | [] => .ok s
    | (id, api) :: queue => { s with queue := queue }.did (s.conn.handle reply id api)
  | .sent turn => s.did (s.conn.sentTcp turn)
  | .poll turn => s.did (s.conn.pollTcp turn)
  | .err err room room' => s.did (s.conn.errTcp err room room')
  | .connected err => s.did (s.conn.doConnected err)
  | .recv p err room => s.did (.ok (s.conn.recvMsg p err room))
  | .accept room => s.did (.ok (s.conn.acceptFunction room))
  | .newconns conns => s.did (.ok ({ s.conn with acceptmbox := some conns }, {}))
  | .fetch => s.did (.ok ({ s.conn with
      recvmbox := s.conn.recvmbox.map List.tail, acceptmbox := s.conn.acceptmbox.map List.tail }, {}))
  | .configure nonBlocking sendTimeout =>
    s.did (.ok ({ s.conn with nonBlocking := nonBlocking, sendTimeout := sendTimeout }, {}))
  | .safeErr err => s.did (.ok (s.conn.setSafeErr err, {}))
  | .wake t => s.wake t
  | .free t => s.free t

end Parties

/-- The assertions that a deletion may run into, and the use of the netconn after it. -/
def Fault.OfDelete : Fault → Prop
  | .blockingConnect => True
  | .pcbLeft => True
  | .mboxLeft => True
  | .usedFreed => True
  | _ => False

/-- Nothing in the TCP/IP thread refers to the netconn any more. -/
structure Conn.Gone (conn : Conn α μ τ) : Prop where
  pcb : conn.pcb = none
  recvmbox : conn.recvmbox = none
  acceptmbox : conn.acceptmbox = none
  currentMsg : conn.currentMsg = none

/-- Where a thread is about to free the netconn, or has freed it, nothing refers to it, and the
deletion has not been refused. -/
def Safe : Except Fault (Parties α μ κ) → Prop
  | .error fault => ¬fault.OfDelete
  | .ok s =>
    (∀ t id, s.callers t = .freeing id → s.conn.Gone ∧ s.queue = [] ∧
      ∃ err, s.errs id = some err ∧ err ≠ errInprogress) ∧
    (s.freed = true → s.conn.Gone ∧ s.queue = [])

/-- One netconn, after `netconn_alloc` and `do_newconn` or from an `acceptmbox`. An assertion that
fails ends the run. -/
def deleting [DecidableEq κ] : System (Except Fault (Parties α μ κ)) (Step α μ κ) where
  start s := ∃ conn, s = .ok { conn := conn } ∧ conn.state = .none ∧ conn.currentMsg = none ∧
    conn.inNonblockingConnect = false
  step s e s' := ∃ p : Parties α μ κ, s = .ok p ∧ p.Enabled e ∧ s' = p.after e

theorem deleting_step [DecidableEq κ] {p : Parties α μ κ} {s : Except Fault (Parties α μ κ)}
    (e : Step α μ κ) (hen : p.Enabled e) (h : p.after e = s) : deleting.step (.ok p) e s :=
  ⟨p, rfl, hen, h.symm⟩

/-- `do_delconn` can do what it is asked for. -/
def Conn.Deletable (conn : Conn α μ τ) : Prop :=
  conn.state = .none ∨ conn.state = .listen ∨
    conn.state = .connect ∧ conn.inNonblockingConnect = true

/-- No message is sent while the netconn is being deleted, and `do_delconn` finds no other message
being carried out. The thread that deletes wakes up for the answer to its own message, and no thread
wakes up after the netconn has been freed. -/
def Orderly (s : Except Fault (Parties α μ κ)) (e : Step α μ κ) : Prop :=
  ∀ p, s = .ok p → match e with
    | .post _ _ => ∀ u, ¬(p.callers u).Deletes
    | .handle _ => ∀ id queue, p.queue = (id, .delconn) :: queue → p.conn.Deletable
    | .wake t => p.freed = false ∧ ∀ id, p.callers t = .waiting true id → p.errs id ≠ none
    | _ => True

/-! ### What a function of the TCP/IP thread does -/

namespace Conn

variable {conn conn' conn₁ : Conn α μ τ} {eff : Effects α μ τ} {turn : Turn} {id : τ} {o : Option τ}
  {called : Except Fault (Conn α μ τ × Effects α μ τ)}

/-- A netconn that is free for a message, or in a connect that nobody waits for, has no message. -/
structure Tidy (conn : Conn α μ τ) : Prop where
  idle : conn.state = .none ∨ conn.state = .listen → conn.currentMsg = none
  nonblocking : conn.inNonblockingConnect = true → conn.state = .connect ∧ conn.currentMsg = none

/-- The messages that are answered, or left as the current one, are the one that is current and the
one that is being handled. -/
structure Did (o : Option τ) (conn conn' : Conn α μ τ) (eff : Effects α μ τ) : Prop where
  current : ∀ msg, conn'.currentMsg = some msg → conn.currentMsg = some msg ∨ o = some msg.id
  answers : ∀ a ∈ eff.answers, o = some a.id ∨ ∃ msg, conn.currentMsg = some msg ∧ a.id = msg.id
  tidy : conn.Tidy → conn'.Tidy

/-- What holds of a function, whether it returns or an assertion of it fails. -/
def Keeps (o : Option τ) (conn : Conn α μ τ) : Except Fault (Conn α μ τ × Effects α μ τ) → Prop
  | .ok (conn', eff) => conn.Did o conn' eff
  | .error fault => ¬fault.OfDelete

theorem Tidy.congr (h : conn.Tidy) (hstate : conn'.state = conn.state)
    (hmsg : conn'.currentMsg = conn.currentMsg)
    (hconnect : conn'.inNonblockingConnect = conn.inNonblockingConnect) : conn'.Tidy := by
  constructor
  · rw [hstate, hmsg]
    exact h.idle
  · rw [hstate, hmsg, hconnect]
    exact h.nonblocking

/-- The fields that matter here are as they were, and nothing is answered. -/
theorem Did.of_same (hstate : conn'.state = conn.state)
    (hmsg : conn'.currentMsg = conn.currentMsg)
    (hconnect : conn'.inNonblockingConnect = conn.inNonblockingConnect)
    (ha : ∀ a ∈ eff.answers, o = some a.id) : conn.Did o conn' eff :=
  ⟨fun _ h => .inl (hmsg ▸ h), fun a h => .inl (ha a h), fun h => h.congr hstate hmsg hconnect⟩

theorem Did.silent (hstate : conn'.state = conn.state) (hmsg : conn'.currentMsg = conn.currentMsg)
    (hconnect : conn'.inNonblockingConnect = conn.inNonblockingConnect) (ha : eff.answers = []) :
    conn.Did o conn' eff :=
  .of_same hstate hmsg hconnect fun _ h => (List.not_mem_nil (ha ▸ h)).elim

/-- `netconn_drain` has run before. -/
theorem Keeps.of_drained (h : Keeps o { conn with recvmbox := none, acceptmbox := none } called) :
    conn.Keeps o called := by
  cases called with
  | error fault => exact h
  | ok r => exact ⟨h.current, h.answers, fun ht => h.tidy (ht.congr rfl rfl rfl)⟩

theorem keeps_answered {err : ℤ} : conn.Keeps (some id) (conn.answered id err) := by
  refine Did.of_same rfl rfl rfl fun a ha => ?_
  rw [List.mem_singleton.mp ha]

/-- A function that goes on from what another one has left. -/
theorem Keeps.map {f : Conn α μ τ × Effects α μ τ → Conn α μ τ × Effects α μ τ}
    (h : conn.Keeps o called) (hstate : ∀ r, (f r).1.state = r.1.state)
    (hmsg : ∀ r, (f r).1.currentMsg = r.1.currentMsg)
    (hconnect : ∀ r, (f r).1.inNonblockingConnect = r.1.inNonblockingConnect)
    (ha : ∀ r, (f r).2.answers = r.2.answers) : conn.Keeps o (called.map f) := by
  cases called with
  | error fault => exact h
  | ok r =>
    refine ⟨fun msg hmsg' => h.current msg ((hmsg r).symm.trans hmsg'), ?_,
      fun ht => (h.tidy ht).congr (hstate r) (hmsg r) (hconnect r)⟩
    rw [ha r]
    exact h.answers

/-- The message that is being handled becomes the current one. -/
theorem Keeps.of_begin {request : Request α} (h : conn₁.Keeps none called)
    (hmsg : conn₁.currentMsg = some ⟨id, request⟩) (ht : conn.Tidy → conn₁.Tidy) :
    conn.Keeps (some id) called := by
  cases called with
  | error fault => exact h
  | ok r =>
    refine ⟨fun msg' hmsg' => .inr ?_, fun a ha => .inl ?_, fun htidy => h.tidy (ht htidy)⟩
    · obtain hcurrent | hnone := h.current msg' hmsg'
      · cases hmsg.symm.trans hcurrent
        rfl
      · cases hnone
    · obtain hnone | ⟨msg', hcurrent, hid⟩ := h.answers a ha
      · cases hnone
      · cases hmsg.symm.trans hcurrent
        rw [hid]

theorem keeps_writeTurn {data : List α} {dontblock b : Bool} {timeStarted : ℕ}
    (hmsg : conn.currentMsg = some ⟨id, .write data b timeStarted⟩) (hstate : conn.state = .write)
    (hlt : conn.writeOffset < data.length) :
    conn.Keeps none (.ok (conn.writeTurn turn id data dontblock timeStarted)) := by
  obtain ⟨hsame, -, ⟨a, hends⟩ | hgoes⟩ := writeTurn_spec hlt
    (rfl : conn.writeTurn turn id data dontblock timeStarted = _)
  · refine ⟨fun msg h => ?_, fun a' ha => .inr ⟨_, hmsg, ?_⟩, fun ht => ⟨fun _ => hends.currentMsg, ?_⟩⟩
    · exact absurd (hends.currentMsg.symm.trans h) nofun
    · rw [hends.answers, List.mem_singleton] at ha
      rw [ha]
      exact hends.id
    · intro hconnect
      rw [hsame.inNonblockingConnect] at hconnect
      exact absurd (hstate.symm.trans (ht.nonblocking hconnect).1) nofun
  · refine Did.of_same hgoes.state hgoes.currentMsg hsame.inNonblockingConnect fun a ha => ?_
    rw [hgoes.answers] at ha
    cases ha

theorem keeps_doWritemore : conn.Keeps none (conn.doWritemore turn) := by
  rw [doWritemore]
  split
  · next hmsg =>
    split
    · exact id
    · next hstate =>
      split
      · exact id
      · split
        · exact id
        · next hlt => exact keeps_writeTurn hmsg (not_not.mp hstate) (not_not.mp hlt)
  · exact id

theorem keeps_doCloseInternal {closeErr : ℤ} : conn.Keeps none (conn.doCloseInternal closeErr) := by
  rw [doCloseInternal]
  split
  · next hmsg hpcb =>
    split
    · exact id
    · next hstate =>
      obtain ⟨-, hstate⟩ := not_or.mp hstate
      refine iteInduction (motive := conn.Keeps none) (fun _ => ?_) (fun _ => ?_)
      · refine ⟨nofun, fun a ha => .inr ⟨_, hmsg, ?_⟩, fun ht => ⟨fun _ => rfl, fun hconnect => ?_⟩⟩
        · rw [List.mem_singleton.mp ha]
        · exact absurd ((ht.nonblocking hconnect).1.symm.trans (not_not.mp hstate)) nofun
      · refine iteInduction (motive := conn.Keeps none) (fun _ => ?_) (fun _ => ?_)
        · exact nofun
        · exact Did.silent rfl rfl rfl rfl
  · exact id
  · exact id
  · exact id

theorem keeps_carryOn : conn.Keeps none (conn.carryOn turn) := by
  rw [carryOn]
  split
  · exact keeps_doWritemore
  · split
    · exact keeps_doCloseInternal
    · exact Did.silent rfl rfl rfl rfl

theorem keeps_sentTcp : conn.Keeps none (conn.sentTcp turn) := by
  refine keeps_carryOn.map ?_ ?_ ?_ ?_ <;> intro r <;> dsimp only <;> split <;> rfl

theorem keeps_pollTcp : conn.Keeps none (conn.pollTcp turn) := by
  refine keeps_carryOn.map ?_ ?_ ?_ ?_ <;> intro r <;> dsimp only <;> split <;> rfl

theorem keeps_errTcp {err : ℤ} {room room' : Bool} :
    conn.Keeps none (conn.errTcp err room room') := by
  rw [errTcp]
  dsimp only
  split
  · split
    · next hconnect =>
      exact ⟨fun _ h => .inl h, fun _ ha => (List.not_mem_nil ha).elim,
        fun ht => ⟨fun _ => (ht.nonblocking hconnect).2, fun h => by cases h⟩⟩
    · next hconnect =>
      split
      · exact id
      · next msg hmsg =>
        refine ⟨(fun _ h => by cases h), fun a ha => .inr ⟨msg, hmsg, ?_⟩, fun _ => ⟨fun _ => rfl, fun h => ?_⟩⟩
        · rw [List.mem_singleton.mp ha]
        · exact absurd h hconnect
  · next hbusy =>
    split
    · exact id
    · next hmsg =>
      refine ⟨fun _ h => .inl h, fun _ ha => (List.not_mem_nil ha).elim,
        fun ht => ⟨fun _ => not_not.mp hmsg, fun h => ?_⟩⟩
      exact absurd (.inr (.inr (ht.nonblocking h).1)) hbusy

theorem setSafeErr_cases (conn : Conn α μ τ) (err : ℤ) :
    conn.setSafeErr err = conn ∨ conn.setSafeErr err = { conn with lastErr := err } := by
  rw [setSafeErr]
  split
  · exact .inl rfl
  · exact .inr rfl

theorem keeps_doConnected {err : ℤ} : conn.Keeps none (conn.doConnected err) := by
  rw [doConnected]
  split
  · exact Did.silent rfl rfl rfl rfl
  · split
    · exact Did.silent rfl rfl rfl rfl
    · split
      · exact id
      · split
        · exact id
        · dsimp only
          split
          · obtain hsafe | hsafe := setSafeErr_cases _ _ <;> rw [hsafe] <;>
              exact ⟨nofun, nofun, fun _ => ⟨fun _ => rfl, nofun⟩⟩
          · refine ⟨nofun, fun a ha => .inr ?_, fun _ => ⟨fun _ => rfl, nofun⟩⟩
            obtain ⟨msg, hmsg, rfl⟩ := List.mem_map.mp ha
            exact ⟨msg, Option.mem_toList.mp hmsg, rfl⟩

theorem keeps_doWrite {data : List α} {b : Bool} {timeStarted : ℕ} :
    conn.Keeps (some id) (conn.doWrite turn id data b timeStarted) := by
  have hrefused : ∀ err len, conn.Keeps (some id) (.ok (conn, { answers := [⟨id, err, len⟩] })) := by
    refine fun err len => Did.of_same rfl rfl rfl fun a ha => ?_
    rw [List.mem_singleton.mp ha]
  rw [doWrite]
  split
  · exact hrefused _ _
  · split
    · exact hrefused _ _
    · split
      · exact hrefused _ _
      · next hstate =>
        split
        · exact hrefused _ _
        · split
          · exact fun h => h.elim
          · split
            · exact fun h => h.elim
            · refine Keeps.of_begin keeps_doWritemore rfl fun ht => ⟨fun h => ?_, fun h => ?_⟩
              · rcases h with h | h <;> cases h
              exact absurd ((ht.nonblocking h).1.symm.trans (not_not.mp hstate)) (fun h => by cases h)

theorem keeps_doConnect {connectErr : ℤ} :
    conn.Keeps (some id) (conn.doConnect connectErr id) := by
  rw [doConnect]
  split
  · exact keeps_answered
  · split
    · exact keeps_answered
    · split
      · exact keeps_answered
      · next hstate =>
        split
        · dsimp only
          split
          · refine ⟨fun _ h => .inl h, fun a ha => .inl ?_, fun ht => ⟨nofun, fun _ => ⟨rfl, ?_⟩⟩⟩
            · rw [List.mem_singleton.mp ha]
            · exact ht.idle (.inl (not_not.mp hstate))
          · next hblock =>
            refine ⟨fun msg h => .inr ?_, nofun, fun ht => ⟨nofun, fun h => absurd h hblock⟩⟩
            cases h
            rfl
        · refine Did.of_same rfl rfl rfl fun a ha => ?_
          rw [List.mem_singleton.mp ha]

theorem keeps_doListen {reply : Reply} : conn.Keeps (some id) (conn.doListen reply id) := by
  rw [doListen]
  split
  · exact keeps_answered
  · split
    · exact keeps_answered
    · split
      · exact keeps_answered
      · split
        · exact keeps_answered
        · next hstate =>
          have hstate : conn.state = .none := not_not.mp hstate
          split
          · exact keeps_answered
          · split
            · refine ⟨fun _ h => .inl h, fun a ha => .inl ?_, fun ht =>
                ⟨fun _ => ht.idle (.inl hstate), fun h => ?_⟩⟩
              · rw [List.mem_singleton.mp ha]
              · exact absurd (hstate.symm.trans (ht.nonblocking h).1) nofun
            · refine Did.of_same rfl rfl rfl fun a ha => ?_
              rw [List.mem_singleton.mp ha]

theorem drainNewconns_fault {conns : List (Option (Newconn μ))} {fault : Fault}
    (h : drainNewconns conns = .error fault) : ¬fault.OfDelete := by
  induction conns with
  | nil => cases h
  | cons newconn rest ih =>
    cases newconn with
    | none =>
      cases h
      exact id
    | some newconn =>
      have h : (drainNewconns rest).map (newconn.recvmbox.getD [] ++ ·) = .error fault := h
      cases hrest : drainNewconns rest with
      | error fault' =>
        rw [hrest] at h
        cases h
        exact ih hrest
      | ok freed =>
        rw [hrest] at h
        cases h

/-- `netconn_drain`, as the netconn it leaves or a netconn in the `acceptmbox` that is `NULL`. -/
theorem netconnDrain_cases (conn : Conn α μ τ) :
    (∃ freed, conn.netconnDrain = .ok ({ conn with recvmbox := none, acceptmbox := none }, freed)) ∨
      ∃ fault, conn.netconnDrain = .error fault ∧ ¬fault.OfDelete := by
  rw [netconnDrain]
  cases h : drainNewconns (conn.acceptmbox.getD []) with
  | error fault => exact .inr ⟨fault, rfl, drainNewconns_fault h⟩
  | ok freed => exact .inl ⟨_, rfl⟩

theorem keeps_beginClose {closeErr : ℤ} {shutRx shutTx : Bool} {freed : List (Option μ)}
    (hstate : conn.state = .none ∨ conn.state = .listen) :
    conn.Keeps (some id) (conn.beginClose closeErr id shutRx shutTx freed) := by
  rw [beginClose]
  split
  · exact nofun
  · refine Keeps.map (Keeps.of_begin keeps_doCloseInternal rfl fun ht => ⟨nofun, fun h => ?_⟩)
      (fun _ => rfl) (fun _ => rfl) (fun _ => rfl) (fun _ => rfl)
    obtain ⟨hconnect, -⟩ := ht.nonblocking h
    rw [hconnect] at hstate
    rcases hstate with hstate | hstate <;> cases hstate

theorem keeps_doClose {closeErr : ℤ} {shutRx shutTx : Bool} :
    conn.Keeps (some id) (conn.doClose closeErr id shutRx shutTx) := by
  rw [doClose]
  split
  · split
    · exact nofun
    · exact keeps_answered
  · next hstate =>
    have hstate : conn.state = .none ∨ conn.state = .listen := by
      by_contra hne
      exact hstate (not_or.mp hne)
    split
    · split
      · exact keeps_answered
      · split
        · obtain ⟨freed, h⟩ | ⟨fault, h, hfault⟩ := conn.netconnDrain_cases
          · rw [h]
            refine Keeps.of_drained ?_
            exact keeps_beginClose hstate
          · rw [h]
            exact hfault
        · exact keeps_beginClose hstate
    · exact keeps_answered

theorem keeps_recvMsg {p : Option μ} {err : ℤ} {room : Bool} :
    conn.Keeps none (.ok (conn.recvMsg p err room)) := by
  rw [recvMsg]
  obtain hsafe | hsafe := setSafeErr_cases conn err <;> rw [hsafe]
  all_goals
    split
    · exact Did.silent rfl rfl rfl rfl
    · dsimp only
      split <;> split <;> exact Did.silent rfl rfl rfl rfl

theorem keeps_acceptFunction {room : Bool} : conn.Keeps none (.ok (conn.acceptFunction room)) := by
  rw [acceptFunction]
  split
  · exact Did.silent rfl rfl rfl rfl
  · split <;> exact Did.silent rfl rfl rfl rfl

/-- A message other than the one that deletes the netconn. -/
theorem keeps_handle {reply : Reply} {api : Api α} (hapi : api ≠ .delconn) :
    conn.Keeps (some id) (conn.handle reply id api) := by
  cases api with
  | connect => exact keeps_doConnect
  | listen => exact keeps_doListen
  | write data dontblock timeStarted => exact keeps_doWrite
  | close shutRx shutTx => exact keeps_doClose
  | delconn => exact absurd rfl hapi
  | other => exact keeps_answered

/-! ### What the deletion does -/

/-- The message that deletes the netconn is the current one. -/
structure Closing (id : τ) (conn : Conn α μ τ) : Prop where
  currentMsg : conn.currentMsg = some ⟨id, .close true true⟩
  state : conn.pcb ≠ none → conn.state = .close
  recvmbox : conn.recvmbox = none
  acceptmbox : conn.acceptmbox = none

/-- The deletion goes on, or is answered with nothing left of the netconn. -/
def Deletes (id : τ) : Except Fault (Conn α μ τ × Effects α μ τ) → Prop
  | .ok (conn', eff) => conn'.Closing id ∧ eff.answers = [] ∨
      conn'.Gone ∧ ∃ err len, err ≠ errInprogress ∧ eff.answers = [⟨id, err, len⟩]
  | .error fault => ¬fault.OfDelete

theorem Closing.same (h : conn.Closing id) (ha : eff.answers = []) :
    Deletes id (.ok (conn, eff)) := .inl ⟨h, ha⟩

theorem Deletes.map {f : Conn α μ τ × Effects α μ τ → Conn α μ τ × Effects α μ τ}
    (h : Deletes id called) (hpcb : ∀ r, (f r).1.pcb = r.1.pcb)
    (hstate : ∀ r, (f r).1.state = r.1.state)
    (hmsg : ∀ r, (f r).1.currentMsg = r.1.currentMsg)
    (hrecv : ∀ r, (f r).1.recvmbox = r.1.recvmbox)
    (haccept : ∀ r, (f r).1.acceptmbox = r.1.acceptmbox)
    (ha : ∀ r, (f r).2.answers = r.2.answers) : Deletes id (called.map f) := by
  cases called with
  | error fault => exact h
  | ok r =>
    obtain ⟨hc, hnone⟩ | ⟨hgone, err, len, herr, hsome⟩ := h
    · refine .inl ⟨⟨(hmsg r).trans hc.currentMsg, fun hne => ?_, (hrecv r).trans hc.recvmbox,
        (haccept r).trans hc.acceptmbox⟩, (ha r).trans hnone⟩
      rw [hpcb r] at hne
      exact (hstate r).trans (hc.state hne)
    · exact .inr ⟨⟨(hpcb r).trans hgone.pcb, (hrecv r).trans hgone.recvmbox,
        (haccept r).trans hgone.acceptmbox, (hmsg r).trans hgone.currentMsg⟩,
        err, len, herr, (ha r).trans hsome⟩

theorem Closing.doCloseInternal {closeErr : ℤ} (h : conn.Closing id) :
    Deletes id (conn.doCloseInternal closeErr) := by
  rw [Conn.doCloseInternal]
  rw [h.currentMsg]
  split
  · next hmsg hpcb =>
    cases hmsg
    split
    · exact nofun
    · refine iteInduction (motive := Deletes id) (fun _ => ?_) (fun _ => ?_)
      · exact .inr ⟨⟨rfl, h.recvmbox, h.acceptmbox, rfl⟩, errOk, 0, by decide, rfl⟩
      · refine iteInduction (motive := Deletes id) (fun _ => ?_) (fun _ => ?_)
        · exact nofun
        · exact .inl ⟨⟨rfl, fun _ => h.state (by rw [hpcb]; exact nofun), h.recvmbox,
            h.acceptmbox⟩, rfl⟩
  · exact nofun
  · exact nofun
  · exact nofun

theorem Closing.carryOn (h : conn.Closing id) (hpcb : conn.pcb ≠ none) :
    Deletes id (conn.carryOn turn) := by
  rw [Conn.carryOn]
  rw [h.state hpcb]
  exact h.doCloseInternal

theorem Closing.sentTcp (h : conn.Closing id) (hpcb : conn.pcb ≠ none) :
    Deletes id (conn.sentTcp turn) := by
  refine (h.carryOn hpcb).map ?_ ?_ ?_ ?_ ?_ ?_ <;> intro r <;> dsimp only <;> split <;> rfl

theorem Closing.pollTcp (h : conn.Closing id) (hpcb : conn.pcb ≠ none) :
    Deletes id (conn.pollTcp turn) := by
  refine (h.carryOn hpcb).map ?_ ?_ ?_ ?_ ?_ ?_ <;> intro r <;> dsimp only <;> split <;> rfl

theorem Closing.errTcp {err : ℤ} {room room' : Bool} (h : conn.Closing id) (hpcb : conn.pcb ≠ none)
    (hfatal : ErrIsFatal err) : Deletes id (conn.errTcp err room room') := by
  have hrecv : (conn.recvmbox.map fun msgs => if room then msgs ++ [none] else msgs) = none := by
    rw [h.recvmbox]
    rfl
  have haccept : (conn.acceptmbox.map fun conns => if room' then conns ++ [none] else conns) =
      none := by
    rw [h.acceptmbox]
    rfl
  rw [Conn.errTcp]
  dsimp only
  rw [hrecv, haccept, if_pos (.inr (.inl (h.state hpcb))), h.currentMsg]
  split
  · exact .inl ⟨⟨rfl, fun hne => absurd rfl hne, rfl, rfl⟩, rfl⟩
  · refine .inr ⟨⟨rfl, rfl, rfl, rfl⟩, err, _, ?_, rfl⟩
    rintro rfl
    exact absurd hfatal (by decide)

theorem Closing.doConnected {err : ℤ} (h : conn.Closing id) (hpcb : conn.pcb ≠ none) :
    Deletes id (conn.doConnected err) := by
  rw [Conn.doConnected]
  rw [h.state hpcb]
  split
  · exact h.same rfl
  · split
    · exact h.same rfl
    · exact nofun

theorem Closing.recvMsg {p : Option μ} {err : ℤ} {room : Bool} (h : conn.Closing id) :
    Deletes id (.ok (conn.recvMsg p err room)) := by
  rw [Conn.recvMsg]
  rw [h.recvmbox]
  exact h.same rfl

theorem Closing.acceptFunction {room : Bool} (h : conn.Closing id) :
    Deletes id (.ok (conn.acceptFunction room)) := by
  rw [Conn.acceptFunction]
  rw [h.acceptmbox]
  exact h.same rfl

theorem deletes_beginClose {closeErr : ℤ} {freed : List (Option μ)} (hrecv : conn.recvmbox = none)
    (haccept : conn.acceptmbox = none) :
    Deletes id (conn.beginClose closeErr id true true freed) := by
  rw [beginClose]
  split
  · exact nofun
  · refine Deletes.map (Closing.doCloseInternal ?_) (fun _ => rfl) (fun _ => rfl) (fun _ => rfl)
      (fun _ => rfl) (fun _ => rfl) (fun _ => rfl)
    exact ⟨rfl, fun _ => rfl, hrecv, haccept⟩

/-- A message that is refused leaves the netconn as it is. -/
theorem doDelconn_refused {closeErr : ℤ} {a : Answer τ}
    (h : conn.doDelconn closeErr id = .ok (conn', eff)) (ha : a ∈ eff.answers)
    (herr : a.err = errInprogress) : conn' = conn := by
  unfold doDelconn at h
  split at h
  · split at h
    · cases h
    · cases h
      rfl
  · split at h
    · cases h
    · obtain ⟨freed, hdrain⟩ | ⟨fault, hdrain, -⟩ := conn.netconnDrain_cases
      · rw [hdrain] at h
        dsimp only [Except.bind] at h
        split at h
        · have hd : Deletes id (.ok (conn', eff)) := h ▸ deletes_beginClose rfl rfl
          obtain ⟨-, hnone⟩ | ⟨-, err, len, hne, hsome⟩ := hd
          · rw [hnone] at ha
            cases ha
          · rw [hsome, List.mem_singleton] at ha
            rw [ha] at herr
            exact absurd herr hne
        · cases h
          rw [List.mem_singleton.mp ha] at herr
          exact absurd herr (show errVal ≠ errInprogress by decide)
      · rw [hdrain] at h
        cases h

/-- `do_delconn` where nothing else is in progress. -/
theorem Deletable.doDelconn {closeErr : ℤ} (h : conn.Deletable) (ht : conn.Tidy) :
    Deletes id (conn.doDelconn closeErr id) := by
  have hstate : ¬(conn.state ≠ .none ∧ conn.state ≠ .listen ∧ conn.state ≠ .connect) := by
    rintro ⟨hnone, hlisten, hconnect⟩
    rcases h with h | h | h
    · exact hnone h
    · exact hlisten h
    · exact hconnect h.1
  have hblock : ¬(conn.state = .connect ∧ conn.inNonblockingConnect = false) := by
    rintro ⟨hconnect, hblock⟩
    rcases h with h | h | h
    · exact absurd (hconnect.symm.trans h) nofun
    · exact absurd (hconnect.symm.trans h) nofun
    · exact absurd (hblock.symm.trans h.2) nofun
  have hmsg : conn.currentMsg = none := by
    rcases h with h | h | h
    · exact ht.idle (.inl h)
    · exact ht.idle (.inr h)
    · exact (ht.nonblocking h.2).2
  rw [Conn.doDelconn]
  rw [if_neg hstate, if_neg hblock]
  obtain ⟨freed, hdrain⟩ | ⟨fault, hdrain, hfault⟩ := conn.netconnDrain_cases
  · rw [hdrain]
    refine iteInduction (motive := Deletes id) (fun _ => ?_) (fun _ => ?_)
    · exact deletes_beginClose rfl rfl
    · exact .inr ⟨⟨rfl, rfl, rfl, hmsg⟩, errVal, 0, by decide, rfl⟩
  · rw [hdrain]
    exact hfault

end Conn

/-! ### The invariant -/

namespace Parties

variable {p q : Parties α μ κ} {conn' : Conn α μ ℕ} {eff : Effects α μ ℕ} {o : Option ℕ} {n : ℕ}
  {t : κ} {called : Except Fault (Conn α μ ℕ × Effects α μ ℕ)}

/-- Every message is sent once: it waits, or is the current one, or is past. -/
structure Pending (p : Parties α μ κ) : Prop where
  issued : ∀ n ∈ p.queue.map Prod.fst, n < p.issued
  nodup : (p.queue.map Prod.fst).Nodup
  current : ∀ msg, p.conn.currentMsg = some msg →
    msg.id < p.issued ∧ msg.id ∉ p.queue.map Prod.fst
  fresh : ∀ n, p.issued ≤ n → p.errs n = none

theorem did_ok (hfreed : p.freed = false) : p.did (.ok (conn', eff)) = .ok (p.settle conn' eff) :=
  if_neg (Bool.eq_false_iff.mp hfreed)

theorem did_error {fault : Fault} (hfreed : p.freed = false) : p.did (.error fault) = .error fault :=
  if_neg (Bool.eq_false_iff.mp hfreed)

/-- The answers to other messages leave what has been answered to this one. -/
theorem errs_of_ne {answers : List (Answer ℕ)} {errs : ℕ → Option ℤ}
    (h : ∀ a ∈ answers, a.id ≠ n) :
    answers.foldl (fun (errs : ℕ → Option ℤ) a => Function.update errs a.id (some a.err)) errs n =
      errs n := by
  induction answers generalizing errs with
  | nil => rfl
  | cons a answers ih =>
    obtain ⟨hne, hrest⟩ := List.forall_mem_cons.mp h
    rw [List.foldl_cons, ih hrest, Function.update_of_ne hne.symm]

/-- The message that is being handled is none of those that wait. -/
def Apart (o : Option ℕ) (p : Parties α μ κ) : Prop :=
  ∀ n, o = some n → n < p.issued ∧ n ∉ p.queue.map Prod.fst

theorem apart_none : p.Apart none := by
  rintro n ⟨⟩

theorem Pending.answered (hp : p.Pending) (ho : p.Apart o) (hd : p.conn.Did o conn' eff) :
    ∀ a ∈ eff.answers, a.id < p.issued ∧ a.id ∉ p.queue.map Prod.fst := by
  intro a ha
  obtain hself | ⟨msg, hmsg, hid⟩ := hd.answers a ha
  · exact ho a.id hself
  · rw [hid]
    exact hp.current msg hmsg

theorem Pending.settle (hp : p.Pending) (ho : p.Apart o) (hd : p.conn.Did o conn' eff) :
    (p.settle conn' eff).Pending := by
  refine ⟨hp.issued, hp.nodup, fun msg hmsg => ?_, fun n hn => ?_⟩
  · obtain hcurrent | hself := hd.current msg hmsg
    · exact hp.current msg hcurrent
    · exact ho msg.id hself
  · refine (errs_of_ne fun a ha hid => ?_).trans (hp.fresh n hn)
    have hlt := (hp.answered ho hd a ha).1
    rw [hid] at hlt
    exact absurd hn (Nat.not_le.mpr hlt)

theorem Pending.settle_errs (hp : p.Pending) (ho : p.Apart o) (hd : p.conn.Did o conn' eff)
    (hn : n ∈ p.queue.map Prod.fst) : (p.settle conn' eff).errs n = p.errs n :=
  errs_of_ne fun a ha hid => (hp.answered ho hd a ha).2 (hid ▸ hn)

/-- How far the deletion of the netconn has come. -/
inductive Phase (p : Parties α μ κ) : Prop
  | before (hfreed : p.freed = false) (hnone : ∀ u, ¬(p.callers u).Deletes)
      (hqueue : ∀ m ∈ p.queue, m.2 ≠ .delconn) (htidy : p.conn.Tidy) (hp : p.Pending)
  | queued (t : κ) (n : ℕ) (front : List (ℕ × Api α)) (hfreed : p.freed = false)
      (ht : p.callers t = .waiting true n) (hothers : ∀ u ≠ t, ¬(p.callers u).Deletes)
      (hqueue : p.queue = front ++ [(n, .delconn)]) (hfront : ∀ m ∈ front, m.2 ≠ .delconn)
      (htidy : p.conn.Tidy) (hp : p.Pending) (herr : p.errs n = none)
  | closing (t : κ) (n : ℕ) (hfreed : p.freed = false) (ht : p.callers t = .waiting true n)
      (hothers : ∀ u ≠ t, ¬(p.callers u).Deletes) (hqueue : p.queue = [])
      (hc : p.conn.Closing n) (herr : p.errs n = none)
  | gone (t : κ) (n : ℕ) (hfreed : p.freed = false)
      (ht : p.callers t = .waiting true n ∨ p.callers t = .freeing n)
      (hothers : ∀ u ≠ t, ¬(p.callers u).Deletes) (hqueue : p.queue = []) (hg : p.conn.Gone)
      (herr : ∃ err, p.errs n = some err ∧ err ≠ errInprogress)
  | freed (hfreed : p.freed = true) (hnone : ∀ u, ¬(p.callers u).Deletes) (hqueue : p.queue = [])
      (hg : p.conn.Gone)

/-- The run goes on, or an assertion has failed that is not one of the deletion. -/
def Phased : Except Fault (Parties α μ κ) → Prop
  | .ok p => p.Phase
  | .error fault => ¬fault.OfDelete

theorem Phase.safe (h : p.Phase) : Safe (.ok p) := by
  cases h with
  | before hfreed hnone =>
    refine ⟨fun t id hf => absurd ?_ (hnone t), fun hf => absurd (hfreed.symm.trans hf) nofun⟩
    rw [hf]
    trivial
  | queued t n front hfreed ht hothers =>
    refine ⟨fun u id hf => ?_, fun hf => absurd (hfreed.symm.trans hf) nofun⟩
    by_cases hu : u = t
    · rw [hu, ht] at hf
      cases hf
    · exact absurd (by rw [hf]; trivial) (hothers u hu)
  | closing t n hfreed ht hothers =>
    refine ⟨fun u id hf => ?_, fun hf => absurd (hfreed.symm.trans hf) nofun⟩
    by_cases hu : u = t
    · rw [hu, ht] at hf
      cases hf
    · exact absurd (by rw [hf]; trivial) (hothers u hu)
  | gone t n hfreed ht hothers hqueue hg herr =>
    refine ⟨fun u id hf => ⟨hg, hqueue, ?_⟩, fun _ => ⟨hg, hqueue⟩⟩
    by_cases hu : u = t
    · rw [hu] at hf
      rcases ht with ht | ht <;> cases ht.symm.trans hf
      exact herr
    · exact absurd (by rw [hf]; trivial) (hothers u hu)
  | freed hfreed hnone hqueue hg =>
    refine ⟨fun t id hf => absurd ?_ (hnone t), fun _ => ⟨hg, hqueue⟩⟩
    rw [hf]
    trivial

/-! ### One step -/

theorem Phase.did_before (hfreed : p.freed = false) (hnone : ∀ u, ¬(p.callers u).Deletes)
    (hqueue : ∀ m ∈ p.queue, m.2 ≠ .delconn) (htidy : p.conn.Tidy) (hp : p.Pending)
    (ho : p.Apart o) (hk : p.conn.Keeps o called) : Phased (p.did called) := by
  cases called with
  | error fault =>
    rw [did_error hfreed]
    exact hk
  | ok r =>
    rw [did_ok hfreed]
    exact .before hfreed hnone hqueue (hk.tidy htidy) (hp.settle ho hk)

theorem Phase.did_queued {front : List (ℕ × Api α)} (hfreed : p.freed = false)
    (ht : p.callers t = .waiting true n) (hothers : ∀ u ≠ t, ¬(p.callers u).Deletes)
    (hqueue : p.queue = front ++ [(n, .delconn)]) (hfront : ∀ m ∈ front, m.2 ≠ .delconn)
    (htidy : p.conn.Tidy) (hp : p.Pending) (herr : p.errs n = none)
    (ho : p.Apart o) (hk : p.conn.Keeps o called) : Phased (p.did called) := by
  have hn : n ∈ p.queue.map Prod.fst := by
    rw [hqueue, List.map_append]
    exact List.mem_append_right _ (List.mem_singleton_self n)
  cases called with
  | error fault =>
    rw [did_error hfreed]
    exact hk
  | ok r =>
    rw [did_ok hfreed]
    exact .queued t n front hfreed ht hothers hqueue hfront (hk.tidy htidy) (hp.settle ho hk)
      ((hp.settle_errs ho hk hn).trans herr)

/-- What the message of the deletion has done. -/
theorem Phase.did_deletes (hfreed : p.freed = false) (ht : p.callers t = .waiting true n)
    (hothers : ∀ u ≠ t, ¬(p.callers u).Deletes) (hqueue : p.queue = []) (herr : p.errs n = none)
    (hd : Conn.Deletes n called) : Phased (p.did called) := by
  cases called with
  | error fault =>
    rw [did_error hfreed]
    exact hd
  | ok r =>
    rw [did_ok hfreed]
    obtain ⟨hc, ha⟩ | ⟨hg, err, len, hne, ha⟩ := hd
    · refine .closing t n hfreed ht hothers hqueue hc ?_
      rw [settle]
      rw [ha]
      exact herr
    · refine .gone t n hfreed (.inl ht) hothers hqueue hg ⟨err, ?_, hne⟩
      rw [settle]
      rw [ha]
      exact Function.update_self _ _ _

/-- Something that happens to the netconn besides the messages. -/
theorem Phase.did (h : p.Phase) (hfreed : p.freed = false) (hk : p.conn.Keeps none called)
    (hc : ∀ n, p.conn.Closing n → Conn.Deletes n called)
    (hg : p.conn.Gone → ∃ conn' eff, called = .ok (conn', eff) ∧ conn'.Gone ∧ eff.answers = []) :
    Phased (p.did called) := by
  cases h with
  | before _ hnone hqueue htidy hp =>
    exact did_before hfreed hnone hqueue htidy hp apart_none hk
  | queued t n front _ ht hothers hqueue hfront htidy hp herr =>
    exact did_queued hfreed ht hothers hqueue hfront htidy hp herr apart_none hk
  | closing t n _ ht hothers hqueue hclosing herr =>
    exact did_deletes hfreed ht hothers hqueue herr (hc n hclosing)
  | gone t n _ ht hothers hqueue hgone herr =>
    obtain ⟨conn', eff, rfl, hgone', ha⟩ := hg hgone
    rw [did_ok hfreed]
    refine .gone t n hfreed ht hothers hqueue hgone' ?_
    rw [settle]
    rw [ha]
    exact herr
  | freed hf => exact absurd (hfreed.symm.trans hf) nofun

theorem Phase.freed_eq_false (h : p.Phase) (hgone : ¬p.conn.Gone) : p.freed = false := by
  cases h with
  | before hfreed => exact hfreed
  | queued _ _ _ hfreed => exact hfreed
  | closing _ _ hfreed => exact hfreed
  | gone _ _ hfreed => exact hfreed
  | freed _ _ _ hg => exact absurd hg hgone

/-- A callback of the pcb. -/
theorem Phase.callback (h : p.Phase) (hpcb : p.conn.pcb ≠ none) (hk : p.conn.Keeps none called)
    (hc : ∀ n, p.conn.Closing n → Conn.Deletes n called) : Phased (p.did called) :=
  h.did (h.freed_eq_false fun hg => hpcb hg.pcb) hk hc fun hg => absurd hg.pcb hpcb

/-- The application, or what waits in a mailbox, changes the netconn. -/
theorem Phase.change (h : p.Phase) (hfreed : p.freed = false)
    (hk : p.conn.Keeps none (.ok (conn', {})))
    (hc : ∀ n, p.conn.Closing n → conn'.Closing n) (hg : p.conn.Gone → conn'.Gone) :
    Phased (p.did (.ok (conn', {}))) :=
  h.did hfreed hk (fun n hn => (hc n hn).same rfl) fun hgone => ⟨_, _, rfl, hg hgone, rfl⟩

theorem Pending.tail {m : ℕ × Api α} {queue : List (ℕ × Api α)} (hp : p.Pending)
    (hqueue : p.queue = m :: queue) : ({ p with queue := queue } : Parties α μ κ).Pending ∧
      ({ p with queue := queue } : Parties α μ κ).Apart (some m.1) := by
  obtain ⟨hissued, hnodup, hcurrent, hfresh⟩ := hp
  rw [hqueue, List.map_cons] at hissued hnodup hcurrent
  obtain ⟨hnot, hnodup⟩ := List.nodup_cons.mp hnodup
  refine ⟨⟨fun n hn => hissued n (List.mem_cons_of_mem _ hn), hnodup, fun msg hmsg => ?_, hfresh⟩, ?_⟩
  · obtain ⟨hlt, hmem⟩ := hcurrent msg hmsg
    exact ⟨hlt, fun hn => hmem (List.mem_cons_of_mem _ hn)⟩
  · rintro n ⟨⟩
    exact ⟨hissued _ List.mem_cons_self, hnot⟩

/-- The TCP/IP thread handles the first message. -/
theorem Phase.handle {id : ℕ} {api : Api α} {queue : List (ℕ × Api α)} {reply : Reply}
    (h : p.Phase) (hhead : p.queue = (id, api) :: queue)
    (hok : api = .delconn → p.conn.Deletable) :
    Phased (({ p with queue := queue } : Parties α μ κ).did (p.conn.handle reply id api)) := by
  cases h with
  | before hfreed hnone hqueue htidy hp =>
    rw [hhead] at hqueue
    obtain ⟨hapi, hqueue⟩ := List.forall_mem_cons.mp hqueue
    obtain ⟨hp, ho⟩ := hp.tail hhead
    exact did_before hfreed hnone hqueue htidy hp ho (Conn.keeps_handle hapi)
  | queued t n front hfreed ht hothers hqueue hfront htidy hp herr =>
    cases front with
    | nil =>
      cases hhead.symm.trans hqueue
      exact did_deletes hfreed ht hothers rfl herr ((hok rfl).doDelconn htidy)
    | cons m front =>
      cases hhead.symm.trans hqueue
      obtain ⟨hapi, hfront⟩ := List.forall_mem_cons.mp hfront
      obtain ⟨hp, ho⟩ := hp.tail hhead
      exact did_queued hfreed ht hothers rfl hfront htidy hp herr ho (Conn.keeps_handle hapi)
  | closing _ _ _ _ _ hqueue => exact absurd (hhead.symm.trans hqueue) nofun
  | gone _ _ _ _ _ hqueue => exact absurd (hhead.symm.trans hqueue) nofun
  | freed _ _ hqueue => exact absurd (hhead.symm.trans hqueue) nofun

variable [DecidableEq κ]

theorem Pending.post {api : Api α} (hp : p.Pending) : (p.post t api).Pending := by
  obtain ⟨hissued, hnodup, hcurrent, hfresh⟩ := hp
  have hids : (p.post t api).queue.map Prod.fst = p.queue.map Prod.fst ++ [p.issued] :=
    List.map_append
  have hnew : p.issued ∉ p.queue.map Prod.fst := fun hn => lt_irrefl _ (hissued _ hn)
  refine ⟨fun n hn => ?_, ?_, fun msg hmsg => ?_, fun n hn => hfresh n (Nat.le_of_succ_le hn)⟩
  · rw [hids] at hn
    rcases List.mem_append.mp hn with hn | hn
    · exact Nat.lt_succ_of_lt (hissued n hn)
    · rw [List.mem_singleton.mp hn]
      exact Nat.lt_succ_self _
  · rw [hids]
    exact hnodup.append (List.nodup_singleton _) (List.disjoint_singleton.mpr hnew)
  · obtain ⟨hlt, hmem⟩ := hcurrent msg hmsg
    rw [hids]
    refine ⟨Nat.lt_succ_of_lt hlt, fun hn => ?_⟩
    rcases List.mem_append.mp hn with hn | hn
    · exact hmem hn
    · exact absurd (List.mem_singleton.mp hn) hlt.ne

/-- What a thread is told to do does not change what the others do. -/
theorem update_deletes {callers : κ → Caller} {c : Caller} {u : κ}
    (hothers : ∀ v ≠ u, ¬(callers v).Deletes) (hc : t ≠ u → ¬c.Deletes) :
    ∀ v ≠ u, ¬(Function.update callers t c v).Deletes := by
  intro v hv
  by_cases hvt : v = t
  · rw [hvt, Function.update_self]
    exact hc (hvt ▸ hv)
  · rw [Function.update_of_ne hvt]
    exact hothers v hv

theorem update_not_deletes {callers : κ → Caller} {c : Caller}
    (hnone : ∀ v, ¬(callers v).Deletes) (hc : ¬c.Deletes) :
    ∀ v, ¬(Function.update callers t c v).Deletes := by
  intro v
  by_cases hvt : v = t
  · rw [hvt, Function.update_self]
    exact hc
  · rw [Function.update_of_ne hvt]
    exact hnone v

theorem Phase.post {api : Api α} (h : p.Phase) (hfreed : p.freed = false)
    (hok : ∀ u, ¬(p.callers u).Deletes) : (p.post t api).Phase := by
  cases h with
  | before _ hnone hqueue htidy hp =>
    by_cases hapi : api = .delconn
    · subst hapi
      refine .queued t p.issued p.queue hfreed (Function.update_self _ _ _)
        (update_deletes (fun v _ => hnone v) fun hne => absurd rfl hne) rfl hqueue htidy hp.post
        (hp.fresh _ le_rfl)
    · refine .before hfreed (update_not_deletes hnone ?_) (fun m hm => ?_) htidy hp.post
      · cases api with
        | delconn => exact absurd rfl hapi
        | _ => exact nofun
      · rcases List.mem_append.mp hm with hm | hm
        · exact hqueue m hm
        · rw [List.mem_singleton.mp hm]
          exact hapi
  | queued u _ _ _ hu => exact absurd (by rw [hu]; rfl) (hok u)
  | closing u _ _ hu => exact absurd (by rw [hu]; rfl) (hok u)
  | gone u _ _ hu =>
    refine absurd ?_ (hok u)
    rcases hu with hu | hu <;> rw [hu]
    · rfl
    · trivial
  | freed hf => exact absurd (hfreed.symm.trans hf) nofun

/-- The thread that wakes up does not delete the netconn. -/
theorem woken_of_not_deletes {c : Caller} (h : ¬c.Deletes) :
    (match c with | .waiting true id => Caller.freeing id | _ => .idle) = .idle := by
  cases c with
  | waiting deleting id =>
    cases deleting with
    | false => rfl
    | true => exact absurd rfl h
  | _ => rfl

theorem Phase.wake (h : p.Phase) (ht : ∃ deleting id, p.callers t = .waiting deleting id)
    (hfreed : p.freed = false) (hok : ∀ id, p.callers t = .waiting true id → p.errs id ≠ none) : Phased (p.wake t) := by
  rw [Parties.wake]
  rw [if_neg (Bool.eq_false_iff.mp hfreed)]
  cases h with
  | before _ hnone hqueue htidy hp =>
    refine .before hfreed (update_not_deletes hnone ?_) hqueue htidy
      ⟨hp.issued, hp.nodup, hp.current, hp.fresh⟩
    rw [woken_of_not_deletes (hnone t)]
    exact id
  | queued u n front _ hu hothers hqueue hfront htidy hp herr =>
    have hne : t ≠ u := by
      rintro rfl
      exact hok n hu herr
    refine .queued u n front hfreed ((Function.update_of_ne hne.symm _ _).trans hu)
      (update_deletes hothers fun _ => ?_) hqueue hfront htidy
      ⟨hp.issued, hp.nodup, hp.current, hp.fresh⟩ herr
    rw [woken_of_not_deletes (hothers t hne)]
    exact id
  | closing u n _ hu hothers hqueue hc herr =>
    have hne : t ≠ u := by
      rintro rfl
      exact hok n hu herr
    refine .closing u n hfreed ((Function.update_of_ne hne.symm _ _).trans hu)
      (update_deletes hothers fun _ => ?_) hqueue hc herr
    rw [woken_of_not_deletes (hothers t hne)]
    exact id
  | gone u n _ hu hothers hqueue hg herr =>
    refine .gone u n hfreed ?_ (update_deletes hothers fun hne => ?_) hqueue hg herr
    · by_cases hne : t = u
      · subst hne
        refine .inr ((Function.update_self _ _ _).trans ?_)
        rcases hu with hu | hu
        · rw [hu]
        · obtain ⟨deleting, id, ht⟩ := ht
          exact absurd (ht.symm.trans hu) nofun
      · rcases hu with hu | hu
        · exact .inl ((Function.update_of_ne (Ne.symm hne) _ _).trans hu)
        · exact .inr ((Function.update_of_ne (Ne.symm hne) _ _).trans hu)
    · rw [woken_of_not_deletes (hothers t hne)]
      exact id
  | freed hf => exact absurd (hfreed.symm.trans hf) nofun

theorem Phase.free {id : ℕ} (h : p.Phase) (ht : p.callers t = .freeing id) : Phased (p.free t) := by
  have hdel : (p.callers t).Deletes := by
    rw [ht]
    trivial
  cases h with
  | before _ hnone => exact absurd hdel (hnone t)
  | queued u _ _ _ hu hothers =>
    by_cases hne : t = u
    · subst hne
      exact absurd (ht.symm.trans hu) nofun
    · exact absurd hdel (hothers t hne)
  | closing u _ _ hu hothers =>
    by_cases hne : t = u
    · subst hne
      exact absurd (ht.symm.trans hu) nofun
    · exact absurd hdel (hothers t hne)
  | gone u n hfreed hu hothers hqueue hg herr =>
    have hself : t = u := by
      by_contra hne
      exact hothers t hne hdel
    rw [Parties.free]
    rw [if_neg (Bool.eq_false_iff.mp hfreed), hg.pcb, hg.recvmbox, hg.acceptmbox]
    refine .freed rfl (fun v => ?_) hqueue hg
    by_cases hv : v = t
    · rw [hv]
      change ¬(Function.update p.callers t .idle t).Deletes
      rw [Function.update_self]
      exact not_false
    · change ¬(Function.update p.callers t .idle v).Deletes
      rw [Function.update_of_ne hv]
      exact hothers v (hself ▸ hv)
  | freed _ hnone => exact absurd hdel (hnone t)

/-- Every step that is in order keeps the phase of the deletion. -/
theorem Phase.after {e : Step α μ κ} (h : p.Phase) (hen : p.Enabled e) (hok : Orderly (.ok p) e) :
    Phased (p.after e) := by
  specialize hok p rfl
  cases e with
  | post t api => exact h.post hen.2 hok
  | handle reply =>
    rw [Parties.after]
    cases hqueue : p.queue with
    | nil => exact absurd hqueue hen
    | cons m queue =>
      obtain ⟨id, api⟩ := m
      refine h.handle hqueue ?_
      rintro rfl
      exact hok id queue hqueue
  | sent turn =>
    exact h.callback hen.pcb_ne Conn.keeps_sentTcp fun n hn => hn.sentTcp hen.pcb_ne
  | poll turn =>
    exact h.callback hen.pcb_ne Conn.keeps_pollTcp fun n hn => hn.pollTcp hen.pcb_ne
  | err err room room' =>
    obtain ⟨hcalls, hfatal⟩ := hen
    exact h.callback hcalls.pcb_ne Conn.keeps_errTcp fun n hn => hn.errTcp hcalls.pcb_ne hfatal
  | connected err =>
    obtain ⟨pcb, hpcb, -⟩ := hen
    have hpcb : p.conn.pcb ≠ none := Option.ne_none_iff_exists'.mpr ⟨pcb, hpcb⟩
    exact h.callback hpcb Conn.keeps_doConnected fun n hn => hn.doConnected hpcb
  | recv msg err room =>
    exact h.callback hen.pcb_ne Conn.keeps_recvMsg fun n hn => hn.recvMsg
  | accept room =>
    exact h.callback hen.pcb_ne Conn.keeps_acceptFunction fun n hn => hn.acceptFunction
  | newconns conns =>
    obtain ⟨conns', haccept, -⟩ := hen
    refine h.change (h.freed_eq_false fun hg => absurd (haccept.symm.trans hg.acceptmbox) nofun)
      (Conn.Did.silent rfl rfl rfl rfl) ?_ ?_
    · exact fun n hn => absurd (haccept.symm.trans hn.acceptmbox) nofun
    · exact fun hg => absurd (haccept.symm.trans hg.acceptmbox) nofun
  | fetch =>
    refine h.change hen (Conn.Did.silent rfl rfl rfl rfl) (fun n hn => ?_) fun hg => ?_
    · exact ⟨hn.currentMsg, hn.state, Option.map_eq_none_iff.mpr hn.recvmbox,
        Option.map_eq_none_iff.mpr hn.acceptmbox⟩
    · exact ⟨hg.pcb, Option.map_eq_none_iff.mpr hg.recvmbox,
        Option.map_eq_none_iff.mpr hg.acceptmbox, hg.currentMsg⟩
  | configure nonBlocking sendTimeout =>
    exact h.change hen (Conn.Did.silent rfl rfl rfl rfl)
      (fun n hn => ⟨hn.currentMsg, hn.state, hn.recvmbox, hn.acceptmbox⟩)
      fun hg => ⟨hg.pcb, hg.recvmbox, hg.acceptmbox, hg.currentMsg⟩
  | safeErr err =>
    change Phased (p.did (.ok (p.conn.setSafeErr err, {})))
    obtain hsafe | hsafe := p.conn.setSafeErr_cases err <;> rw [hsafe]
    · exact h.change hen (Conn.Did.silent rfl rfl rfl rfl) (fun _ => id) id
    · exact h.change hen (Conn.Did.silent rfl rfl rfl rfl)
        (fun n hn => ⟨hn.currentMsg, hn.state, hn.recvmbox, hn.acceptmbox⟩)
        fun hg => ⟨hg.pcb, hg.recvmbox, hg.acceptmbox, hg.currentMsg⟩
  | wake t => exact h.wake hen.1 hok.1 hok.2
  | free t =>
    obtain ⟨id, ht⟩ := hen
    exact h.free ht

end Parties

/-- `do_delconn` refuses a netconn only by leaving it as it is; and where the netconn is deleted in
order, it is freed only with nothing left that refers to it. -/
theorem delete_safe [DecidableEq κ] :
    (∀ (conn conn' : Conn α μ ℕ) (closeErr : ℤ) (id : ℕ) (eff : Effects α μ ℕ),
      conn.doDelconn closeErr id = .ok (conn', eff) →
        (∃ a ∈ eff.answers, a.err = errInprogress) → conn' = conn) ∧
    ∀ s : Except Fault (Parties α μ κ), deleting.ReachableWhile Orderly s → Safe s := by
  constructor
  · rintro conn conn' closeErr id eff h ⟨a, ha, herr⟩
    exact Conn.doDelconn_refused h ha herr
  · intro s h
    suffices hphased : Parties.Phased s by
      cases s with
      | error fault => exact hphased
      | ok p => exact Parties.Phase.safe hphased
    refine h.invariant ?_ ?_
    · rintro s ⟨conn, rfl, hstate, hmsg, hconnect⟩
      refine .before rfl (fun _ => id) nofun ⟨fun _ => hmsg, fun h => ?_⟩ ⟨nofun, .nil, ?_, ?_⟩
      · exact absurd (hconnect.symm.trans h) nofun
      · exact fun msg h => absurd (hmsg.symm.trans h) nofun
      · exact fun _ _ => rfl
    · rintro s e s' hs hok ⟨p, rfl, hen, rfl⟩
      exact Parties.Phase.after hs hen hok

/-- A connected netconn that two threads use. -/
def shared : Parties ℕ Unit Bool := { conn := { pcb := some (Conn.setupTcp {}) } }

theorem shared_start : deleting.start (.ok shared : Except Fault (Parties ℕ Unit Bool)) :=
  ⟨_, rfl, rfl, rfl, rfl⟩

theorem delete_safe_alone :
    Safe (((shared.post true .delconn).after (.handle {})).bind fun p => p.wake true) ∧
      ∀ conn' eff, Conn.doDelconn errOk 0 { shared.conn with state := .write } = .ok (conn', eff) →
        conn' = { shared.conn with state := .write } := by
  constructor
  · refine delete_safe.2 _ ⟨_, .snoc (.snoc (.snoc (.start shared_start) ?_
      (deleting_step (.post true .delconn) ⟨rfl, rfl⟩ rfl)) ?_
      (deleting_step (.handle {}) nofun rfl)) ?_
      (deleting_step (.wake true) ⟨⟨true, 0, rfl⟩, by decide⟩ rfl)⟩
    · rintro p ⟨⟩ u
      exact id
    · rintro p ⟨⟩ id queue hqueue
      exact .inl rfl
    · rintro p ⟨⟩
      exact ⟨rfl, by rintro id ⟨⟩; exact nofun⟩
  · intro conn' eff h
    exact (delete_safe (κ := Bool)).1 _ _ _ _ _ h (by cases h; exact ⟨_, List.mem_singleton_self _, rfl⟩)

/-- A netconn on which another thread is writing: `do_delconn` refuses, and `netconn_free` is called
all the same. -/
theorem delete_fails :
    ¬∀ s : Except Fault (Parties ℕ Unit Bool), deleting.Reachable s → Safe s := by
  intro hall
  have hwrite := (System.Reachable.of_start shared_start).step
    (deleting_step (.post false (.write [1] false 0)) ⟨rfl, rfl⟩ rfl)
  have hbusy := hwrite.step (deleting_step (.handle {}) nofun rfl)
  have hdelete := hbusy.step (deleting_step (.post true .delconn) ⟨rfl, rfl⟩ rfl)
  have hrefused := hdelete.step (deleting_step (.handle {}) nofun rfl)
  have hwoken := hrefused.step (deleting_step (.wake true) ⟨⟨true, 1, rfl⟩, by decide⟩ rfl)
  have hfree := hwoken.step (s := _) (t := .error .pcbLeft)
    (deleting_step (.free true) ⟨1, rfl⟩ rfl)
  exact hall _ hfree trivial

end QuietLwip.Netconn
