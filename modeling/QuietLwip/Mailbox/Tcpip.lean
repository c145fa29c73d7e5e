import QuietLwip.Foundation.Places
import QuietLwip.Mailbox.Sections

/-!
# Requests to the thread of the stack

`tcpip.c`: any number of threads pass messages to `tcpip_thread` through its mailbox. A message is an element of a
pool, which the thread frees, or lies in the frame of a caller that waits for the thread; then each caller has a
connection, and so a semaphore, of its own. Static callback messages are left out.
-/

namespace QuietLwip.Tcpip

open Mailbox Places Transition

variable {α ι : Type} [DecidableEq ι]

/-! ### Messages -/

/-- `enum tcpip_msg_type`. -/
inductive MsgType where
  | api | inpkt | netifapi | timeout | untimeout | callback
  deriving DecidableEq

/-- `struct tcpip_msg`, with what it is about. -/
structure TcpipMsg (α : Type) where
  type : MsgType
  arg : α

inductive Pool where
  | tcpipMsgApi | tcpipMsgInpkt
  deriving DecidableEq

/-- `MEMP_NUM_TCPIP_MSG_API` and `MEMP_NUM_TCPIP_MSG_INPKT`. -/
def Pool.num : Pool → ℕ
  | tcpipMsgApi => 8
  | tcpipMsgInpkt => 32

/-- The pool that a message is from, if it does not lie in the frame of its caller. -/
def MsgType.pool : MsgType → Option Pool
  | api | netifapi => none
  | inpkt => some .tcpipMsgInpkt
  | timeout | untimeout | callback => some .tcpipMsgApi

/-- A `struct tcpip_msg *`. -/
inductive Ref (ι : Type) where
  | block (pool : Pool) (n : ℕ)
  | frame (i : ι)
  deriving DecidableEq

/-- The functions that pass a message. -/
inductive Request (α : Type) where
  | tcpipInput (arg : α)
  | tcpipCallbackWithBlock (arg : α) (block : Bool)
  | tcpipTimeout (arg : α)
  | tcpipUntimeout (arg : α)
  | tcpipApimsg (arg : α)
  | tcpipNetifapi (arg : α)

namespace Request

def msg : Request α → TcpipMsg α
  | tcpipInput arg => ⟨.inpkt, arg⟩
  | tcpipCallbackWithBlock arg _ => ⟨.callback, arg⟩
  | tcpipTimeout arg => ⟨.timeout, arg⟩
  | tcpipUntimeout arg => ⟨.untimeout, arg⟩
  | tcpipApimsg arg => ⟨.api, arg⟩
  | tcpipNetifapi arg => ⟨.netifapi, arg⟩

/-- `sys_mbox_post`, and not `sys_mbox_trypost`. -/
def blocks : Request α → Bool
  | tcpipInput _ => false
  | tcpipCallbackWithBlock _ block => block
  | tcpipTimeout _ | tcpipUntimeout _ | tcpipApimsg _ | tcpipNetifapi _ => true

end Request

/-! ### The threads -/

/-- Where a caller stands. -/
inductive Caller (ι : Type) where
  | idle
  -- the message is written
  | holding (r : Ref ι) (blocks : Bool)
  -- in `sys_mbox_post`
  | posting (r : Ref ι) (t : Thread (Ref ι))
  -- `sys_mbox_trypost` has failed
  | refused (r : Ref ι)
  -- before `sys_arch_sem_wait` of the semaphore of its request
  | waiting

/-- Where `tcpip_thread` stands. -/
inductive Server (ι : Type) where
  -- in `sys_timeouts_mbox_fetch`
  | fetching (t : Thread (Ref ι))
  -- before the `switch`
  | handling (r : Ref ι)
  -- before `memp_free`
  | freeing (r : Ref ι)

structure State (α ι : Type) where
  mbox : Mbox (Ref ι)
  -- the messages in the pools that are in use, and in the frames
  heap : Ref ι → Option (TcpipMsg α)
  callers : ι → Caller ι
  server : Server ι
  -- the semaphores, and for whom one is still to be signalled
  sem : ι → ℕ
  owed : ι → Bool
  -- what was posted and what was handled, and how often each caller has returned
  posted : List (Ref ι × TcpipMsg α)
  handled : List (Ref ι × TcpipMsg α)
  returned : ι → ℕ

namespace State

variable (s : State α ι)

def setHeap (r : Ref ι) (m : Option (TcpipMsg α)) : State α ι := { s with heap := Function.update s.heap r m }

def setCaller (i : ι) (c : Caller ι) : State α ι := { s with callers := Function.update s.callers i c }

/-- The caller goes on with its message where a section of the mailbox has left it. -/
def sent (i : ι) (r : Ref ι) : Mbox (Ref ι) × Thread (Ref ι) × Outcome (Ref ι) → State α ι
  | (mbox, _, .stored ..) =>
    { s.setCaller i (match r with | .block .. => .idle | .frame _ => .waiting) with
      mbox := mbox
      posted := s.posted ++ ((s.heap r).map fun m => (r, m)).toList }
  | (mbox, _, .refused _) => { s.setCaller i (.refused r) with mbox := mbox }
  | (mbox, t, _) => { s.setCaller i (.posting r t) with mbox := mbox }

/-- The thread takes the message that was fetched, if one was. -/
def fetched : Mbox (Ref ι) × Thread (Ref ι) × Outcome (Ref ι) → State α ι
  | (mbox, _, .fetched r _) => { s with mbox := mbox, server := .handling r }
  | (mbox, t, _) => { s with mbox := mbox, server := .fetching t }

/-- The `switch` of `tcpip_thread`: a message from a pool is freed next, and for one from a frame the semaphore
is signalled, now or later. -/
def handle (r : Ref ι) (m : TcpipMsg α) : State α ι :=
  match r with
  | .block .. => { s with server := .freeing r, handled := s.handled ++ [(r, m)] }
  | .frame i =>
    { s with
      server := .fetching .idle
      owed := Function.update s.owed i true
      handled := s.handled ++ [(r, m)] }

/-- The semaphore of the caller is signalled. -/
def told (i : ι) : State α ι :=
  { s with
    owed := Function.update s.owed i false
    sem := Function.update s.sem i (sysSemSignal (s.sem i)) }

/-- The caller is through the wait, and its frame is gone. -/
def woken (i : ι) : State α ι :=
  { s with
    heap := Function.update s.heap (.frame i) none
    callers := Function.update s.callers i .idle
    sem := Function.update s.sem i (s.sem i - 1)
    returned := Function.update s.returned i (s.returned i + 1) }

end State

inductive Event (α ι : Type) where
  -- a caller allocates a message and writes it; `n` is the element that `memp_malloc` returns
  | call (i : ι) (rq : Request α) (n : ℕ)
  -- a section of the mailbox
  | send (i : ι)
  -- `memp_free` by the caller
  | free (i : ι)
  -- `sys_arch_sem_wait` returns
  | wake (i : ι)
  | fetch (a : Action (Ref ι))
  | handle
  -- `memp_free` by the thread
  | release
  -- `sys_sem_signal`, anywhere in the stack
  | signal (i : ι)

/-- What the thread does with the mailbox. -/
def isFetch {μ : Type} : Action μ → Bool
  | .fetch _ | .resume | .timeOut => true
  | .post _ | .trypost _ | .tryfetch => false

/-- The step, `none` where it is not enabled or goes wrong. -/
def Event.exec (s : State α ι) : Event α ι → Option (State α ι)
  | call i rq n =>
    match s.callers i, rq.msg.type.pool with
    | .idle, none => some ((s.setHeap (.frame i) (some rq.msg)).setCaller i (.holding (.frame i) rq.blocks))
    | .idle, some pool =>
      if n < pool.num ∧ s.heap (.block pool n) = none then
        some ((s.setHeap (.block pool n) (some rq.msg)).setCaller i (.holding (.block pool n) rq.blocks))
      else none
    | _, _ => none
  | send i =>
    match s.callers i with
    | .holding r blocks => (threadStep s.mbox .idle (if blocks then .post r else .trypost r)).map (s.sent i r)
    | .posting r t => (threadStep s.mbox t .resume).map (s.sent i r)
    | _ => none
  | free i =>
    match s.callers i with
    | .refused r => (s.heap r).map fun _ => (s.setHeap r none).setCaller i .idle
    | _ => none
  | wake i =>
    match s.callers i with
    | .waiting =>
      if 0 < s.sem i then some (s.woken i) else none
    | _ => none
  | fetch a =>
    match s.server with
    | .fetching t => if isFetch a then (threadStep s.mbox t a).map s.fetched else none
    | _ => none
  | handle =>
    match s.server with
    | .handling r => (s.heap r).map (s.handle r)
    | _ => none
  | release =>
    match s.server with
    | .freeing r => (s.heap r).map fun _ => { s.setHeap r none with server := .fetching .idle }
    | _ => none
  | signal i =>
    if s.owed i then some (s.told i) else none

/-- Any interleaving of callers and of the thread, from the start of the thread on. -/
def tcpip (α ι : Type) [DecidableEq ι] : System (State α ι) (Event α ι) where
  start s := (∃ msgs, s.mbox = sysMboxNew msgs) ∧ (∀ r, s.heap r = none) ∧ (∀ i, s.callers i = .idle) ∧
    s.server = .fetching .idle ∧ (∀ i, s.sem i = 0) ∧ (∀ i, s.owed i = false) ∧ s.posted = [] ∧ s.handled = [] ∧
    ∀ i, s.returned i = 0
  step s e t := e.exec s = some t

/-! ### Sections of the mailbox -/

section sections

variable {μ : Type} {mbox mbox' : Mbox μ} {t t' : Thread μ} {a : Action μ} {o : Outcome μ} {r : μ}

/-- The thread is in `sys_mbox_post` with this message. -/
def Sends (r : μ) (t : Thread μ) : Prop := t = .waitNotFull r ∨ t = .relockPost r

/-- The thread is in `sys_arch_mbox_fetch`, or in front of it. -/
def Fetches (t : Thread μ) : Prop := t = .idle ∨ (∃ n, t = .waitNotEmpty n) ∨ ∃ n, t = .relockFetch n

/-- The message is stored, or it is kept. -/
inductive SendStep (r : μ) (mbox mbox' : Mbox μ) (t' : Thread μ) : Outcome μ → Prop
  | stored (k : ℤ) (h : mbox'.unread = mbox.unread ++ [r]) : SendStep r mbox mbox' t' (.stored r k)
  | refused (h : mbox'.unread = mbox.unread) : SendStep r mbox mbox' t' (.refused r)
  | waits (h : mbox'.unread = mbox.unread) (ht : Sends r t') : SendStep r mbox mbox' t' .waits
  | wakes (h : mbox'.unread = mbox.unread) (ht : Sends r t') : SendStep r mbox mbox' t' .wakes

theorem sysMboxPost_step (h : mbox.Counters) (hs : sysMboxPost mbox r = (mbox', t', o)) :
    SendStep r mbox mbox' t' o := by
  have hq := (sysMboxPost_spec h hs).queue
  rw [sysMboxPost] at hs
  split at hs
  · cases hs
    exact .waits (by simpa [Outcome.posts, Outcome.fetches] using hq.symm) (.inl rfl)
  · cases hs
    exact .stored _ (by simpa [Outcome.posts, Outcome.fetches] using hq.symm)

/-- What a section does for a caller with a message. -/
theorem send_step (h : mbox.Counters)
    (ha : t = .idle ∧ (a = .post r ∨ a = .trypost r) ∨ a = .resume ∧ Sends r t)
    (hs : threadStep mbox t a = some (mbox', t', o)) : mbox'.Counters ∧ SendStep r mbox mbox' t' o := by
  have hspec := threadStep_spec h hs
  have hq := hspec.queue
  refine ⟨hspec.counters, ?_⟩
  rcases ha with ⟨rfl, rfl | rfl⟩ | ⟨rfl, rfl | rfl⟩
  · exact sysMboxPost_step h (Option.some.inj hs)
  · by_cases hfull : mbox.full
    · rw [threadStep, sysMboxTrypost_full hfull] at hs
      cases hs
      exact .refused rfl
    · rw [threadStep, sysMboxTrypost_room hfull] at hs
      cases hs
      exact .stored _ (by simpa [Outcome.posts, Outcome.fetches] using hq.symm)
  · rw [threadStep] at hs
    split at hs
    · cases hs
      exact .wakes rfl (.inr rfl)
    · cases hs
  · have h' : ({ mbox with waitSend := mbox.waitSend - 1 } : Mbox μ).Counters := ⟨h.1, h.2, h.3, h.4⟩
    cases sysMboxPost_step h' (Option.some.inj hs) with
    | stored k hk => exact .stored k hk
    | refused hk => exact .refused hk
    | waits hk ht => exact .waits hk ht
    | wakes hk ht => exact .wakes hk ht

/-- The oldest message is fetched, or none. -/
inductive FetchStep (mbox mbox' : Mbox μ) (t' : Thread μ) (o : Outcome μ) : Prop
  | fetched (r : μ) (k : ℤ) (ho : o = .fetched r k) (h : mbox.unread = r :: mbox'.unread)
  | waits (ho : ∀ r k, o ≠ .fetched r k) (h : mbox'.unread = mbox.unread) (ht : Fetches t')

theorem sysArchMboxFetch_step {n : ℕ} (h : mbox.Counters) (hs : sysArchMboxFetch mbox n = (mbox', t', o)) :
    FetchStep mbox mbox' t' o := by
  have hq := (sysArchMboxFetch_spec h hs).queue
  rw [sysArchMboxFetch] at hs
  split at hs
  · cases hs
    exact .waits (by rintro _ _ ⟨⟩) rfl (.inr (.inl ⟨n, rfl⟩))
  · cases hs
    exact .fetched _ _ rfl (by simpa [Outcome.posts, Outcome.fetches] using hq)

/-- What a section does for the thread. -/
theorem fetch_step (h : mbox.Counters) (ht : Fetches t) (ha : isFetch a = true)
    (hs : threadStep mbox t a = some (mbox', t', o)) : mbox'.Counters ∧ FetchStep mbox mbox' t' o := by
  refine ⟨(threadStep_spec h hs).counters, ?_⟩
  rcases ht with rfl | ⟨n, rfl⟩ | ⟨n, rfl⟩
  · cases a with
    | fetch n => exact sysArchMboxFetch_step h (Option.some.inj hs)
    | post | trypost | tryfetch => cases ha
    | resume | timeOut => cases hs
  · cases a with
    | resume =>
      rw [threadStep] at hs
      split at hs
      · cases hs
        exact .waits (by rintro _ _ ⟨⟩) rfl (.inr (.inr ⟨n, rfl⟩))
      · cases hs
    | timeOut =>
      rw [threadStep] at hs
      split at hs
      · cases hs
        exact .waits (by rintro _ _ ⟨⟩) rfl (.inl rfl)
      · cases hs
    | _ => cases hs
  · cases a with
    | resume => exact sysArchMboxFetch_step h (Option.some.inj hs)
    | _ => cases hs

end sections

/-! ### Where a message lies -/

/-- The message that a caller still has. -/
def Caller.holds : Caller ι → Option (Ref ι)
  | holding r _ | posting r _ | refused r => some r
  | idle | waiting => none

/-- The message that the thread has taken from the mailbox and not yet looked at. -/
def Server.current : Server ι → List (Ref ι)
  | handling r => [r]
  | fetching _ | freeing _ => []

inductive Place (ι : Type) where
  | caller (i : ι)
  | queue
  | handling
  | freeing
  -- it was handled, and its caller is not yet told, or not yet awake
  | owed
  | signalled

/-- The message is in this place. -/
def State.Lies (s : State α ι) (r : Ref ι) : Place ι → Prop
  | .caller i => (s.callers i).holds = some r
  | .queue => r ∈ s.mbox.unread
  | .handling => s.server = .handling r
  | .freeing => s.server = .freeing r
  | .owed => ∃ i, r = .frame i ∧ s.owed i = true
  | .signalled => ∃ i, r = .frame i ∧ 0 < s.sem i

/-- The message of a caller has left the caller. -/
def Place.away : Place ι → Bool
  | caller _ => false
  | queue | handling | freeing | owed | signalled => true

structure Inv (s : State α ι) : Prop where
  counters : s.mbox.Counters
  custody : Custody s.Lies fun r => (s.heap r).isSome
  nodup : s.mbox.unread.Nodup
  frames : ∀ i j, (s.callers i).holds = some (.frame j) → j = i
  waits : ∀ i, s.callers i = .waiting → (s.heap (.frame i)).isSome
  away : ∀ i p, p.away → s.Lies (.frame i) p → s.callers i = .waiting
  sems : ∀ i, s.sem i ≤ 1
  sends : ∀ i r t, s.callers i = .posting r t → Sends r t
  fetches : ∀ t, s.server = .fetching t → Fetches t
  frees : ∀ i, s.server ≠ .freeing (.frame i)
  log : ∃ es, s.posted = s.handled ++ es ∧ es.map Prod.fst = s.server.current ++ s.mbox.unread ∧
    ∀ e ∈ es, s.heap e.1 = some e.2
  counts : ∀ i, s.handled.countP (fun e => e.1 = .frame i) =
    s.returned i + if s.owed i ∨ 0 < s.sem i then 1 else 0

section steps

variable {s s' : State α ι} {r : Ref ι} {m : TcpipMsg α} {i : ι} {c : Caller ι} {b : Bool}

/-- The message in the frame of a caller that stands still is not in use. -/
theorem Inv.frame_free (h : Inv s) (hi : s.callers i = .idle) : s.heap (.frame i) = none := by
  by_contra hne
  obtain ⟨p, hp⟩ := (h.custody.inUse_iff (.frame i)).mp (Option.isSome_iff_ne_none.mpr hne)
  by_cases hp' : p.away
  · rw [h.away i p hp' hp] at hi
    cases hi
  · cases p with
    | caller j =>
      have hj : (s.callers j).holds = some (.frame i) := hp
      obtain rfl := h.frames j i hj
      rw [hi] at hj
      cases hj
    | _ => exact hp' rfl

/-- Only the place of the caller changes with the caller. -/
theorem lies_setCaller {p : Place ι} : (s.setCaller i c).Lies r p ↔
    s.Lies r p ∧ p ≠ .caller i ∨ p = .caller i ∧ c.holds = some r := by
  cases p with
  | caller j =>
    by_cases hj : j = i
    · subst hj
      simp [State.Lies, State.setCaller]
    · simp [State.Lies, State.setCaller, hj]
  | _ => simp [State.Lies, State.setCaller]

theorem callers_setCaller (s : State α ι) (i : ι) (c : Caller ι) : (s.setCaller i c).callers i = c :=
  Function.update_self ..

theorem callers_setCaller_of_ne {j : ι} (hj : j ≠ i) : (s.setCaller i c).callers j = s.callers j :=
  Function.update_of_ne hj ..

/-- What a caller does makes no other caller wait. -/
theorem waiting_of_setCaller {j : ι} (hc : c ≠ .waiting) (hj : (s.setCaller i c).callers j = .waiting) :
    j ≠ i ∧ s.callers j = .waiting := by
  have hji : j ≠ i := by
    rintro rfl
    exact hc ((callers_setCaller s j c).symm.trans hj)
  exact ⟨hji, (callers_setCaller_of_ne hji).symm.trans hj⟩

/-- Nor does it end the wait of another. -/
theorem waiting_setCaller {j : ι} (hi : s.callers i ≠ .waiting) (hj : s.callers j = .waiting) :
    (s.setCaller i c).callers j = .waiting := by
  have hji : j ≠ i := by
    rintro rfl
    exact hi hj
  exact (callers_setCaller_of_ne hji).trans hj

omit [DecidableEq ι] in
theorem not_waiting_of_holds (hc : c.holds = some r) : c ≠ .waiting := by
  rintro rfl
  cases hc

theorem Inv.sends_setCaller (h : Inv s) (hc : ∀ r t, c = .posting r t → Sends r t) (j : ι) (x : Ref ι)
    (t : Thread (Ref ι)) (hj : (s.setCaller i c).callers j = .posting x t) : Sends x t := by
  by_cases hji : j = i
  · subst hji
    exact hc x t ((callers_setCaller s j c).symm.trans hj)
  · exact h.sends j x t ((callers_setCaller_of_ne hji).symm.trans hj)

/-- Nobody gets the message of another. -/
theorem Inv.frames_of_lies (h : Inv s) (hlies : ∀ x j, s'.Lies x (.caller j) → s.Lies x (.caller j)) (j k : ι)
    (hjk : (s'.callers j).holds = some (.frame k)) : k = j :=
  h.frames j k (hlies (.frame k) j hjk)

theorem heap_setHeap_of_ne {x : Ref ι} {m : Option (TcpipMsg α)} (hx : x ≠ r) : (s.setHeap r m).heap x = s.heap x :=
  Function.update_of_ne hx ..

theorem isSome_setHeap_none (s : State α ι) (r x : Ref ι) :
    ((s.setHeap r none).heap x).isSome ↔ (s.heap x).isSome ∧ x ≠ r := by
  by_cases hx : x = r
  · subst hx
    simp [State.setHeap]
  · simp [State.setHeap, hx]

/-- What the log says of the messages that are on their way. -/
theorem Inv.log_congr (h : Inv s) {heap : Ref ι → Option (TcpipMsg α)}
    (hheap : ∀ x, x ∈ s.server.current ++ s.mbox.unread → heap x = s.heap x) :
    ∃ es, s.posted = s.handled ++ es ∧ es.map Prod.fst = s.server.current ++ s.mbox.unread ∧
      ∀ e ∈ es, heap e.1 = some e.2 := by
  obtain ⟨es, hposted, hes, hlog⟩ := h.log
  refine ⟨es, hposted, hes, fun e he => ?_⟩
  have hmem : e.1 ∈ s.server.current ++ s.mbox.unread := hes ▸ List.mem_map_of_mem he
  rw [hheap e.1 hmem]
  exact hlog e he

omit [DecidableEq ι] in
/-- What is on its way lies with the thread or in the mailbox. -/
theorem lies_of_current {x : Ref ι} (hx : x ∈ s.server.current ++ s.mbox.unread) :
    s.Lies x .handling ∨ s.Lies x .queue := by
  rcases List.mem_append.mp hx with hx | hx
  · left
    cases hserver : s.server with
    | handling y =>
      rw [hserver] at hx
      rw [State.Lies, hserver, List.mem_singleton.mp hx]
    | _ =>
      rw [hserver] at hx
      cases hx
  · exact .inr hx

/-- What lies elsewhere is not on its way. -/
theorem Inv.heap_setHeap (h : Inv s) {p : Place ι} (hr : s.Lies r p) (hhandling : p ≠ .handling) (hqueue : p ≠ .queue)
    (m : Option (TcpipMsg α)) (x : Ref ι) (hx : x ∈ s.server.current ++ s.mbox.unread) :
    (s.setHeap r m).heap x = s.heap x := by
  refine heap_setHeap_of_ne ?_
  rintro rfl
  rcases lies_of_current hx with hx | hx
  · exact hhandling (h.custody.unique _ _ _ hr hx)
  · exact hqueue (h.custody.unique _ _ _ hr hx)

/-- A caller takes a message that is not in use, and writes it. -/
theorem Inv.call (h : Inv s) (hi : s.callers i = .idle) (hr : s.heap r = none) (hframe : ∀ j, r = .frame j → j = i) :
    Inv ((s.setHeap r (some m)).setCaller i (.holding r b)) := by
  have hfree : ¬ (s.heap r).isSome := by simp [hr]
  have hlies : ∀ x p, ((s.setHeap r (some m)).setCaller i (.holding r b)).Lies x p ↔
      s.Lies x p ∨ x = r ∧ p = .caller i := by
    intro x p
    rw [lies_setCaller]
    change s.Lies x p ∧ p ≠ .caller i ∨ p = .caller i ∧ some r = some x ↔ _
    constructor
    · rintro (⟨hp, -⟩ | ⟨hp, hx⟩)
      · exact .inl hp
      · exact .inr ⟨(Option.some.inj hx).symm, hp⟩
    · rintro (hp | ⟨rfl, rfl⟩)
      · refine .inl ⟨hp, ?_⟩
        rintro rfl
        rw [State.Lies, hi] at hp
        cases hp
      · exact .inr ⟨rfl, rfl⟩
  have huse : ∀ x, ((s.setHeap r (some m)).heap x).isSome ↔ (s.heap x).isSome ∨ x = r := by
    intro x
    by_cases hx : x = r
    · subst hx
      simp [State.setHeap]
    · simp [State.setHeap, hx]
  refine ⟨h.counters, h.custody.bring hfree hlies huse, h.nodup, ?_, ?_, ?_, h.sems, ?_, h.fetches, h.frees, ?_,
    h.counts⟩
  · intro j k hjk
    by_cases hj : j = i
    · subst hj
      rw [callers_setCaller] at hjk
      exact hframe k (Option.some.inj hjk)
    · rw [callers_setCaller_of_ne hj] at hjk
      exact h.frames j k hjk
  · intro j hj
    exact (huse _).mpr (.inl (h.waits j (waiting_of_setCaller (not_waiting_of_holds rfl) hj).2))
  · intro j p hp hjp
    obtain hjp | ⟨-, rfl⟩ := (hlies _ _).mp hjp
    · have hidle : s.callers i ≠ .waiting := by simp [hi]
      exact waiting_setCaller hidle (h.away j p hp hjp)
    · cases hp
  · exact h.sends_setCaller (by rintro _ _ ⟨⟩)
  · refine h.log_congr fun x hx => heap_setHeap_of_ne ?_
    rintro rfl
    rcases lies_of_current hx with hx | hx
    · exact h.custody.nowhere hfree _ hx
    · exact h.custody.nowhere hfree _ hx

/-- A caller goes on with its message in hand. -/
theorem Inv.keep (h : Inv s) {mbox : Mbox (Ref ι)} (hi : (s.callers i).holds = some r) (hc : c.holds = some r)
    (hcounters : mbox.Counters) (hunread : mbox.unread = s.mbox.unread) (hsends : ∀ x t, c = .posting x t → Sends x t) :
    Inv { s.setCaller i c with mbox := mbox } := by
  have hlies : ∀ x p, ({ s.setCaller i c with mbox := mbox } : State α ι).Lies x p ↔ s.Lies x p := by
    intro x p
    cases p with
    | caller j =>
      by_cases hj : j = i
      · subst hj
        simp [State.Lies, State.setCaller, hi, hc]
      · simp [State.Lies, State.setCaller, hj]
    | queue => rw [State.Lies, State.Lies, hunread]
    | _ => rfl
  have hwaiting : ∀ j, ({ s.setCaller i c with mbox := mbox } : State α ι).callers j = .waiting ↔
      s.callers j = .waiting := by
    intro j
    by_cases hj : j = i
    · subst hj
      exact iff_of_false (fun hw => not_waiting_of_holds hc ((callers_setCaller s j c).symm.trans hw))
        (not_waiting_of_holds hi)
    · exact (callers_setCaller_of_ne (s := s) (c := c) hj).congr_left
  refine ⟨hcounters, h.custody.congr hlies fun _ => Iff.rfl, ?_, ?_, ?_, ?_, h.sems, ?_, h.fetches, h.frees, ?_,
    h.counts⟩
  · rw [hunread]
    exact h.nodup
  · exact h.frames_of_lies fun x j => (hlies x (.caller j)).mp
  · intro j hj
    exact h.waits j ((hwaiting j).mp hj)
  · intro j p hp hjp
    exact (hwaiting j).mpr (h.away j p hp ((hlies _ _).mp hjp))
  · exact h.sends_setCaller hsends
  · obtain ⟨es, hposted, hes, hlog⟩ := h.log
    exact ⟨es, hposted, hes.trans (congrArg _ hunread.symm), hlog⟩

/-- The caller that has passed its message on. -/
def afterPost (r : Ref ι) : Caller ι :=
  match r with
  | .block .. => .idle
  | .frame _ => .waiting

omit [DecidableEq ι] in
theorem holds_afterPost (r : Ref ι) : (afterPost r).holds = none := by cases r <;> rfl

omit [DecidableEq ι] in
theorem afterPost_eq_waiting (hframe : ∀ j, r = .frame j → j = i) (hw : afterPost r = .waiting) : r = .frame i := by
  cases r with
  | block => cases hw
  | frame j => rw [hframe j rfl]

/-- The message of a caller is put into the mailbox. -/
theorem Inv.stored (h : Inv s) {mbox : Mbox (Ref ι)} (hi : (s.callers i).holds = some r) (hm : s.heap r = some m)
    (hcounters : mbox.Counters) (hunread : mbox.unread = s.mbox.unread ++ [r]) :
    Inv { s.setCaller i (afterPost r) with mbox := mbox, posted := s.posted ++ [(r, m)] } := by
  have hr : s.Lies r (.caller i) := hi
  have hlies : ∀ x p, ({ s.setCaller i (afterPost r) with mbox := mbox, posted := s.posted ++ [(r, m)] } :
      State α ι).Lies x p ↔ s.Lies x p ∧ ¬ (x = r ∧ p = .caller i) ∨ x = r ∧ p = .queue := by
    intro x p
    cases p with
    | caller j =>
      by_cases hj : j = i
      · subst hj
        have hx : s.Lies x (.caller j) ↔ x = r := by
          rw [State.Lies, hi]
          exact ⟨fun hx => (Option.some.inj hx).symm, fun hx => by rw [hx]⟩
        simp [State.Lies, State.setCaller, holds_afterPost] at hx ⊢
        exact fun hx' => hx.mp hx'
      · simp [State.Lies, State.setCaller, hj]
    | queue => simp [State.Lies, hunread]
    | _ => simp [State.Lies, State.setCaller]
  have hcallers : ∀ j, j ≠ i → ({ s.setCaller i (afterPost r) with mbox := mbox, posted := s.posted ++ [(r, m)] } :
      State α ι).callers j = s.callers j := fun j hj => callers_setCaller_of_ne (s := s) (c := afterPost r) hj
  have hself : ({ s.setCaller i (afterPost r) with mbox := mbox, posted := s.posted ++ [(r, m)] } :
      State α ι).callers i = afterPost r := callers_setCaller s i (afterPost r)
  have hframe : ∀ j, r = .frame j → j = i := fun j hj => h.frames i j (hi.trans (congrArg some hj))
  refine ⟨hcounters, h.custody.move hr hlies fun _ => Iff.rfl, ?_, ?_, ?_, ?_, h.sems, ?_, h.fetches, h.frees, ?_,
    h.counts⟩
  · rw [hunread, List.nodup_append]
    refine ⟨h.nodup, List.nodup_singleton r, ?_⟩
    rintro x hx y hy rfl
    rw [List.mem_singleton] at hy
    subst hy
    have hplace := h.custody.unique x (.caller i) .queue hr hx
    cases hplace
  · refine h.frames_of_lies fun x j hxj => ?_
    obtain ⟨hxj, -⟩ | ⟨-, hp⟩ := (hlies _ _).mp hxj
    · exact hxj
    · cases hp
  · intro j hj
    by_cases hji : j = i
    · subst hji
      rw [hself] at hj
      rw [← afterPost_eq_waiting hframe hj]
      exact Option.isSome_iff_exists.mpr ⟨m, hm⟩
    · rw [hcallers j hji] at hj
      exact h.waits j hj
  · intro j p hp hjp
    obtain ⟨hjp, -⟩ | ⟨rfl, -⟩ := (hlies _ _).mp hjp
    · exact waiting_setCaller (not_waiting_of_holds hi) (h.away j p hp hjp)
    · obtain rfl := hframe j rfl
      exact hself
  · refine h.sends_setCaller fun x t hx => ?_
    cases r <;> cases hx
  · obtain ⟨es, hposted, hes, hlog⟩ := h.log
    refine ⟨es ++ [(r, m)], ?_, ?_, ?_⟩
    · change s.posted ++ [(r, m)] = s.handled ++ (es ++ [(r, m)])
      rw [hposted, List.append_assoc]
    · rw [List.map_append, hes, hunread, ← List.append_assoc]
      rfl
    · intro e he
      rcases List.mem_append.mp he with he | he
      · exact hlog e he
      · rw [List.mem_singleton.mp he]
        exact hm

/-- A section of the mailbox for a caller. -/
theorem Inv.send (h : Inv s) {mbox : Mbox (Ref ι)} {t : Thread (Ref ι)} {o : Outcome (Ref ι)}
    (hi : (s.callers i).holds = some r) (hcounters : mbox.Counters) (hstep : SendStep r s.mbox mbox t o) :
    Inv (s.sent i r (mbox, t, o)) := by
  cases hstep with
  | stored k hunread =>
    have hlie : s.Lies r (.caller i) := hi
    obtain ⟨m, hm⟩ := Option.isSome_iff_exists.mp (h.custody.inUse_of hlie)
    have hsent : s.sent i r (mbox, t, .stored r k) =
        { s.setCaller i (afterPost r) with mbox := mbox, posted := s.posted ++ [(r, m)] } := by
      simp only [State.sent, hm]
      cases r <;> rfl
    rw [hsent]
    exact h.stored hi hm hcounters hunread
  | refused hunread => exact h.keep hi rfl hcounters hunread fun x t hx => nomatch hx
  | waits hunread ht =>
    refine h.keep hi rfl hcounters hunread fun x t' hx => ?_
    cases hx
    exact ht
  | wakes hunread ht =>
    refine h.keep hi rfl hcounters hunread fun x t' hx => ?_
    cases hx
    exact ht

/-- A caller gives its message up. -/
theorem Inv.free (h : Inv s) (hi : (s.callers i).holds = some r) : Inv ((s.setHeap r none).setCaller i .idle) := by
  have hr : s.Lies r (.caller i) := hi
  have hlies : ∀ x p, ((s.setHeap r none).setCaller i .idle).Lies x p ↔ s.Lies x p ∧ ¬ (x = r ∧ p = .caller i) := by
    intro x p
    rw [lies_setCaller]
    change s.Lies x p ∧ p ≠ .caller i ∨ p = .caller i ∧ none = some x ↔ _
    constructor
    · rintro (⟨hp, hne⟩ | ⟨-, hx⟩)
      · exact ⟨hp, fun hxp => hne hxp.2⟩
      · cases hx
    · rintro ⟨hp, hne⟩
      refine .inl ⟨hp, ?_⟩
      rintro rfl
      have hx : (s.callers i).holds = some x := hp
      exact hne ⟨Option.some.inj (hx.symm.trans hi), rfl⟩
  refine ⟨h.counters, h.custody.take hr hlies (isSome_setHeap_none s r), h.nodup, ?_, ?_, ?_, h.sems, ?_, h.fetches,
    h.frees, ?_, h.counts⟩
  · exact h.frames_of_lies fun x j hxj => ((hlies x (.caller j)).mp hxj).1
  · intro j hj
    obtain ⟨hji, hj⟩ := waiting_of_setCaller (by simp) hj
    refine (isSome_setHeap_none s r _).mpr ⟨h.waits j hj, ?_⟩
    rintro rfl
    exact hji (h.frames i j hi)
  · intro j p hp hjp
    exact waiting_setCaller (not_waiting_of_holds hi) (h.away j p hp ((hlies _ _).mp hjp).1)
  · exact h.sends_setCaller (by rintro _ _ ⟨⟩)
  · exact h.log_congr (h.heap_setHeap hr (by simp) (by simp) none)

/-- A caller is told at most once of one message. -/
theorem Inv.not_owed (h : Inv s) {p : Place ι} (hp : s.Lies (.frame i) p) (hne : p ≠ .owed) : ¬ s.owed i = true := by
  intro ho
  have hlie : s.Lies (.frame i) .owed := ⟨i, rfl, ho⟩
  exact hne (h.custody.unique _ _ _ hp hlie)

theorem Inv.not_signalled (h : Inv s) {p : Place ι} (hp : s.Lies (.frame i) p) (hne : p ≠ .signalled) :
    ¬ 0 < s.sem i := by
  intro hs
  have hlie : s.Lies (.frame i) .signalled := ⟨i, rfl, hs⟩
  exact hne (h.custody.unique _ _ _ hp hlie)

/-- A caller comes back from the wait for its message. -/
theorem Inv.wake (h : Inv s) (hi : s.callers i = .waiting) (hsem : 0 < s.sem i) : Inv (s.woken i) := by
  have hr : s.Lies (.frame i) .signalled := ⟨i, rfl, hsem⟩
  have hzero : s.sem i - 1 = 0 := by
    have hle := h.sems i
    omega
  have howed := h.not_owed hr (by simp)
  have hself : (s.woken i).callers i = .idle := Function.update_self ..
  have hcallers : ∀ j, j ≠ i → (s.woken i).callers j = s.callers j := fun j hj => Function.update_of_ne hj ..
  have hlies : ∀ x p, (s.woken i).Lies x p ↔ s.Lies x p ∧ ¬ (x = .frame i ∧ p = .signalled) := by
    intro x p
    cases p with
    | caller j =>
      by_cases hj : j = i
      · subst hj
        simp [State.Lies, hself, hi, Caller.holds]
      · simp [State.Lies, hcallers j hj]
    | signalled =>
      simp only [State.Lies, State.woken, and_true]
      constructor
      · rintro ⟨j, rfl, hj⟩
        by_cases hji : j = i
        · subst hji
          rw [Function.update_self, hzero] at hj
          exact absurd hj (lt_irrefl 0)
        · rw [Function.update_of_ne hji] at hj
          exact ⟨⟨j, rfl, hj⟩, fun hx => hji (Ref.frame.inj hx)⟩
      · rintro ⟨⟨j, rfl, hj⟩, hne⟩
        have hji : j ≠ i := fun hji => hne (congrArg _ hji)
        exact ⟨j, rfl, by rwa [Function.update_of_ne hji]⟩
    | _ => simp [State.Lies, State.woken]
  refine ⟨h.counters, h.custody.take hr hlies (isSome_setHeap_none s _), h.nodup, ?_, ?_, ?_, ?_, ?_, h.fetches,
    h.frees, ?_, ?_⟩
  · exact h.frames_of_lies fun x j hxj => ((hlies x (.caller j)).mp hxj).1
  · intro j hj
    obtain ⟨hji, hj⟩ := waiting_of_setCaller (by simp) hj
    exact (isSome_setHeap_none s _ _).mpr ⟨h.waits j hj, fun hx => hji (Ref.frame.inj hx)⟩
  · intro j p hp hjp
    obtain ⟨hold, hne⟩ := (hlies _ _).mp hjp
    have hji : j ≠ i := by
      rintro rfl
      exact hne ⟨rfl, h.custody.unique _ _ _ hold hr⟩
    exact (hcallers j hji).trans (h.away j p hp hold)
  · intro j
    change Function.update s.sem i (s.sem i - 1) j ≤ 1
    by_cases hji : j = i
    · rw [hji, Function.update_self, hzero]
      exact zero_le_one
    · rw [Function.update_of_ne hji]
      exact h.sems j
  · exact h.sends_setCaller (by rintro _ _ ⟨⟩)
  · exact h.log_congr (h.heap_setHeap hr (by simp) (by simp) none)
  · intro j
    have hj := h.counts j
    by_cases hji : j = i
    · subst hji
      simp only [hsem, or_true, if_true] at hj
      simp [State.woken, hj, howed, hzero]
    · simpa only [State.woken, Function.update_of_ne hji] using hj

/-- A message goes from one place behind the callers to another. -/
theorem Inv.pass (h : Inv s) {src dst : Place ι}
    (hlies : ∀ x p, s'.Lies x p ↔ s.Lies x p ∧ ¬ (x = r ∧ p = src) ∨ x = r ∧ p = dst) (hr : s.Lies r src)
    (hsrc : src.away) (hheap : s'.heap = s.heap) (hcallers : s'.callers = s.callers) :
    (Custody s'.Lies fun r => (s'.heap r).isSome) ∧
      ∀ i p, p.away → s'.Lies (.frame i) p → s'.callers i = .waiting := by
  refine ⟨h.custody.move hr hlies fun x => by rw [hheap], fun i p hp hip => ?_⟩
  rw [hcallers]
  obtain ⟨hip, -⟩ | ⟨rfl, -⟩ := (hlies _ _).mp hip
  · exact h.away i p hp hip
  · exact h.away i src hsrc hr

/-- The thread takes the oldest message. -/
theorem Inv.fetch (h : Inv s) {mbox : Mbox (Ref ι)} {t t' : Thread (Ref ι)} {o : Outcome (Ref ι)}
    (hserver : s.server = .fetching t) (hcounters : mbox.Counters) (hstep : FetchStep s.mbox mbox t' o) :
    Inv (s.fetched (mbox, t', o)) := by
  cases hstep with
  | fetched r k ho hunread =>
    subst ho
    have hr : s.Lies r .queue := by
      rw [State.Lies, hunread]
      exact List.mem_cons_self
    have hnodup : r ∉ mbox.unread ∧ mbox.unread.Nodup := List.nodup_cons.mp (hunread ▸ h.nodup)
    have hlies : ∀ x p, (s.fetched (mbox, t', .fetched r k)).Lies x p ↔
        s.Lies x p ∧ ¬ (x = r ∧ p = .queue) ∨ x = r ∧ p = .handling := by
      intro x p
      cases p with
      | queue =>
        simp only [State.Lies, State.fetched, hunread, List.mem_cons, and_true, reduceCtorEq, and_false, or_false]
        constructor
        · intro hx
          refine ⟨.inr hx, ?_⟩
          rintro rfl
          exact hnodup.1 hx
        · rintro ⟨rfl | hx, hne⟩
          · exact absurd rfl hne
          · exact hx
      | handling => simp [State.Lies, State.fetched, hserver, eq_comm]
      | freeing => simp [State.Lies, State.fetched, hserver]
      | _ => simp [State.Lies, State.fetched]
    obtain ⟨hcustody, haway⟩ := h.pass hlies hr rfl rfl rfl
    refine ⟨hcounters, hcustody, hnodup.2, h.frames, h.waits, haway, h.sems, h.sends, fun t ht => (nomatch ht),
      fun i hi => (nomatch hi), ?_, h.counts⟩
    obtain ⟨es, hposted, hes, hlog⟩ := h.log
    refine ⟨es, hposted, ?_, hlog⟩
    rw [hes, hserver, hunread]
    rfl
  | waits ho hunread ht =>
    have hfetched : s.fetched (mbox, t', o) = { s with mbox := mbox, server := .fetching t' } := by
      cases o with
      | fetched r k => exact absurd rfl (ho r k)
      | _ => rfl
    rw [hfetched]
    have hlies : ∀ x p, ({ s with mbox := mbox, server := .fetching t' } : State α ι).Lies x p ↔ s.Lies x p := by
      intro x p
      cases p <;> simp [State.Lies, hunread, hserver]
    refine ⟨hcounters, h.custody.congr hlies fun _ => Iff.rfl, hunread ▸ h.nodup, h.frames, h.waits,
      fun i p hp hip => h.away i p hp ((hlies _ _).mp hip), h.sems, h.sends, ?_, fun i hi => (nomatch hi), ?_,
      h.counts⟩
    · intro t'' ht''
      cases ht''
      exact ht
    · obtain ⟨es, hposted, hes, hlog⟩ := h.log
      refine ⟨es, hposted, ?_, hlog⟩
      rw [hes, hserver, hunread]
      rfl

/-- The message that is handled is the oldest one on its way. -/
theorem Inv.log_handle (h : Inv s) (hserver : s.server = .handling r) (hm : s.heap r = some m) :
    ∃ es, s.posted = (s.handled ++ [(r, m)]) ++ es ∧ es.map Prod.fst = s.mbox.unread ∧
      ∀ e ∈ es, s.heap e.1 = some e.2 := by
  obtain ⟨es, hposted, hes, hlog⟩ := h.log
  rw [hserver] at hes
  cases es with
  | nil => cases hes
  | cons e es =>
    obtain ⟨he, hes⟩ := List.cons.inj hes
    have hheap : s.heap e.1 = some e.2 := hlog e List.mem_cons_self
    have heq : e = (r, m) := by
      refine Prod.ext he ?_
      rw [show e.1 = r from he, hm] at hheap
      exact (Option.some.inj hheap).symm
    refine ⟨es, ?_, hes, fun e' he' => hlog e' (List.mem_cons_of_mem _ he')⟩
    rw [hposted, heq, List.append_assoc]
    rfl

/-- The thread does what a message asks for. -/
theorem Inv.handle (h : Inv s) (hserver : s.server = .handling r) (hm : s.heap r = some m) :
    Inv (s.handle r m) := by
  have hr : s.Lies r .handling := hserver
  obtain ⟨es, hposted, hes, hlog⟩ := h.log_handle hserver hm
  cases r with
  | block pool n =>
    have hlies : ∀ x p, (s.handle (.block pool n) m).Lies x p ↔
        s.Lies x p ∧ ¬ (x = .block pool n ∧ p = .handling) ∨ x = .block pool n ∧ p = .freeing := by
      intro x p
      cases p with
      | handling => simp [State.Lies, State.handle, hserver, eq_comm]
      | freeing => simp [State.Lies, State.handle, hserver, eq_comm]
      | _ => simp [State.Lies, State.handle]
    obtain ⟨hcustody, haway⟩ := h.pass hlies hr rfl rfl rfl
    refine ⟨h.counters, hcustody, h.nodup, h.frames, h.waits, haway, h.sems, h.sends, fun t ht => (nomatch ht),
      fun i hi => (nomatch hi), ⟨es, hposted, hes, hlog⟩, ?_⟩
    intro i
    refine Eq.trans ?_ (h.counts i)
    simp [State.handle]
  | frame i =>
    have howed := h.not_owed hr (by simp)
    have hsem := h.not_signalled hr (by simp)
    have hlies : ∀ x p, (s.handle (.frame i) m).Lies x p ↔
        s.Lies x p ∧ ¬ (x = .frame i ∧ p = .handling) ∨ x = .frame i ∧ p = .owed := by
      intro x p
      cases p with
      | handling => simp [State.Lies, State.handle, hserver, eq_comm]
      | freeing => simp [State.Lies, State.handle, hserver]
      | owed =>
        simp only [State.Lies, State.handle, reduceCtorEq, and_false, not_false_eq_true, and_true]
        constructor
        · rintro ⟨j, rfl, hj⟩
          by_cases hji : j = i
          · exact .inr (congrArg _ hji)
          · exact .inl ⟨j, rfl, by rwa [Function.update_of_ne hji] at hj⟩
        · rintro (⟨j, rfl, hj⟩ | rfl)
          · refine ⟨j, rfl, ?_⟩
            by_cases hji : j = i
            · rw [hji, Function.update_self]
            · rwa [Function.update_of_ne hji]
          · exact ⟨i, rfl, Function.update_self ..⟩
      | _ => simp [State.Lies, State.handle]
    obtain ⟨hcustody, haway⟩ := h.pass hlies hr rfl rfl rfl
    refine ⟨h.counters, hcustody, h.nodup, h.frames, h.waits, haway, h.sems, h.sends, ?_, fun j hj => (nomatch hj),
      ⟨es, hposted, hes, hlog⟩, ?_⟩
    · intro t ht
      cases ht
      exact .inl rfl
    · intro j
      have hj := h.counts j
      by_cases hji : j = i
      · subst hji
        rw [if_neg (not_or.mpr ⟨howed, hsem⟩)] at hj
        simp [State.handle, hj]
      · have hne : ¬ i = j := fun hij => hji hij.symm
        simpa [State.handle, Function.update_of_ne hji, hne] using hj

/-- The thread frees the message that it has handled. -/
theorem Inv.release (h : Inv s) (hserver : s.server = .freeing r) :
    Inv { s.setHeap r none with server := .fetching .idle } := by
  have hr : s.Lies r .freeing := hserver
  have hlies : ∀ x p, ({ s.setHeap r none with server := .fetching .idle } : State α ι).Lies x p ↔
      s.Lies x p ∧ ¬ (x = r ∧ p = .freeing) := by
    intro x p
    cases p with
    | freeing => simp [State.Lies, hserver, eq_comm]
    | handling => simp [State.Lies, hserver]
    | _ => simp [State.Lies, State.setHeap]
  refine ⟨h.counters, h.custody.take hr hlies (isSome_setHeap_none s r), h.nodup, h.frames, ?_, ?_, h.sems, h.sends,
    ?_, fun i hi => (nomatch hi), ?_, h.counts⟩
  · intro i hi
    refine (isSome_setHeap_none s r _).mpr ⟨h.waits i hi, ?_⟩
    rintro rfl
    exact h.frees i hserver
  · intro i p hp hip
    exact h.away i p hp ((hlies _ _).mp hip).1
  · intro t ht
    cases ht
    exact .inl rfl
  · have hlog := h.log_congr (h.heap_setHeap hr (by simp) (by simp) none)
    rw [hserver] at hlog
    exact hlog

/-- A caller is told that its message was handled. -/
theorem Inv.signal (h : Inv s) (howed : s.owed i = true) : Inv (s.told i) := by
  have hr : s.Lies (.frame i) .owed := ⟨i, rfl, howed⟩
  have hlies : ∀ x p, (s.told i).Lies x p ↔
      s.Lies x p ∧ ¬ (x = .frame i ∧ p = .owed) ∨ x = .frame i ∧ p = .signalled := by
    intro x p
    cases p with
    | owed =>
      simp only [State.Lies, State.told, and_true, reduceCtorEq, and_false, or_false]
      constructor
      · rintro ⟨j, rfl, hj⟩
        have hji : j ≠ i := by
          rintro rfl
          rw [Function.update_self] at hj
          cases hj
        rw [Function.update_of_ne hji] at hj
        exact ⟨⟨j, rfl, hj⟩, fun hx => hji (Ref.frame.inj hx)⟩
      · rintro ⟨⟨j, rfl, hj⟩, hne⟩
        have hji : j ≠ i := fun hji => hne (congrArg _ hji)
        exact ⟨j, rfl, by rwa [Function.update_of_ne hji]⟩
    | signalled =>
      simp only [State.Lies, State.told, reduceCtorEq, and_false, not_false_eq_true, and_true, sysSemSignal_eq]
      constructor
      · rintro ⟨j, rfl, hj⟩
        by_cases hji : j = i
        · exact .inr (congrArg _ hji)
        · exact .inl ⟨j, rfl, by rwa [Function.update_of_ne hji] at hj⟩
      · rintro (⟨j, rfl, hj⟩ | rfl)
        · refine ⟨j, rfl, ?_⟩
          by_cases hji : j = i
          · rw [hji, Function.update_self]
            exact zero_lt_one
          · rwa [Function.update_of_ne hji]
        · refine ⟨i, rfl, ?_⟩
          rw [Function.update_self]
          exact zero_lt_one
    | _ => simp [State.Lies, State.told]
  obtain ⟨hcustody, haway⟩ := h.pass hlies hr rfl rfl rfl
  refine ⟨h.counters, hcustody, h.nodup, h.frames, h.waits, haway, ?_, h.sends, h.fetches, h.frees, h.log, ?_⟩
  · intro j
    change Function.update s.sem i (sysSemSignal (s.sem i)) j ≤ 1
    by_cases hji : j = i
    · rw [hji, Function.update_self, sysSemSignal_eq]
    · rw [Function.update_of_ne hji]
      exact h.sems j
  · intro j
    have hj := h.counts j
    by_cases hji : j = i
    · subst hji
      simpa [State.told, howed] using hj
    · simpa only [State.told, Function.update_of_ne hji] using hj

theorem Inv.start (h : (tcpip α ι).start s) : Inv s := by
  obtain ⟨⟨msgs, hmbox⟩, hheap, hcallers, hserver, hsem, howed, hposted, hhandled, hreturned⟩ := h
  have hunread : s.mbox.unread = [] := by
    rw [hmbox]
    rfl
  have hnowhere : ∀ r p, ¬ s.Lies r p := by
    intro r p
    cases p <;> simp [State.Lies, hcallers, Caller.holds, hunread, hserver, howed, hsem]
  refine ⟨hmbox ▸ Mbox.Counters.new msgs, ⟨?_, ?_⟩, hunread ▸ List.nodup_nil, ?_, ?_, ?_, ?_, ?_, ?_, ?_,
    ⟨[], ?_, ?_, ?_⟩, ?_⟩
  · intro r
    rw [hheap]
    exact iff_of_false Bool.false_ne_true fun ⟨p, hp⟩ => hnowhere r p hp
  · intro r p q hp
    exact absurd hp (hnowhere r p)
  · intro i j hij
    exact absurd hij (hnowhere (.frame j) (.caller i))
  · intro i hi
    rw [hcallers] at hi
    cases hi
  · intro i p _ hip
    exact absurd hip (hnowhere (.frame i) p)
  · intro i
    rw [hsem]
    exact zero_le_one
  · intro i r t hi
    rw [hcallers] at hi
    cases hi
  · intro t ht
    rw [hserver] at ht
    cases ht
    exact .inl rfl
  · intro i
    rw [hserver]
    exact fun hi => nomatch hi
  · rw [hposted, hhandled]
    rfl
  · rw [hunread, hserver]
    rfl
  · intro e he
    cases he
  · intro i
    simp [hhandled, hreturned, howed, hsem]

theorem Inv.step {e : Event α ι} (h : Inv s) (hs : Event.exec s e = some s') : Inv s' := by
  cases e with
  | call i rq n =>
    rw [Event.exec] at hs
    split at hs
    · next hi _ =>
      cases hs
      exact h.call hi (h.frame_free hi) fun j hj => (Ref.frame.inj hj).symm
    · next pool hi _ =>
      split at hs
      · next hfree =>
        cases hs
        exact h.call hi hfree.2 fun j hj => nomatch hj
      · cases hs
    · cases hs
  | send i =>
    rw [Event.exec] at hs
    split at hs
    · next r blocks hi =>
      obtain ⟨⟨mbox, t, o⟩, hthread, rfl⟩ := Option.map_eq_some_iff.mp hs
      obtain ⟨hcounters, hstep⟩ := send_step (r := r) h.counters (.inl ⟨rfl, by cases blocks <;> simp⟩) hthread
      exact h.send (by rw [hi]; rfl) hcounters hstep
    · next r t hi =>
      obtain ⟨⟨mbox, t', o⟩, hthread, rfl⟩ := Option.map_eq_some_iff.mp hs
      obtain ⟨hcounters, hstep⟩ := send_step h.counters (.inr ⟨rfl, h.sends i r t hi⟩) hthread
      exact h.send (by rw [hi]; rfl) hcounters hstep
    · cases hs
  | free i =>
    rw [Event.exec] at hs
    split at hs
    · next r hi =>
      obtain ⟨m, -, rfl⟩ := Option.map_eq_some_iff.mp hs
      exact h.free (by rw [hi]; rfl)
    · cases hs
  | wake i =>
    rw [Event.exec] at hs
    split at hs
    · next hi =>
      split at hs
      · next hsem =>
        cases hs
        exact h.wake hi hsem
      · cases hs
    · cases hs
  | fetch a =>
    rw [Event.exec] at hs
    split at hs
    · next t hserver =>
      split at hs
      · next ha =>
        obtain ⟨⟨mbox, t', o⟩, hthread, rfl⟩ := Option.map_eq_some_iff.mp hs
        obtain ⟨hcounters, hstep⟩ := fetch_step h.counters (h.fetches t hserver) ha hthread
        exact h.fetch hserver hcounters hstep
      · cases hs
    · cases hs
  | handle =>
    rw [Event.exec] at hs
    split at hs
    · next r hserver =>
      obtain ⟨m, hm, rfl⟩ := Option.map_eq_some_iff.mp hs
      exact h.handle hserver hm
    · cases hs
  | release =>
    rw [Event.exec] at hs
    split at hs
    · next r hserver =>
      obtain ⟨m, -, rfl⟩ := Option.map_eq_some_iff.mp hs
      exact h.release hserver
    · cases hs
  | signal i =>
    rw [Event.exec] at hs
    split at hs
    · next howed =>
      cases hs
      exact h.signal howed
    · cases hs

theorem inv_of_reachable (h : (tcpip α ι).Reachable s) : Inv s :=
  h.invariant (fun _ => Inv.start) fun _ _ _ h _ hs => h.step hs

/-- The message of a caller that waits is past the caller. -/
theorem Inv.waits_for (h : Inv s) (hi : s.callers i = .waiting) : ∃ p, p.away ∧ s.Lies (.frame i) p := by
  obtain ⟨p, hp⟩ := (h.custody.inUse_iff (.frame i)).mp (h.waits i hi)
  refine ⟨p, ?_, hp⟩
  cases p with
  | caller j =>
    have hj : (s.callers j).holds = some (.frame i) := hp
    obtain rfl := h.frames j i hj
    rw [hi] at hj
    cases hj
  | _ => rfl

theorem reachable_of_foldlM (es : List (Event α ι)) (h : (tcpip α ι).Reachable s)
    (hs : es.foldlM Event.exec s = some s') : (tcpip α ι).Reachable s' := by
  induction es generalizing s with
  | nil =>
    cases hs
    exact h
  | cons e es ih =>
    obtain ⟨t, ht, hrest⟩ := Option.bind_eq_some_iff.mp hs
    exact ih (h.step ht) hrest

/-- The thread with nothing to do, and two callers. -/
def quiet : State ℕ Bool where
  mbox := sysMboxNew fun _ => .frame true
  heap _ := none
  callers _ := .idle
  server := .fetching .idle
  sem _ := 0
  owed _ := false
  posted := []
  handled := []
  returned _ := 0

theorem quiet_reachable : (tcpip ℕ Bool).Reachable quiet :=
  .of_start ⟨⟨_, rfl⟩, fun _ => rfl, fun _ => rfl, rfl, fun _ => rfl, fun _ => rfl, rfl, rfl, fun _ => rfl⟩

def twoRequests : List (Event ℕ Bool) :=
  [.call true (.tcpipApimsg 5) 0, .call false (.tcpipTimeout 6) 3, .send true, .send false, .fetch (.fetch 0), .handle]

/-- Where all stands still, everything was handled, and the pools are full again. -/
theorem all_handled (h : (tcpip α ι).Reachable s) (hcallers : ∀ i, s.callers i = .idle) (hunread : s.mbox.unread = [])
    {t : Thread (Ref ι)} (hserver : s.server = .fetching t) : s.posted = s.handled ∧ ∀ r, s.heap r = none := by
  have hinv := inv_of_reachable h
  constructor
  · obtain ⟨es, hposted, hes, -⟩ := hinv.log
    rw [hserver, hunread] at hes
    rw [hposted, List.map_eq_nil_iff.mp hes, List.append_nil]
  · intro r
    by_contra hne
    obtain ⟨p, hp⟩ := (hinv.custody.inUse_iff r).mp (Option.isSome_iff_ne_none.mpr hne)
    have hframe : ∀ i, r = .frame i → p.away → False := by
      rintro i rfl haway
      have hi := hinv.away i p haway hp
      rw [hcallers] at hi
      cases hi
    cases p with
    | caller i =>
      rw [State.Lies, hcallers] at hp
      cases hp
    | queue =>
      rw [State.Lies, hunread] at hp
      cases hp
    | handling | freeing =>
      rw [State.Lies, hserver] at hp
      cases hp
    | owed | signalled =>
      obtain ⟨i, hi, -⟩ := hp
      exact hframe i hi rfl

end steps

end QuietLwip.Tcpip
