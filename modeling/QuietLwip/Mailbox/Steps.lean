import QuietLwip.Foundation.Transition
import QuietLwip.Foundation.Lock
import QuietLwip.Mailbox.Mbox

/-!
# The mailbox, statement by statement

Any number of posters and one fetching thread, each at a program point of
`sys_mbox_post`/`sys_mbox_trypost` or of `sys_arch_mbox_fetch`/`sys_arch_mbox_tryfetch`.
Every operation on a semaphore and every update of the mailbox is a step of its own.
-/

namespace QuietLwip.Mailbox

open QuietLwip.Transition QuietLwip.Lock

variable {μ ι : Type}

/-- The next statement of a poster. -/
inductive PosterPc (μ : Type) where
  | idle
  -- `sys_arch_sem_wait(&mbox->mutex, 0)`
  | lock (msg : μ) (trypost : Bool)
  -- the comparison of `last + 1` with `first + SYS_MBOX_SIZE`
  | check (msg : μ) (trypost : Bool)
  -- `sys_sem_signal(&mbox->mutex)`, then `ERR_MEM`
  | reject
  -- `mbox->wait_send++`
  | enterWait (msg : μ)
  -- `sys_sem_signal(&mbox->mutex)` in the loop
  | unlockWait (msg : μ)
  -- `sys_arch_sem_wait(&mbox->not_full, 0)`
  | waitNotFull (msg : μ)
  -- `sys_arch_sem_wait(&mbox->mutex, 0)` in the loop
  | relock (msg : μ)
  -- `mbox->wait_send--`
  | leaveWait (msg : μ)
  -- the store into `msgs`, and `first = (last == first)`
  | store (msg : μ)
  -- `mbox->last++`
  | bumpLast (first : Bool)
  -- `if (first) sys_sem_signal(&mbox->not_empty)`
  | signal (first : Bool)
  -- `sys_sem_signal(&mbox->mutex)`
  | unlock

/-- Which of the two fetches is running. -/
inductive FetchCall where
  | fetch (timeout : ℕ)
  | tryfetch

/-- The next statement of the fetching thread. -/
inductive FetcherPc (μ : Type) where
  | idle
  -- `sys_arch_sem_wait(&mbox->mutex, 0)`
  | lock (call : FetchCall)
  -- the comparison of `first` with `last`
  | check (call : FetchCall)
  -- `sys_sem_signal(&mbox->mutex)`, then `SYS_MBOX_EMPTY`
  | giveUp
  -- `sys_sem_signal(&mbox->mutex)` in the loop
  | unlockWait (timeout : ℕ)
  -- `sys_arch_sem_wait(&mbox->not_empty, timeout)`
  | waitNotEmpty (timeout : ℕ)
  -- `sys_arch_sem_wait(&mbox->mutex, 0)` in the loop
  | relock (timeout : ℕ)
  -- the read from `msgs`
  | take
  -- `mbox->first++`
  | bumpFirst (msg : μ)
  -- `if (mbox->wait_send) sys_sem_signal(&mbox->not_full)`
  | signal (msg : μ)
  -- `sys_sem_signal(&mbox->mutex)`
  | unlock (msg : μ)

/-- The end of `sys_arch_sem_wait` on the mutex. -/
def Mbox.lock (mbox : Mbox μ) : Mbox μ := { mbox with mutex := mbox.mutex - 1 }

/-- `sys_sem_signal(&mbox->mutex)` -/
def Mbox.unlock (mbox : Mbox μ) : Mbox μ := { mbox with mutex := sysSemSignal mbox.mutex }

/-- One statement of a poster in a call. A wait for a semaphore is enabled while the
count is positive. -/
inductive PosterStep (mbox : Mbox μ) : PosterPc μ → Mbox μ → PosterPc μ → Prop
  | lock {msg : μ} {trypost : Bool} (h : 0 < mbox.mutex) :
    PosterStep mbox (.lock msg trypost) mbox.lock (.check msg trypost)
  | room {msg : μ} {trypost : Bool} (h : ¬ mbox.full) :
    PosterStep mbox (.check msg trypost) mbox (.store msg)
  | full {msg : μ} (h : mbox.full) : PosterStep mbox (.check msg false) mbox (.enterWait msg)
  | fullTry {msg : μ} (h : mbox.full) : PosterStep mbox (.check msg true) mbox .reject
  | reject : PosterStep mbox .reject mbox.unlock .idle
  | enterWait {msg : μ} :
    PosterStep mbox (.enterWait msg) { mbox with waitSend := mbox.waitSend + 1 } (.unlockWait msg)
  | unlockWait {msg : μ} : PosterStep mbox (.unlockWait msg) mbox.unlock (.waitNotFull msg)
  | waitNotFull {msg : μ} (h : 0 < mbox.notFull) :
    PosterStep mbox (.waitNotFull msg) { mbox with notFull := mbox.notFull - 1 } (.relock msg)
  | relock {msg : μ} (h : 0 < mbox.mutex) :
    PosterStep mbox (.relock msg) mbox.lock (.leaveWait msg)
  | leaveWait {msg : μ} :
    PosterStep mbox (.leaveWait msg) { mbox with waitSend := mbox.waitSend - 1 }
      (.check msg false)
  | store {msg : μ} :
    PosterStep mbox (.store msg) (mbox.store msg) (.bumpLast (decide (mbox.last = mbox.first)))
  | bumpLast {first : Bool} : PosterStep mbox (.bumpLast first) mbox.bumpLast (.signal first)
  | signal {first : Bool} :
    PosterStep mbox (.signal first) (mbox.signalNotEmpty first) .unlock
  | unlock : PosterStep mbox .unlock mbox.unlock .idle

/-- One statement of the fetching thread in a call. -/
inductive FetcherStep (mbox : Mbox μ) : FetcherPc μ → Mbox μ → FetcherPc μ → Prop
  | lock {call : FetchCall} (h : 0 < mbox.mutex) :
    FetcherStep mbox (.lock call) mbox.lock (.check call)
  | some {call : FetchCall} (h : mbox.first ≠ mbox.last) :
    FetcherStep mbox (.check call) mbox .take
  | empty {timeout : ℕ} (h : mbox.first = mbox.last) :
    FetcherStep mbox (.check (.fetch timeout)) mbox (.unlockWait timeout)
  | emptyTry (h : mbox.first = mbox.last) : FetcherStep mbox (.check .tryfetch) mbox .giveUp
  | giveUp : FetcherStep mbox .giveUp mbox.unlock .idle
  | unlockWait {timeout : ℕ} :
    FetcherStep mbox (.unlockWait timeout) mbox.unlock (.waitNotEmpty timeout)
  | waitNotEmpty {timeout : ℕ} (h : 0 < mbox.notEmpty) :
    FetcherStep mbox (.waitNotEmpty timeout) { mbox with notEmpty := mbox.notEmpty - 1 }
      (.relock timeout)
  -- `sys_arch_sem_wait` returns `SYS_ARCH_TIMEOUT`, and so does the fetch
  | timeOut {timeout : ℕ} (h : timeout ≠ 0) : FetcherStep mbox (.waitNotEmpty timeout) mbox .idle
  | relock {timeout : ℕ} (h : 0 < mbox.mutex) :
    FetcherStep mbox (.relock timeout) mbox.lock (.check (.fetch timeout))
  | take : FetcherStep mbox .take mbox (.bumpFirst (mbox.msgs mbox.takeIndex))
  | bumpFirst {msg : μ} : FetcherStep mbox (.bumpFirst msg) mbox.bumpFirst (.signal msg)
  | signal {msg : μ} : FetcherStep mbox (.signal msg) mbox.signalNotFull (.unlock msg)
  | unlock {msg : μ} : FetcherStep mbox (.unlock msg) mbox.unlock .idle

/-- The mailbox with its posters and the thread that fetches. -/
structure Threads (μ ι : Type) where
  mbox : Mbox μ
  posters : ι → PosterPc μ
  fetcher : FetcherPc μ

/-- Who moves: a thread begins a call or executes the next statement of its call. -/
inductive Move (μ ι : Type) where
  | post (i : ι) (msg : μ) (trypost : Bool)
  | poster (i : ι)
  | fetch (call : FetchCall)
  | fetcher

/-- Any interleaving of the statements, from `sys_mbox_new` on. -/
def stepSystem (μ ι : Type) [DecidableEq ι] : System (Threads μ ι) (Move μ ι) where
  start s := (∃ msgs, s.mbox = sysMboxNew msgs) ∧ (∀ i, s.posters i = .idle) ∧ s.fetcher = .idle
  step s a t :=
    match a with
    | .post i msg trypost =>
      s.posters i = .idle ∧
        t = { s with posters := Function.update s.posters i (.lock msg trypost) }
    | .poster i => ∃ mbox pc, PosterStep s.mbox (s.posters i) mbox pc ∧
        t = ⟨mbox, Function.update s.posters i pc, s.fetcher⟩
    | .fetch call => s.fetcher = .idle ∧ t = { s with fetcher := .lock call }
    | .fetcher => ∃ mbox pc, FetcherStep s.mbox s.fetcher mbox pc ∧ t = ⟨mbox, s.posters, pc⟩

/-! ### Regions of the program -/

/-- The poster is between acquiring and releasing the mutex. -/
def PosterPc.holds : PosterPc μ → Prop
  | check .. | reject | enterWait _ | unlockWait _ | leaveWait _ | store _ | bumpLast _
  | signal _ | unlock => True
  | _ => False

/-- The poster is counted in `wait_send`. -/
def PosterPc.counted : PosterPc μ → Prop
  | unlockWait _ | waitNotFull _ | relock _ | leaveWait _ => True
  | _ => False

instance (pc : PosterPc μ) : Decidable pc.counted := by
  cases pc <;> simp only [PosterPc.counted] <;> infer_instance

/-- The poster has found the mailbox full and waits for `not_full`, or is about to. -/
def PosterPc.waits : PosterPc μ → Prop
  | unlockWait _ | waitNotFull _ => True
  | _ => False

/-- The poster carries a message and is past the semaphores: it has taken the token of
`not_full`, or holds the mutex and has not yet stored its message. -/
def PosterPc.coming : PosterPc μ → Prop
  | relock _ | leaveWait _ | check .. | store _ | bumpLast _ => True
  | _ => False

/-- The fetching thread is between acquiring and releasing the mutex. -/
def FetcherPc.holds : FetcherPc μ → Prop
  | check _ | giveUp | unlockWait _ | take | bumpFirst _ | signal _ | unlock _ => True
  | _ => False

/-- The fetching thread has found the mailbox empty and waits for `not_empty`, or is
about to. -/
def FetcherPc.waits : FetcherPc μ → Prop
  | unlockWait _ | waitNotEmpty _ => True
  | _ => False

/-- The fetching thread is between `first++` and its signal. -/
def FetcherPc.signals : FetcherPc μ → Prop
  | signal _ => True
  | _ => False

/-- The poster is between `last++` and its signal. -/
def PosterPc.signals : PosterPc μ → Prop
  | signal _ => True
  | _ => False

/-- The poster waits for a semaphore whose count is 0. -/
def PosterPc.Blocked (mbox : Mbox μ) : PosterPc μ → Prop
  | lock .. | relock _ => mbox.mutex = 0
  | waitNotFull _ => mbox.notFull = 0
  | _ => False

/-- The fetching thread waits for a semaphore whose count is 0. -/
def FetcherPc.Blocked (mbox : Mbox μ) : FetcherPc μ → Prop
  | lock _ | relock _ => mbox.mutex = 0
  | waitNotEmpty _ => mbox.notEmpty = 0
  | _ => False

/-- The fetching thread is blocked, and every poster in a call is. -/
def Threads.Stuck (s : Threads μ ι) : Prop :=
  s.fetcher.Blocked s.mbox ∧ ∀ i, s.posters i = .idle ∨ (s.posters i).Blocked s.mbox

end QuietLwip.Mailbox
