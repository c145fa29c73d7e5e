import QuietLwip.Foundation.Transition
import QuietLwip.Mailbox.Mbox

/-!
# Critical sections of the mailbox

Any number of threads run `sys_mbox_post`, `sys_mbox_trypost`,
`sys_arch_mbox_fetch` and `sys_arch_mbox_tryfetch`; what happens between acquiring
and releasing `mbox->mutex` is one step. A thread that waits for a semaphore does so
between two sections, and so `mutex` itself, free between any two steps, is not touched.
-/

namespace QuietLwip.Mailbox

open QuietLwip.Word QuietLwip.Transition

variable {μ ι : Type}

/-- Where a thread stands between two sections. -/
inductive Thread (μ : Type) where
  | idle
  -- in `sys_mbox_post`, before `sys_arch_sem_wait(&mbox->not_full, 0)`
  | waitNotFull (msg : μ)
  -- in `sys_mbox_post`, before the mutex is acquired again
  | relockPost (msg : μ)
  -- in `sys_arch_mbox_fetch`, before `sys_arch_sem_wait(&mbox->not_empty, ..)`
  | waitNotEmpty (timeout : ℕ)
  -- in `sys_arch_mbox_fetch`, before the mutex is acquired again
  | relockFetch (timeout : ℕ)
  deriving DecidableEq

/-- What a thread does next. -/
inductive Action (μ : Type) where
  | post (msg : μ)
  | trypost (msg : μ)
  | fetch (timeout : ℕ)
  | tryfetch
  -- go on where the thread stands
  | resume
  -- `sys_arch_sem_wait` returns `SYS_ARCH_TIMEOUT`
  | timeOut

/-- What came of it, with the index at which `msgs` was accessed. -/
inductive Outcome (μ : Type) where
  | stored (msg : μ) (index : ℤ)
  | refused (msg : μ)
  | fetched (msg : μ) (index : ℤ)
  | empty
  | waits
  | wakes
  | timedOut
  deriving DecidableEq

namespace Outcome

/-- The message the step posted, if any. -/
def posts : Outcome μ → List μ
  | stored msg _ => [msg]
  | _ => []

/-- The message the step fetched, if any. -/
def fetches : Outcome μ → List μ
  | fetched msg _ => [msg]
  | _ => []

/-- The index at which the step accessed `msgs`, if it did. -/
def accesses : Outcome μ → List ℤ
  | stored _ index => [index]
  | fetched _ index => [index]
  | _ => []

end Outcome

namespace Mbox

/-- From the store to the end of the section of `sys_mbox_post` and `sys_mbox_trypost`. -/
def put (mbox : Mbox μ) (msg : μ) : Mbox μ :=
  let first := decide (mbox.last = mbox.first)
  ((mbox.store msg).bumpLast).signalNotEmpty first

/-- From the read to the end of the section of the two fetches. -/
def take (mbox : Mbox μ) : Mbox μ × μ :=
  (mbox.bumpFirst.signalNotFull, mbox.msgs mbox.takeIndex)

end Mbox

/-- `sys_mbox_trypost` -/
def sysMboxTrypost (mbox : Mbox μ) (msg : μ) : Mbox μ × ℤ :=
  if mbox.full then (mbox, ERR_MEM) else (mbox.put msg, ERR_OK)

theorem sysMboxTrypost_full {mbox : Mbox μ} (h : mbox.full) (msg : μ) :
    sysMboxTrypost mbox msg = (mbox, ERR_MEM) := if_pos h

theorem sysMboxTrypost_room {mbox : Mbox μ} (h : ¬ mbox.full) (msg : μ) :
    sysMboxTrypost mbox msg = (mbox.put msg, ERR_OK) := if_neg h

/-- A section of `sys_mbox_post`, from the loop condition on. -/
def sysMboxPost (mbox : Mbox μ) (msg : μ) : Mbox μ × Thread μ × Outcome μ :=
  if mbox.full then
    ({ mbox with waitSend := mbox.waitSend + 1 }, .waitNotFull msg, .waits)
  else (mbox.put msg, .idle, .stored msg mbox.putIndex)

/-- `sys_arch_mbox_tryfetch`, `none` for `SYS_MBOX_EMPTY`. -/
def sysArchMboxTryfetch (mbox : Mbox μ) : Mbox μ × Option μ :=
  if mbox.first = mbox.last then (mbox, none)
  else (mbox.take.1, some mbox.take.2)

/-- A section of `sys_arch_mbox_fetch`, from the loop condition on. -/
def sysArchMboxFetch (mbox : Mbox μ) (timeout : ℕ) : Mbox μ × Thread μ × Outcome μ :=
  if mbox.first = mbox.last then (mbox, .waitNotEmpty timeout, .empty)
  else (mbox.take.1, .idle, .fetched mbox.take.2 mbox.takeIndex)

/-- The step of a thread, `none` where it is not enabled. -/
def threadStep (mbox : Mbox μ) : Thread μ → Action μ → Option (Mbox μ × Thread μ × Outcome μ)
  | .idle, .post msg => some (sysMboxPost mbox msg)
  | .idle, .trypost msg =>
    let (mbox', err) := sysMboxTrypost mbox msg
    some (mbox', .idle, if err = ERR_OK then .stored msg mbox.putIndex else .refused msg)
  | .idle, .fetch timeout => some (sysArchMboxFetch mbox timeout)
  | .idle, .tryfetch =>
    let (mbox', msg) := sysArchMboxTryfetch mbox
    some (mbox', .idle, msg.elim .empty fun msg => .fetched msg mbox.takeIndex)
  | .waitNotFull msg, .resume =>
    if 0 < mbox.notFull then
      some ({ mbox with notFull := mbox.notFull - 1 }, .relockPost msg, .wakes)
    else none
  | .relockPost msg, .resume =>
    some (sysMboxPost { mbox with waitSend := mbox.waitSend - 1 } msg)
  | .waitNotEmpty timeout, .resume =>
    if 0 < mbox.notEmpty then
      some ({ mbox with notEmpty := mbox.notEmpty - 1 }, .relockFetch timeout, .wakes)
    else none
  | .waitNotEmpty timeout, .timeOut =>
    if timeout ≠ 0 then some (mbox, .idle, .timedOut) else none
  | .relockFetch timeout, .resume => some (sysArchMboxFetch mbox timeout)
  | _, _ => none

/-- The mailbox with its threads. -/
structure Shared (μ ι : Type) where
  mbox : Mbox μ
  threads : ι → Thread μ

/-- Any interleaving of sections of threads `ι`, from `sys_mbox_new` on. The label of
a step names the thread, what it did and what came of it. -/
def sectionSystem (μ ι : Type) [DecidableEq ι] :
    System (Shared μ ι) (ι × Action μ × Outcome μ) where
  start s := (∃ msgs, s.mbox = sysMboxNew msgs) ∧ ∀ i, s.threads i = .idle
  step s a t := ∃ mbox thread,
    threadStep s.mbox (s.threads a.1) a.2.1 = some (mbox, thread, a.2.2) ∧
    t = ⟨mbox, Function.update s.threads a.1 thread⟩

/-! ### The history -/

/-- The messages stored, in order. -/
def posted (as : List (ι × Action μ × Outcome μ)) : List μ := as.flatMap fun a => a.2.2.posts

/-- The messages fetched, in order. -/
def fetched (as : List (ι × Action μ × Outcome μ)) : List μ := as.flatMap fun a => a.2.2.fetches

/-- The indices at which the array was accessed. -/
def accesses (as : List (ι × Action μ × Outcome μ)) : List ℤ := as.flatMap fun a => a.2.2.accesses

theorem posted_snoc (as : List (ι × Action μ × Outcome μ)) (a : ι × Action μ × Outcome μ) :
    posted (as ++ [a]) = posted as ++ a.2.2.posts := by simp [posted]

theorem fetched_snoc (as : List (ι × Action μ × Outcome μ)) (a : ι × Action μ × Outcome μ) :
    fetched (as ++ [a]) = fetched as ++ a.2.2.fetches := by simp [fetched]

theorem accesses_snoc (as : List (ι × Action μ × Outcome μ)) (a : ι × Action μ × Outcome μ) :
    accesses (as ++ [a]) = accesses as ++ a.2.2.accesses := by simp [accesses]

/-! ### One section -/

/-- What a section does to the queue: what it posts goes to the end, what it fetches
comes from the front, and it accesses the array inside its bounds. -/
structure QueueStep (mbox mbox' : Mbox μ) (o : Outcome μ) : Prop where
  counters : mbox'.Counters
  queue : mbox.unread ++ o.posts = o.fetches ++ mbox'.unread
  inBounds : ∀ index ∈ o.accesses, 0 ≤ index ∧ index < SYS_MBOX_SIZE

/-- A step that leaves counters and array alone. -/
theorem QueueStep.idle {mbox mbox' : Mbox μ} {o : Outcome μ} (h : mbox.Counters)
    (hfirst : mbox'.first = mbox.first) (hlast : mbox'.last = mbox.last)
    (hmsgs : mbox'.msgs = mbox.msgs) (hp : o.posts = []) (hf : o.fetches = [])
    (ha : o.accesses = []) : QueueStep mbox mbox' o where
  counters := by
    obtain ⟨h0, h1, h2, h3⟩ := h
    constructor <;> simpa only [hfirst, hlast]
  queue := by rw [hp, hf, Mbox.unread, Mbox.unread, hfirst, hlast, hmsgs, List.append_nil]; rfl
  inBounds := by
    rw [ha]
    intro index hindex
    cases hindex

theorem put_spec {mbox : Mbox μ} (h : mbox.Counters) (hfull : ¬ mbox.full) (msg : μ) :
    QueueStep mbox (mbox.put msg) (.stored msg mbox.putIndex) where
  counters := by
    obtain ⟨h0, h1, h2, h3⟩ := (h.store msg).bumpLast hfull
    exact ⟨h0, h1, h2, h3⟩
  queue := by
    rw [Mbox.put, Mbox.unread_signalNotEmpty, h.unread_store msg]
    rfl
  inBounds := by
    intro index hindex
    rw [List.mem_singleton.mp hindex]
    exact h.putIndex_range

theorem take_spec {mbox : Mbox μ} (h : mbox.Counters) (hne : mbox.first ≠ mbox.last) :
    QueueStep mbox mbox.take.1 (.fetched mbox.take.2 mbox.takeIndex) where
  counters := by
    obtain ⟨h0, h1, h2, h3⟩ := h.bumpFirst hne
    exact ⟨h0, h1, h2, h3⟩
  queue := by
    rw [Mbox.take, Mbox.unread_signalNotFull, h.unread_take hne]
    simp only [Outcome.posts, Outcome.fetches, List.append_nil, List.singleton_append]
  inBounds := by
    intro index hindex
    rw [List.mem_singleton.mp hindex]
    exact h.takeIndex_range

theorem sysMboxPost_spec {mbox mbox' : Mbox μ} {msg : μ} {t : Thread μ} {o : Outcome μ}
    (h : mbox.Counters) (hs : sysMboxPost mbox msg = (mbox', t, o)) : QueueStep mbox mbox' o := by
  simp only [sysMboxPost] at hs
  split at hs
  · cases hs
    exact .idle h rfl rfl rfl rfl rfl rfl
  · next hfull =>
    cases hs
    exact put_spec h hfull msg

theorem sysArchMboxFetch_spec {mbox mbox' : Mbox μ} {timeout : ℕ} {t : Thread μ} {o : Outcome μ}
    (h : mbox.Counters) (hs : sysArchMboxFetch mbox timeout = (mbox', t, o)) :
    QueueStep mbox mbox' o := by
  simp only [sysArchMboxFetch] at hs
  split at hs
  · cases hs
    exact .idle h rfl rfl rfl rfl rfl rfl
  · next hne =>
    cases hs
    exact take_spec h hne

theorem threadStep_spec {mbox mbox' : Mbox μ} {t t' : Thread μ} {a : Action μ} {o : Outcome μ}
    (h : mbox.Counters) (hs : threadStep mbox t a = some (mbox', t', o)) :
    QueueStep mbox mbox' o := by
  cases t with
  | idle =>
    cases a with
    | post msg => exact sysMboxPost_spec h (Option.some.inj hs)
    | fetch timeout => exact sysArchMboxFetch_spec h (Option.some.inj hs)
    | trypost msg =>
      by_cases hfull : mbox.full
      · rw [threadStep, sysMboxTrypost_full hfull] at hs
        cases hs
        exact .idle h rfl rfl rfl rfl rfl rfl
      · rw [threadStep, sysMboxTrypost_room hfull] at hs
        cases hs
        exact put_spec h hfull msg
    | tryfetch =>
      simp only [threadStep, sysArchMboxTryfetch] at hs
      by_cases hne : mbox.first = mbox.last
      · rw [if_pos hne] at hs
        cases hs
        exact .idle h rfl rfl rfl rfl rfl rfl
      · rw [if_neg hne] at hs
        cases hs
        exact take_spec h hne
    | resume => cases hs
    | timeOut => cases hs
  | waitNotFull msg =>
    cases a with
    | resume =>
      simp only [threadStep] at hs
      split at hs
      · cases hs
        exact .idle h rfl rfl rfl rfl rfl rfl
      · cases hs
    | _ => cases hs
  | relockPost msg =>
    cases a with
    | resume =>
      -- `wait_send--` first, then the loop condition again
      have h' : ({ mbox with waitSend := mbox.waitSend - 1 } : Mbox μ).Counters :=
        ⟨h.1, h.2, h.3, h.4⟩
      obtain ⟨hc, hq, hi⟩ := sysMboxPost_spec h' (Option.some.inj hs)
      exact ⟨hc, hq, hi⟩
    | _ => cases hs
  | waitNotEmpty timeout =>
    cases a with
    | resume =>
      simp only [threadStep] at hs
      split at hs
      · cases hs
        exact .idle h rfl rfl rfl rfl rfl rfl
      · cases hs
    | timeOut =>
      simp only [threadStep] at hs
      split at hs
      · cases hs
        exact .idle h rfl rfl rfl rfl rfl rfl
      · cases hs
    | _ => cases hs
  | relockFetch timeout =>
    cases a with
    | resume => exact sysArchMboxFetch_spec h (Option.some.inj hs)
    | _ => cases hs

/-! ### Safety -/

/-- The messages fetched and those still unread are together the messages posted, the
ring is at most one short of its size, and the array was accessed inside its bounds. -/
structure Intact (as : List (ι × Action μ × Outcome μ)) (mbox : Mbox μ) : Prop where
  queue : posted as = fetched as ++ mbox.unread
  bounds : 0 ≤ mbox.last - mbox.first ∧ mbox.last - mbox.first ≤ SYS_MBOX_SIZE - 1
  inBounds : ∀ index ∈ accesses as, 0 ≤ index ∧ index < SYS_MBOX_SIZE

/-- `sys_mbox_trypost` fails exactly when the ring is one short of its size, and
then leaves the mailbox as it is. -/
def TrypostExact (mbox : Mbox μ) : Prop :=
  ∀ msg : μ,
    ((sysMboxTrypost mbox msg).2 = ERR_MEM ↔ (mbox.unread.length : ℤ) = SYS_MBOX_SIZE - 1) ∧
    ((sysMboxTrypost mbox msg).2 = ERR_MEM → (sysMboxTrypost mbox msg).1 = mbox)

/-- Mailbox safety after the run `as`. -/
def MailboxSafe (as : List (ι × Action μ × Outcome μ)) (mbox : Mbox μ) : Prop :=
  Intact as mbox ∧ TrypostExact mbox

theorem sysMboxTrypost_fails_iff (mbox : Mbox μ) (msg : μ) :
    (sysMboxTrypost mbox msg).2 = ERR_MEM ↔ mbox.full := by
  by_cases h : mbox.full
  · simp [sysMboxTrypost_full h, h]
  · simp [sysMboxTrypost_room h, h, ERR_OK, ERR_MEM]

theorem trypostExact_iff {mbox : Mbox μ} (h : mbox.Counters) :
    TrypostExact mbox ↔ mbox.first + SYS_MBOX_SIZE < 2 ^ 31 := by
  have hlen := h.unread_length
  have hlast := h.last_lt
  have hfull := h.full_iff
  constructor
  · intro hex
    by_contra hover
    have hfails := (sysMboxTrypost_fails_iff mbox (mbox.msgs 0)).mpr (hfull.mpr (by omega))
    have hunread := ((hex (mbox.msgs 0)).1).mp hfails
    unfold SYS_MBOX_SIZE at *
    omega
  · intro hroom msg
    rw [sysMboxTrypost_fails_iff]
    constructor
    · rw [hfull, hlen]
      unfold SYS_MBOX_SIZE at *
      omega
    · intro hf
      rw [sysMboxTrypost_full hf]

variable [DecidableEq ι]

theorem intact_of_run {as : List (ι × Action μ × Outcome μ)} {s : Shared μ ι}
    (h : (sectionSystem μ ι).Run (fun _ _ => True) as s) :
    s.mbox.Counters ∧ Intact as s.mbox := by
  have hinv : s.mbox.Counters ∧ posted as = fetched as ++ s.mbox.unread ∧
      ∀ index ∈ accesses as, 0 ≤ index ∧ index < SYS_MBOX_SIZE := by
    apply h.invariant (I := fun as s => s.mbox.Counters ∧
      posted as = fetched as ++ s.mbox.unread ∧
        ∀ index ∈ accesses as, 0 ≤ index ∧ index < SYS_MBOX_SIZE)
    · rintro s ⟨⟨msgs, hmbox⟩, -⟩
      rw [hmbox]
      exact ⟨.new msgs, rfl, by simp [accesses]⟩
    · rintro as s ⟨i, a, o⟩ t - ⟨hc, hq, hacc⟩ - ⟨mbox, thread, hstep, rfl⟩
      obtain ⟨hc', hq', hacc'⟩ := threadStep_spec hc hstep
      refine ⟨hc', ?_, ?_⟩
      · rw [posted_snoc, fetched_snoc, hq, List.append_assoc, List.append_assoc]
        exact congrArg _ hq'
      · rw [accesses_snoc]
        intro index hindex
        rcases List.mem_append.mp hindex with hold | hnew
        · exact hacc index hold
        · exact hacc' index hnew
  obtain ⟨hc, hq, hacc⟩ := hinv
  have hfirst := hc.first_le_last
  have hlast := hc.last_le
  refine ⟨hc, hq, ⟨by omega, ?_⟩, hacc⟩
  rw [SYS_MBOX_SIZE]
  omega

theorem run_snoc {as : List (ι × Action μ × Outcome μ)} {s : Shared μ ι}
    (hrun : (sectionSystem μ ι).Run (fun _ _ => True) as s) {i : ι} {thread thread' : Thread μ}
    {a : Action μ} {mbox : Mbox μ} {o : Outcome μ} (hthread : s.threads i = thread)
    (h : threadStep s.mbox thread a = some (mbox, thread', o)) :
    (sectionSystem μ ι).Run (fun _ _ => True) (as ++ [(i, a, o)])
      ⟨mbox, Function.update s.threads i thread'⟩ := by
  subst hthread
  exact hrun.snoc trivial ⟨mbox, thread', h, rfl⟩

/-- One thread posting and fetching in turn. -/
theorem run_of_exchanges (n : ℕ) (hn : (n : ℤ) + SYS_MBOX_SIZE ≤ 2 ^ 31) :
    ∃ as s, (sectionSystem Unit Unit).Run (fun _ _ => True) as s ∧ s.threads () = .idle ∧
      s.mbox.first = n ∧ s.mbox.last = n := by
  induction n with
  | zero =>
    exact ⟨[], ⟨sysMboxNew fun _ => (), fun _ => .idle⟩,
      .start ⟨⟨_, rfl⟩, fun _ => rfl⟩, rfl, rfl, rfl⟩
  | succ n ih =>
    unfold SYS_MBOX_SIZE at hn ih
    obtain ⟨as, s, hrun, hidle, hfirst, hlast⟩ := ih (by push_cast at hn; omega)
    obtain ⟨hc, -⟩ := intact_of_run hrun
    have hroom : ¬ s.mbox.full := by
      rw [hc.full_iff]
      unfold SYS_MBOX_SIZE
      push_cast at hn
      omega
    have hpost : threadStep s.mbox .idle (.post ()) =
        some (s.mbox.put (), .idle, .stored () s.mbox.putIndex) := by
      rw [threadStep, sysMboxPost, if_neg hroom]
    have hrun' := run_snoc hrun hidle hpost
    have hput : (s.mbox.put ()).last = n + 1 := by
      have := hc.s32_last
      simp only [Mbox.put, Mbox.signalNotEmpty, Mbox.bumpLast, Mbox.store]
      omega
    have hkeep : (s.mbox.put ()).first = n := hfirst
    have hfetch : threadStep (s.mbox.put ()) .idle (.fetch 0) =
        some ((s.mbox.put ()).take.1, .idle,
          .fetched (s.mbox.put ()).take.2 (s.mbox.put ()).takeIndex) := by
      rw [threadStep, sysArchMboxFetch, if_neg (by omega)]
    have hidle' : Function.update s.threads () .idle () = .idle :=
      Function.update_self () Thread.idle s.threads
    have hrun'' := run_snoc (i := ()) hrun' hidle' hfetch
    have hc' : (s.mbox.put ()).Counters := (intact_of_run hrun').1
    refine ⟨_, _, hrun'', ?_, ?_, ?_⟩
    · exact Function.update_self () Thread.idle (Function.update s.threads () Thread.idle)
    · have := hc'.s32_first
      simp only [Mbox.take, Mbox.signalNotFull, Mbox.bumpFirst] at this ⊢
      push_cast
      omega
    · change (s.mbox.put ()).last = _
      push_cast
      exact hput

end QuietLwip.Mailbox
