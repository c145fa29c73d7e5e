import Mathlib.Tactic

/-!
# The time of timed waits

`sys_arch_sem_wait` and `sys_arch_mbox_fetch` wait again with the whole timeout when a wake-up was in
vain, and keep only the milliseconds of the last wait. What is returned is subtracted from the head of
the timer list. Here the time goes by in the waits alone: the environment says after how many milliseconds
a wait is woken, and what is found then. A wait that is not woken in time takes `timeout` milliseconds.
-/

namespace QuietLwip.Mailbox.Timed

def SYS_ARCH_TIMEOUT : ℕ := 0xffffffff

/-- A wake-up of a condition variable: the milliseconds since the wait began, and the count of the
semaphore that is found. -/
structure Wake where
  ms : ℕ
  count : ℕ
  deriving DecidableEq

/-- The result of a function that waits, and the milliseconds spent in timed waits. -/
structure Waited where
  ret : ℕ
  spent : ℕ
  deriving DecidableEq

/-- `cond_wait(cond, mutex, timeout)` with a timeout -/
def condWait (timeout : ℕ) : Option Wake → Waited
  | some w => if w.ms ≤ timeout then ⟨w.ms, w.ms⟩ else ⟨SYS_ARCH_TIMEOUT, timeout⟩
  | none => ⟨SYS_ARCH_TIMEOUT, timeout⟩

/-- The loop of `sys_arch_sem_wait`; `none`: without a timeout it waits forever. -/
def semWaitLoop (timeout timeNeeded spent c : ℕ) : List Wake → Option Waited
  | [] =>
    if 0 < c then some ⟨timeNeeded, spent⟩
    else if 0 < timeout then
      let w := condWait timeout none
      some ⟨w.ret, spent + w.spent⟩
    else none
  | wake :: wakes =>
    if 0 < c then some ⟨timeNeeded, spent⟩
    else if 0 < timeout then
      let w := condWait timeout (some wake)
      if w.ret = SYS_ARCH_TIMEOUT then some ⟨SYS_ARCH_TIMEOUT, spent + w.spent⟩
      else semWaitLoop timeout w.ret (spent + w.spent) wake.count wakes
    else semWaitLoop timeout timeNeeded spent wake.count wakes

/-- `sys_arch_sem_wait(s, timeout)` on a semaphore with the count `c` -/
def sysArchSemWait (timeout c : ℕ) (wakes : List Wake) : Option Waited :=
  semWaitLoop timeout 0 0 c wakes

/-- A wait for `not_empty`: the count at its start, the wake-ups, and whether the mailbox is then found
empty. -/
structure Round where
  count : ℕ
  wakes : List Wake
  empty : Bool

/-- The loop of `sys_arch_mbox_fetch`. The waits for the mutex have no timeout. -/
def mboxFetchLoop (timeout timeNeeded spent : ℕ) : Bool → List Round → Option Waited
  | false, _ => some ⟨timeNeeded, spent⟩
  | true, [] => (sysArchSemWait timeout 0 []).map fun w => ⟨w.ret, spent + w.spent⟩
  | true, r :: rs =>
    (sysArchSemWait timeout r.count r.wakes).bind fun w =>
      if timeout ≠ 0 then
        if w.ret = SYS_ARCH_TIMEOUT then some ⟨SYS_ARCH_TIMEOUT, spent + w.spent⟩
        else mboxFetchLoop timeout w.ret (spent + w.spent) r.empty rs
      else mboxFetchLoop timeout timeNeeded spent r.empty rs

/-- `sys_arch_mbox_fetch(mb, msg, timeout)` on a mailbox that is empty or not -/
def sysArchMboxFetch (timeout : ℕ) (empty : Bool) (rounds : List Round) : Option Waited :=
  mboxFetchLoop timeout 0 0 empty rounds

variable {η : Type}

/-- `struct sys_timeo`: an entry of the list `next_timeout`, with the time behind the entry before. -/
structure Timer (η : Type) where
  time : ℕ
  h : Option η
  timeLt : time < 2 ^ 32

/-- What a call of `sys_arch_mbox_fetch` meets. -/
structure Mail where
  empty : Bool
  rounds : List Round

/-- One turn of `sys_timeouts_mbox_fetch`: whether it goes to `again`, the list behind it, the
milliseconds spent in timed waits and those that are taken off the list. -/
structure Turn (η : Type) where
  again : Bool
  timers : List (Timer η)
  spent : ℕ
  deducted : ℕ

/-- `if (time_needed < next_timeout->time) ...` -/
def Timer.deduct (t : Timer η) (timeNeeded : ℕ) : Timer η :=
  { t with
    time := if timeNeeded < t.time then t.time - timeNeeded else 0
    timeLt := by have := t.timeLt; split <;> omega }

/-- From `again` on; `call` is what a handler does to the list. -/
def fetchTurn (call : η → List (Timer η) → List (Timer η)) (timers : List (Timer η)) (m : Mail) :
    Option (Turn η) :=
  match timers with
  | [] => (sysArchMboxFetch 0 m.empty m.rounds).map fun w => ⟨false, [], w.spent, 0⟩
  | t :: ts =>
    let fetched :=
      if 0 < t.time then sysArchMboxFetch t.time m.empty m.rounds else some ⟨SYS_ARCH_TIMEOUT, 0⟩
    fetched.map fun w =>
      if w.ret = SYS_ARCH_TIMEOUT then
        ⟨true, (match t.h with | some h => call h ts | none => ts), w.spent, t.time⟩
      else
        let t' := t.deduct w.ret
        ⟨false, t' :: ts, w.spent, t.time - t'.time⟩

/-- `sys_timeouts_mbox_fetch`, over what its turns meet -/
def sysTimeoutsMboxFetch (call : η → List (Timer η) → List (Timer η)) :
    List (Timer η) → List Mail → Option (Turn η)
  | _, [] => none
  | timers, m :: ms =>
    (fetchTurn call timers m).bind fun p =>
      if p.again then
        (sysTimeoutsMboxFetch call p.timers ms).map fun r =>
          { r with spent := p.spent + r.spent, deducted := p.deducted + r.deducted }
      else some p

/-! ### What is waited for in vain -/

/-- After this wake-up the semaphore is waited for again. -/
def Wake.Idle (timeout : ℕ) (w : Wake) : Prop :=
  w.count = 0 ∧ w.ms ≤ timeout ∧ w.ms ≠ SYS_ARCH_TIMEOUT

instance (timeout : ℕ) (w : Wake) : Decidable (w.Idle timeout) :=
  inferInstanceAs (Decidable (_ ∧ _ ∧ _))

/-- The milliseconds of the waits that end in vain, before one that does not. -/
def idleTime (timeout : ℕ) (wakes : List Wake) : ℕ :=
  ((wakes.takeWhile fun w => w.Idle timeout).map Wake.ms).sum

/-- The wake-up that finds the semaphore; `none`: the time is up before. -/
def arrival (timeout : ℕ) (wakes : List Wake) : Option Wake :=
  ((wakes.dropWhile fun w => w.Idle timeout).head?).filter fun w =>
    0 < w.count ∧ w.ms ≤ timeout ∧ w.ms ≠ SYS_ARCH_TIMEOUT

/-- Everything found of the semaphore, with the milliseconds of the wait before: at first none. -/
def looks (c : ℕ) (wakes : List Wake) : List Wake := ⟨0, c⟩ :: wakes

/-- The result is the timeout or all the time spent, and the time spent is at most the timeout. -/
def Waited.Accounted (timeout : ℕ) (w : Waited) : Prop :=
  (w.ret = SYS_ARCH_TIMEOUT ∨ w.ret = w.spent) ∧ w.spent ≤ timeout

/-- Every wait that ends in vain took no time: for the semaphore or, then, for a message. -/
def Prompt (timeout : ℕ) : List Round → Prop
  | [] => True
  | r :: rs => idleTime timeout (looks r.count r.wakes) = 0 ∧
      ∀ a ∈ arrival timeout (looks r.count r.wakes), r.empty → a.ms = 0 ∧ Prompt timeout rs

variable {timeout timeNeeded spent c : ℕ} {w v a : Wake} {ws : List Wake} {x : Waited}

theorem idleTime_cons_of_idle (h : w.Idle timeout) (ws : List Wake) :
    idleTime timeout (w :: ws) = w.ms + idleTime timeout ws := by
  simp [idleTime, h]

theorem idleTime_cons_of_not (h : ¬ w.Idle timeout) (ws : List Wake) :
    idleTime timeout (w :: ws) = 0 := by
  simp [idleTime, h]

theorem arrival_cons_of_idle (h : w.Idle timeout) (ws : List Wake) :
    arrival timeout (w :: ws) = arrival timeout ws := by
  simp [arrival, h]

theorem arrival_cons_of_not (h : ¬ w.Idle timeout) (ws : List Wake) :
    arrival timeout (w :: ws) =
      if 0 < w.count ∧ w.ms ≤ timeout ∧ w.ms ≠ SYS_ARCH_TIMEOUT then some w else none := by
  simp [arrival, h, Option.filter]

theorem arrival_spec (h : a ∈ arrival timeout ws) : a.ms ≤ timeout ∧ a.ms ≠ SYS_ARCH_TIMEOUT := by
  have := (Option.mem_filter_iff.mp h).2
  simp only [ne_eq, Bool.decide_and, decide_not, Bool.and_eq_true, decide_eq_true_eq,
    Bool.not_eq_true', decide_eq_false_iff_not] at this
  exact this.2

/-- The loop behind a look at the semaphore. -/
theorem semWaitLoop_eq (w : Wake) (spent : ℕ) (hpos : 0 < timeout) (hlt : timeout < 2 ^ 32) (ws : List Wake)
    (hms : w.ms ≤ timeout) (hmax : w.ms ≠ SYS_ARCH_TIMEOUT) :
    semWaitLoop timeout w.ms (spent + w.ms) w.count ws =
      some ((arrival timeout (w :: ws)).elim
        ⟨SYS_ARCH_TIMEOUT, spent + idleTime timeout (w :: ws) + timeout⟩
        fun a => ⟨a.ms, spent + idleTime timeout (w :: ws) + a.ms⟩) := by
  induction ws generalizing w spent with
  | nil =>
    rw [semWaitLoop]
    by_cases hc : 0 < w.count
    · have hidle : ¬ w.Idle timeout := fun h => hc.ne' h.1
      rw [if_pos hc, arrival_cons_of_not hidle, if_pos ⟨hc, hms, hmax⟩, idleTime_cons_of_not hidle]
      rfl
    · have hidle : w.Idle timeout := ⟨by omega, hms, hmax⟩
      rw [if_neg hc, if_pos hpos, arrival_cons_of_idle hidle, idleTime_cons_of_idle hidle]
      rfl
  | cons v ws ih =>
    rw [semWaitLoop]
    by_cases hc : 0 < w.count
    · have hidle : ¬ w.Idle timeout := fun h => hc.ne' h.1
      rw [if_pos hc, arrival_cons_of_not hidle, if_pos ⟨hc, hms, hmax⟩, idleTime_cons_of_not hidle]
      rfl
    · have hidle : w.Idle timeout := ⟨by omega, hms, hmax⟩
      rw [if_neg hc, if_pos hpos, arrival_cons_of_idle hidle, idleTime_cons_of_idle hidle]
      by_cases hvms : v.ms ≤ timeout
      · simp only [condWait, if_pos hvms]
        by_cases hvmax : v.ms = SYS_ARCH_TIMEOUT
        · have hv : ¬ v.Idle timeout := fun h => h.2.2 hvmax
          have hall : v.ms = timeout := by
            rw [SYS_ARCH_TIMEOUT] at hvmax
            omega
          rw [if_pos hvmax, arrival_cons_of_not hv, if_neg fun h => h.2.2 hvmax,
            idleTime_cons_of_not hv, hall]
          rfl
        · rw [if_neg hvmax, ih v _ hvms hvmax, ← Nat.add_assoc]
      · have hv : ¬ v.Idle timeout := fun h => hvms h.2.1
        simp only [condWait, if_neg hvms]
        rw [if_pos trivial, arrival_cons_of_not hv, if_neg fun h => hvms h.2.1, idleTime_cons_of_not hv]
        rfl

theorem sysArchSemWait_eq (hpos : 0 < timeout) (hlt : timeout < 2 ^ 32) (c : ℕ) (ws : List Wake) :
    sysArchSemWait timeout c ws = some ((arrival timeout (looks c ws)).elim
      ⟨SYS_ARCH_TIMEOUT, idleTime timeout (looks c ws) + timeout⟩
      fun a => ⟨a.ms, idleTime timeout (looks c ws) + a.ms⟩) := by
  have hzero : 0 ≠ SYS_ARCH_TIMEOUT := by decide
  have := semWaitLoop_eq ⟨0, c⟩ 0 hpos hlt ws (Nat.zero_le _) hzero
  simp only [Nat.zero_add] at this
  exact this

/-- A semaphore is waited for right exactly when the waits in vain took no time. -/
theorem sysArchSemWait_accounted (hpos : 0 < timeout) (hlt : timeout < 2 ^ 32) (c : ℕ)
    (ws : List Wake) : ∃ x, sysArchSemWait timeout c ws = some x ∧
      (x.Accounted timeout ↔ idleTime timeout (looks c ws) = 0) := by
  refine ⟨_, sysArchSemWait_eq hpos hlt c ws, ?_⟩
  cases ha : arrival timeout (looks c ws) with
  | none =>
    simp only [Option.elim, Waited.Accounted, true_or, true_and]
    omega
  | some a =>
    obtain ⟨hms, hmax⟩ := arrival_spec ha
    simp only [Option.elim, Waited.Accounted, hmax, false_or]
    omega

/-- What is known of a result before the time is compared. -/
structure Waited.Bounded (timeout : ℕ) (x : Waited) : Prop where
  spent : x.ret = SYS_ARCH_TIMEOUT → timeout ≤ x.spent
  ret : x.ret ≠ SYS_ARCH_TIMEOUT → x.ret ≤ x.spent ∧ x.ret ≤ timeout

theorem mboxFetchLoop_accounted (hpos : 0 < timeout) (hlt : timeout < 2 ^ 32) (rs : List Round)
    (timeNeeded spent : ℕ) : ∃ x, mboxFetchLoop timeout timeNeeded spent true rs = some x ∧
      x.Bounded timeout ∧ (x.Accounted timeout ↔ spent = 0 ∧ Prompt timeout rs) := by
  induction rs generalizing timeNeeded spent with
  | nil =>
    refine ⟨⟨SYS_ARCH_TIMEOUT, spent + timeout⟩, ?_, ⟨fun _ => Nat.le_add_left _ _, fun h =>
      absurd rfl h⟩, ?_⟩
    · rw [mboxFetchLoop, sysArchSemWait, semWaitLoop, if_neg (Nat.lt_irrefl 0), if_pos hpos]
      simp [condWait]
    · simp only [Waited.Accounted, Prompt, true_or, true_and, and_true]
      omega
  | cons r rs ih =>
    rw [mboxFetchLoop, sysArchSemWait_eq hpos hlt, Option.bind_some, Prompt]
    generalize idleTime timeout (looks r.count r.wakes) = idle
    cases ha : arrival timeout (looks r.count r.wakes) with
    | none =>
      refine ⟨⟨SYS_ARCH_TIMEOUT, spent + (idle + timeout)⟩, by simp [hpos.ne'],
        ⟨fun _ => by dsimp only; omega, fun h => absurd rfl h⟩, ?_⟩
      simp only [Waited.Accounted, true_or, true_and, Option.mem_def, reduceCtorEq, false_imp_iff,
        implies_true, and_true]
      omega
    | some a =>
      obtain ⟨hms, hmax⟩ := arrival_spec ha
      have hsem : (a.ms = SYS_ARCH_TIMEOUT) = False := eq_false hmax
      simp only [Option.elim, if_pos hpos.ne', hsem, if_false]
      cases hempty : r.empty with
      | false =>
        refine ⟨⟨a.ms, spent + (idle + a.ms)⟩, by rw [mboxFetchLoop], ⟨fun h => absurd h hmax,
          fun _ => ⟨by dsimp only; omega, hms⟩⟩, ?_⟩
        simp only [Waited.Accounted, hmax, false_or, Bool.false_eq_true, false_imp_iff, implies_true,
          and_true]
        omega
      | true =>
        -- the mailbox is waited for again
        obtain ⟨x, hx, hbound, hiff⟩ := ih a.ms (spent + (idle + a.ms))
        refine ⟨x, hx, hbound, hiff.trans ?_⟩
        simp only [Option.mem_def, Option.some_inj, forall_eq', true_imp_iff]
        constructor
        · rintro ⟨hsum, hrest⟩
          exact ⟨by omega, by omega, by omega, hrest⟩
        · rintro ⟨hspent, hidle, hzero, hrest⟩
          exact ⟨by omega, hrest⟩

/-- A message is waited for right exactly when all the waits in vain took no time. -/
theorem sysArchMboxFetch_accounted (hpos : 0 < timeout) (hlt : timeout < 2 ^ 32) (empty : Bool)
    (rs : List Round) : ∃ x, sysArchMboxFetch timeout empty rs = some x ∧ x.Bounded timeout ∧
      (x.Accounted timeout ↔ (empty → Prompt timeout rs)) := by
  cases empty with
  | false =>
    refine ⟨⟨0, 0⟩, by rw [sysArchMboxFetch, mboxFetchLoop], ⟨fun h => absurd h (by decide),
      fun _ => ⟨le_rfl, Nat.zero_le _⟩⟩, iff_of_true ⟨.inr rfl, Nat.zero_le _⟩ fun h => nomatch h⟩
  | true =>
    obtain ⟨x, hx, hbound, hiff⟩ := mboxFetchLoop_accounted hpos hlt rs 0 0
    exact ⟨x, hx, hbound, hiff.trans (by simp)⟩

/-! ### The timer list -/

/-- The first timer, when there is one, waits for messages right. -/
def Mail.Prompt (m : Mail) : List (Timer η) → Prop
  | [] => True
  | t :: _ => 0 < t.time → m.empty → Timed.Prompt t.time m.rounds

/-- So do the first timers of all turns. -/
def AllPrompt (call : η → List (Timer η) → List (Timer η)) : List (Timer η) → List Mail → Prop
  | _, [] => True
  | timers, m :: ms => m.Prompt timers ∧
      ∀ p, fetchTurn call timers m = some p → p.again → AllPrompt call p.timers ms

variable {call : η → List (Timer η) → List (Timer η)} {timers : List (Timer η)} {m : Mail}
  {p r : Turn η}

/-- Without a timeout there are no timed waits. -/
theorem semWaitLoop_untimed (ws : List Wake) (h : semWaitLoop 0 timeNeeded spent c ws = some x) :
    x.spent = spent := by
  induction ws generalizing c with
  | nil =>
    rw [semWaitLoop, if_neg (Nat.lt_irrefl 0)] at h
    split at h
    · cases h
      rfl
    · cases h
  | cons w ws ih =>
    rw [semWaitLoop, if_neg (Nat.lt_irrefl 0)] at h
    split at h
    · cases h
      rfl
    · exact ih h

theorem mboxFetchLoop_untimed (empty : Bool) (rs : List Round)
    (h : mboxFetchLoop 0 timeNeeded spent empty rs = some x) : x.spent = spent := by
  induction rs generalizing empty with
  | nil =>
    cases empty with
    | false =>
      cases h
      rfl
    | true => cases h
  | cons r rs ih =>
    cases empty with
    | false =>
      cases h
      rfl
    | true =>
      rw [mboxFetchLoop] at h
      obtain ⟨w, -, hw⟩ := Option.bind_eq_some_iff.mp h
      exact ih r.empty hw

/-- A turn takes at most the time spent off the list, and all of it exactly when the waits were right. -/
theorem fetchTurn_accounted (h : fetchTurn call timers m = some p) :
    p.deducted ≤ p.spent ∧ (p.deducted = p.spent ↔ m.Prompt timers) := by
  cases timers with
  | nil =>
    obtain ⟨w, hw, rfl⟩ := Option.map_eq_some_iff.mp h
    have hzero : w.spent = 0 := mboxFetchLoop_untimed _ _ hw
    exact ⟨Nat.zero_le _, iff_of_true hzero.symm trivial⟩
  | cons t ts =>
    obtain ⟨w, hw, hp⟩ := Option.map_eq_some_iff.mp h
    by_cases hpos : 0 < t.time
    · rw [if_pos hpos] at hw
      obtain ⟨x, hx, hbound, hiff⟩ := sysArchMboxFetch_accounted hpos t.timeLt m.empty m.rounds
      obtain rfl : x = w := Option.some.inj (hx.symm.trans hw)
      have hprompt : m.Prompt (t :: ts) ↔ x.Accounted t.time :=
        ⟨fun hm => hiff.mpr (hm hpos), fun hacc _ => hiff.mp hacc⟩
      rw [hprompt, Waited.Accounted]
      split at hp
      · next hret =>
        subst hp
        have := hbound.spent hret
        simp only [hret, true_or, true_and]
        exact ⟨this, by omega⟩
      · next hret =>
        subst hp
        obtain ⟨hspent, htime⟩ := hbound.ret hret
        have hded : t.time - (t.deduct x.ret).time = x.ret := by
          simp only [Timer.deduct]
          split <;> omega
        simp only [hded, hret, false_or]
        exact ⟨hspent, by omega⟩
    · rw [if_neg hpos] at hw
      cases hw
      rw [if_pos rfl] at hp
      subst hp
      have hzero : t.time = 0 := Nat.eq_zero_of_not_pos hpos
      exact ⟨hzero.le, iff_of_true hzero fun h => absurd h hpos⟩

/-- Over all turns, the time spent is taken off the list exactly when the waits of every turn were
right. -/
theorem sysTimeoutsMboxFetch_accounted (ms : List Mail)
    (h : sysTimeoutsMboxFetch call timers ms = some r) :
    r.deducted ≤ r.spent ∧ (r.deducted = r.spent ↔ AllPrompt call timers ms) := by
  induction ms generalizing timers r with
  | nil => cases h
  | cons m ms ih =>
    obtain ⟨p, hp, hr⟩ := Option.bind_eq_some_iff.mp h
    obtain ⟨hle, hiff⟩ := fetchTurn_accounted hp
    rw [AllPrompt, ← hiff]
    split at hr
    · next hagain =>
      obtain ⟨r', hr', rfl⟩ := Option.map_eq_some_iff.mp hr
      obtain ⟨hle', hiff'⟩ := ih hr'
      refine ⟨Nat.add_le_add hle hle', ?_⟩
      have hrest : (∀ q, fetchTurn call timers m = some q → q.again → AllPrompt call q.timers ms) ↔
          r'.deducted = r'.spent := by
        rw [hiff', hp]
        exact ⟨fun hall => hall p rfl hagain, fun hall q hq _ => Option.some.inj hq ▸ hall⟩
      rw [hrest]
      dsimp only
      omega
    · next hagain =>
      cases hr
      refine ⟨hle, ⟨fun heq => ⟨heq, fun q hq hq' => ?_⟩, And.left⟩⟩
      cases Option.some.inj (hp.symm.trans hq)
      exact absurd hq' hagain

end QuietLwip.Mailbox.Timed
