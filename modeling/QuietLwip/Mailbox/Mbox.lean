import QuietLwip.Foundation.Ring
import QuietLwip.Foundation.Word

/-!
# The mailbox of `sys_arch.c`

`first` and `last` are C `int`s that only grow; the array is addressed by their
remainders. The counters stay in range because `sys_mbox_post` takes a mailbox
whose `first + SYS_MBOX_SIZE` overflows for full: from there on nothing is posted.
-/

namespace QuietLwip.Mailbox

open QuietLwip.Word QuietLwip.Ring

def SYS_MBOX_SIZE : ℤ := 128
def ERR_OK : ℤ := 0
def ERR_MEM : ℤ := -1

/-- `struct sys_mbox`, with the counts of its three semaphores. -/
structure Mbox (μ : Type) where
  first : ℤ
  last : ℤ
  msgs : ℤ → μ
  notEmpty : ℕ
  notFull : ℕ
  mutex : ℕ
  waitSend : ℤ

/-- `sys_sem_signal` on the count of a semaphore. -/
def sysSemSignal (c : ℕ) : ℕ := if c + 1 > 1 then 1 else c + 1

@[simp] theorem sysSemSignal_eq (c : ℕ) : sysSemSignal c = 1 := by
  rw [sysSemSignal]
  split <;> omega

/-- `sys_mbox_new`, over whatever `malloc` leaves in the array. -/
def sysMboxNew {μ : Type} (msgs : ℤ → μ) : Mbox μ where
  first := 0
  last := 0
  msgs := msgs
  notEmpty := 0
  notFull := 0
  mutex := 1
  waitSend := 0

namespace Mbox

variable {μ : Type}

/-- `(mbox->last + 1) >= (mbox->first + SYS_MBOX_SIZE)` -/
def full (mbox : Mbox μ) : Prop := s32 (mbox.last + 1) ≥ s32 (mbox.first + SYS_MBOX_SIZE)

instance (mbox : Mbox μ) : Decidable mbox.full := inferInstanceAs (Decidable (_ ≥ _))

/-- `mbox->last % SYS_MBOX_SIZE` -/
def putIndex (mbox : Mbox μ) : ℤ := mbox.last.tmod SYS_MBOX_SIZE

/-- `mbox->first % SYS_MBOX_SIZE` -/
def takeIndex (mbox : Mbox μ) : ℤ := mbox.first.tmod SYS_MBOX_SIZE

/-- `mbox->msgs[mbox->last % SYS_MBOX_SIZE] = msg` -/
def store (mbox : Mbox μ) (msg : μ) : Mbox μ :=
  { mbox with msgs := Function.update mbox.msgs mbox.putIndex msg }

/-- `mbox->last++` -/
def bumpLast (mbox : Mbox μ) : Mbox μ := { mbox with last := s32 (mbox.last + 1) }

/-- `mbox->first++` -/
def bumpFirst (mbox : Mbox μ) : Mbox μ := { mbox with first := s32 (mbox.first + 1) }

/-- `if (first) sys_sem_signal(&mbox->not_empty)` -/
def signalNotEmpty (mbox : Mbox μ) (first : Bool) : Mbox μ :=
  { mbox with notEmpty := if first then sysSemSignal mbox.notEmpty else mbox.notEmpty }

/-- `if (mbox->wait_send) sys_sem_signal(&mbox->not_full)` -/
def signalNotFull (mbox : Mbox μ) : Mbox μ :=
  { mbox with notFull := if mbox.waitSend ≠ 0 then sysSemSignal mbox.notFull else mbox.notFull }

/-- The messages posted and not yet fetched, as the ring holds them. -/
def unread (mbox : Mbox μ) : List μ :=
  window SYS_MBOX_SIZE mbox.msgs mbox.first (mbox.last - mbox.first).toNat

/-- The counters: the ring is at most one short of its size, and `last` has not
reached `INT_MAX`. -/
structure Counters (mbox : Mbox μ) : Prop where
  first_nonneg : 0 ≤ mbox.first
  first_le_last : mbox.first ≤ mbox.last
  last_le : mbox.last ≤ mbox.first + 127
  last_lt : mbox.last < 2 ^ 31 - 1

theorem Counters.new (msgs : ℤ → μ) : Counters (sysMboxNew msgs) :=
  ⟨le_rfl, le_rfl, by simp [sysMboxNew], by simp [sysMboxNew]⟩

theorem Counters.putIndex_eq {mbox : Mbox μ} (h : mbox.Counters) :
    mbox.putIndex = (mbox.first + (mbox.last - mbox.first).toNat) % SYS_MBOX_SIZE := by
  have hfirst := h.first_nonneg
  have hle := h.first_le_last
  have hsum : mbox.first + ((mbox.last - mbox.first).toNat : ℤ) = mbox.last := by omega
  rw [putIndex, Int.tmod_eq_emod_of_nonneg (by omega), hsum]

theorem Counters.takeIndex_eq {mbox : Mbox μ} (h : mbox.Counters) :
    mbox.takeIndex = mbox.first % SYS_MBOX_SIZE := by
  rw [takeIndex, Int.tmod_eq_emod_of_nonneg h.first_nonneg]

theorem Counters.putIndex_range {mbox : Mbox μ} (h : mbox.Counters) :
    0 ≤ mbox.putIndex ∧ mbox.putIndex < SYS_MBOX_SIZE := by
  rw [h.putIndex_eq]
  rw [SYS_MBOX_SIZE]
  omega

theorem Counters.takeIndex_range {mbox : Mbox μ} (h : mbox.Counters) :
    0 ≤ mbox.takeIndex ∧ mbox.takeIndex < SYS_MBOX_SIZE := by
  rw [h.takeIndex_eq]
  rw [SYS_MBOX_SIZE]
  omega

theorem Counters.unread_length {mbox : Mbox μ} (h : mbox.Counters) :
    (mbox.unread.length : ℤ) = mbox.last - mbox.first := by
  have hle := h.first_le_last
  rw [unread, window_length]
  omega

/-- The mailbox counts as full when it is, and when the sum overflows. -/
theorem Counters.full_iff {mbox : Mbox μ} (h : mbox.Counters) :
    mbox.full ↔ mbox.last = mbox.first + 127 ∨ 2 ^ 31 ≤ mbox.first + SYS_MBOX_SIZE := by
  obtain ⟨hfirst, hle, hroom, hlast⟩ := h
  have hs : s32 (mbox.last + 1) = mbox.last + 1 := wrapS_of_range (by decide) (by omega) (by omega)
  rw [full, hs]
  rw [SYS_MBOX_SIZE]
  by_cases hover : mbox.first + 128 < 2 ^ 31
  · rw [s32, wrapS_of_range (by decide) (by omega) (by omega)]
    omega
  · -- the sum wraps to a negative number
    have hwrap : s32 (mbox.first + 128) = mbox.first + 128 - 2 ^ 32 := by
      simp only [s32, wrapS, Int.bmod]
      omega
    rw [hwrap]
    omega

theorem Counters.store {mbox : Mbox μ} (h : mbox.Counters) (msg : μ) : (mbox.store msg).Counters :=
  ⟨h.1, h.2, h.3, h.4⟩

theorem Counters.s32_last {mbox : Mbox μ} (h : mbox.Counters) :
    s32 (mbox.last + 1) = mbox.last + 1 := by
  obtain ⟨hfirst, hle, hroom, hlast⟩ := h
  exact wrapS_of_range (by decide) (by omega) (by omega)

theorem Counters.s32_first {mbox : Mbox μ} (h : mbox.Counters) :
    s32 (mbox.first + 1) = mbox.first + 1 := by
  obtain ⟨hfirst, hle, hroom, hlast⟩ := h
  exact wrapS_of_range (by decide) (by omega) (by omega)

theorem Counters.bumpLast {mbox : Mbox μ} (h : mbox.Counters) (hfull : ¬ mbox.full) :
    mbox.bumpLast.Counters := by
  rw [h.full_iff] at hfull
  have hs := h.s32_last
  obtain ⟨hfirst, hle, hroom, hlast⟩ := h
  unfold SYS_MBOX_SIZE at hfull
  constructor <;> simp only [Mbox.bumpLast, hs] <;> omega

theorem Counters.bumpFirst {mbox : Mbox μ} (h : mbox.Counters) (hne : mbox.first ≠ mbox.last) :
    mbox.bumpFirst.Counters := by
  have hs := h.s32_first
  obtain ⟨hfirst, hle, hroom, hlast⟩ := h
  constructor <;> simp only [Mbox.bumpFirst, hs] <;> omega

/-- Storing a message and counting it appends it to what is unread. -/
theorem Counters.unread_store {mbox : Mbox μ} (h : mbox.Counters) (msg : μ) :
    (mbox.store msg).bumpLast.unread = mbox.unread ++ [msg] := by
  have hs := h.s32_last
  have hle := h.first_le_last
  have hroom := h.last_le
  have hn : ((mbox.last - mbox.first).toNat : ℤ) < SYS_MBOX_SIZE := by
    unfold SYS_MBOX_SIZE at *
    omega
  have hcount : (mbox.last + 1 - mbox.first).toNat = (mbox.last - mbox.first).toNat + 1 := by
    omega
  simp only [unread, Mbox.store, Mbox.bumpLast, hs, hcount, h.putIndex_eq]
  exact window_push mbox.msgs mbox.first hn msg

/-- The message read is the oldest one unread, and counting it drops it. -/
theorem Counters.unread_take {mbox : Mbox μ} (h : mbox.Counters) (hne : mbox.first ≠ mbox.last) :
    mbox.unread = mbox.msgs mbox.takeIndex :: mbox.bumpFirst.unread := by
  have hs := h.s32_first
  have hle := h.first_le_last
  have hcount : (mbox.last - mbox.first).toNat = (mbox.last - (mbox.first + 1)).toNat + 1 := by
    omega
  simp only [unread, Mbox.bumpFirst, hs, hcount, h.takeIndex_eq, window]

@[simp] theorem unread_signalNotEmpty (mbox : Mbox μ) (first : Bool) :
    (mbox.signalNotEmpty first).unread = mbox.unread := rfl

@[simp] theorem unread_signalNotFull (mbox : Mbox μ) : mbox.signalNotFull.unread = mbox.unread :=
  rfl

end Mbox

end QuietLwip.Mailbox
