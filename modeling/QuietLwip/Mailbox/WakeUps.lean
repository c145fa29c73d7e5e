import QuietLwip.Mailbox.Steps

/-!
# Wake-ups of the mailbox

The semaphores are binary and signalled on edges only, so that whether a waiting
thread is woken depends on what the others are about to do. The invariant says so:
the fetching thread waits on a non-empty mailbox only while the token of `not_empty`
is there or about to be given; a poster waits on an empty mailbox only while the token
of `not_full` is there, about to be given, or in the hands of another poster.
-/

namespace QuietLwip.Mailbox

open QuietLwip.Word QuietLwip.Transition QuietLwip.Lock

variable {μ ι : Type}

/-- `first + SYS_MBOX_SIZE` does not overflow. -/
def Mbox.InRange (mbox : Mbox μ) : Prop := mbox.first + SYS_MBOX_SIZE < 2 ^ 31

/-- What a poster has found out and relies on while it holds the mutex. -/
def PosterPc.Ok (mbox : Mbox μ) : PosterPc μ → Prop
  | enterWait _ => mbox.full
  | store _ => ¬ mbox.full
  | bumpLast first => ¬ mbox.full ∧ first = decide (mbox.last = mbox.first)
  | _ => True

/-- What the fetching thread relies on while it holds the mutex. -/
def FetcherPc.Ok (mbox : Mbox μ) : FetcherPc μ → Prop
  | take | bumpFirst _ => mbox.first ≠ mbox.last
  | _ => True

/-- What a thread relies on is about `first` and `last`, and only while it holds the mutex. -/
theorem PosterPc.Ok.congr {mbox mbox' : Mbox μ} {pc : PosterPc μ} (h : pc.Ok mbox)
    (hsame : pc.holds → mbox'.first = mbox.first ∧ mbox'.last = mbox.last) : pc.Ok mbox' := by
  cases pc with
  | enterWait msg =>
    obtain ⟨hf, hl⟩ := hsame trivial
    simpa only [PosterPc.Ok, Mbox.full, hf, hl] using h
  | store msg =>
    obtain ⟨hf, hl⟩ := hsame trivial
    simpa only [PosterPc.Ok, Mbox.full, hf, hl] using h
  | bumpLast first =>
    obtain ⟨hf, hl⟩ := hsame trivial
    simpa only [PosterPc.Ok, Mbox.full, hf, hl] using h
  | _ => trivial

theorem FetcherPc.Ok.congr {mbox mbox' : Mbox μ} {pc : FetcherPc μ} (h : pc.Ok mbox)
    (hsame : pc.holds → mbox'.first = mbox.first ∧ mbox'.last = mbox.last) : pc.Ok mbox' := by
  cases pc with
  | take =>
    obtain ⟨hf, hl⟩ := hsame trivial
    simpa only [FetcherPc.Ok, hf, hl] using h
  | bumpFirst msg =>
    obtain ⟨hf, hl⟩ := hsame trivial
    simpa only [FetcherPc.Ok, hf, hl] using h
  | _ => trivial

/-- A poster's share of `wait_send`. -/
def PosterPc.share (pc : PosterPc μ) : ℤ := if pc.counted then 1 else 0

/-! ### What a poster's statement does -/

section Poster

variable {mbox mbox' : Mbox μ} {pc pc' : PosterPc μ}

theorem PosterStep.lockEffect (hs : PosterStep mbox pc mbox' pc') :
    Effect mbox.mutex mbox'.mutex pc.holds pc'.holds := by
  cases hs with
  | lock h => exact .acquire h rfl id trivial
  | relock h => exact .acquire h rfl id trivial
  | reject => exact .release (sysSemSignal_eq _) trivial id
  | unlockWait => exact .release (sysSemSignal_eq _) trivial id
  | unlock => exact .release (sysSemSignal_eq _) trivial id
  | _ => exact .keep rfl Iff.rfl

theorem PosterStep.first_eq (hs : PosterStep mbox pc mbox' pc') : mbox'.first = mbox.first := by
  cases hs <;> rfl

theorem PosterStep.waitSend_eq (hs : PosterStep mbox pc mbox' pc') :
    mbox'.waitSend = mbox.waitSend - pc.share + pc'.share := by
  cases hs <;>
    simp [PosterPc.share, PosterPc.counted, Mbox.lock, Mbox.unlock, Mbox.store, Mbox.bumpLast,
      Mbox.signalNotEmpty]

/-- Only the statement `last++` changes `last`, by one. -/
theorem PosterStep.last_cases (hs : PosterStep mbox pc mbox' pc') (hc : mbox.Counters)
    (hok : pc.Ok mbox) :
    mbox'.last = mbox.last ∧ (∀ first, pc ≠ .bumpLast first) ∨
      mbox'.last = mbox.last + 1 ∧ ¬ mbox.full ∧
        pc = .bumpLast (decide (mbox.last = mbox.first)) ∧
        pc' = .signal (decide (mbox.last = mbox.first)) := by
  cases hs with
  | bumpLast =>
    obtain ⟨hroom, rfl⟩ := hok
    exact Or.inr ⟨hc.s32_last, hroom, rfl, rfl⟩
  | _ => exact Or.inl ⟨rfl, by simp⟩

theorem PosterStep.counters (hs : PosterStep mbox pc mbox' pc') (hc : mbox.Counters)
    (hok : pc.Ok mbox) : mbox'.Counters := by
  have hfirst := hs.first_eq
  rcases hs.last_cases hc hok with ⟨hlast, -⟩ | ⟨hlast, hroom, -⟩
  · obtain ⟨h0, h1, h2, h3⟩ := hc
    constructor <;> simpa only [hfirst, hlast]
  · rw [hc.full_iff] at hroom
    obtain ⟨h0, h1, h2, h3⟩ := hc
    unfold SYS_MBOX_SIZE at hroom
    constructor <;> simp only [hfirst, hlast] <;> omega

theorem PosterStep.ok (hs : PosterStep mbox pc mbox' pc') (hok : pc.Ok mbox) : pc'.Ok mbox' := by
  cases hs with
  | room h => exact h
  | full h => exact h
  | store => exact ⟨hok, rfl⟩
  | _ => trivial

/-- Posters give tokens of `not_empty` and take none. -/
theorem PosterStep.notEmpty_pos (hs : PosterStep mbox pc mbox' pc')
    (h : 0 < mbox.notEmpty ∨ pc = .signal true) : 0 < mbox'.notEmpty := by
  cases hs with
  | @signal first =>
    cases first with
    | true => simp [Mbox.signalNotEmpty]
    | false => simpa [Mbox.signalNotEmpty] using h
  | _ => exact h.resolve_right (by simp)

/-- A token of `not_full` is taken only by a poster that then carries it. -/
theorem PosterStep.notFull_pos (hs : PosterStep mbox pc mbox' pc') (h : 0 < mbox.notFull) :
    0 < mbox'.notFull ∨ pc'.coming := by
  cases hs with
  | waitNotFull _ => exact Or.inr trivial
  | _ => exact Or.inl h

/-- A poster begins to wait on a full mailbox only. -/
theorem PosterStep.waits (hs : PosterStep mbox pc mbox' pc') (hc : mbox.Counters)
    (hok : pc.Ok mbox) (hrange : mbox.InRange) (h : pc'.waits) :
    pc.waits ∨ mbox.first ≠ mbox.last := by
  cases hs with
  | enterWait =>
    have hfull := hc.full_iff.mp hok
    unfold Mbox.InRange at hrange
    right
    omega
  | unlockWait => exact Or.inl trivial
  | _ => exact absurd h id

/-- On an empty mailbox a poster on its way stays so until it has stored its message. -/
theorem PosterStep.coming (hs : PosterStep mbox pc mbox' pc') (hc : mbox.Counters)
    (hrange : mbox.InRange) (hempty : mbox.first = mbox.last) (h : pc.coming) :
    pc'.coming ∨ mbox'.first ≠ mbox'.last := by
  cases hs with
  | relock _ => exact Or.inl trivial
  | leaveWait => exact Or.inl trivial
  | room _ => exact Or.inl trivial
  | store => exact Or.inl trivial
  | full hfull =>
    have hfull := hc.full_iff.mp hfull
    unfold Mbox.InRange at hrange
    omega
  | fullTry hfull =>
    have hfull := hc.full_iff.mp hfull
    unfold Mbox.InRange at hrange
    omega
  | bumpLast =>
    right
    change mbox.first ≠ s32 (mbox.last + 1)
    rw [hc.s32_last]
    omega
  | _ => exact absurd h id

end Poster

/-! ### What a statement of the fetching thread does -/

section Fetcher

variable {mbox mbox' : Mbox μ} {pc pc' : FetcherPc μ}

theorem FetcherStep.lockEffect (hs : FetcherStep mbox pc mbox' pc') :
    Effect mbox.mutex mbox'.mutex pc.holds pc'.holds := by
  cases hs with
  | lock h => exact .acquire h rfl id trivial
  | relock h => exact .acquire h rfl id trivial
  | giveUp => exact .release (sysSemSignal_eq _) trivial id
  | unlockWait => exact .release (sysSemSignal_eq _) trivial id
  | unlock => exact .release (sysSemSignal_eq _) trivial id
  | _ => exact .keep rfl Iff.rfl

theorem FetcherStep.last_eq (hs : FetcherStep mbox pc mbox' pc') : mbox'.last = mbox.last := by
  cases hs <;> rfl

theorem FetcherStep.waitSend_eq (hs : FetcherStep mbox pc mbox' pc') :
    mbox'.waitSend = mbox.waitSend := by
  cases hs <;> rfl

/-- Only the statement `first++` changes `first`, by one. -/
theorem FetcherStep.first_cases (hs : FetcherStep mbox pc mbox' pc') (hc : mbox.Counters)
    (hok : pc.Ok mbox) :
    mbox'.first = mbox.first ∨
      mbox'.first = mbox.first + 1 ∧ mbox.first ≠ mbox.last ∧ pc.holds ∧ pc'.signals := by
  cases hs with
  | bumpFirst => exact Or.inr ⟨hc.s32_first, hok, trivial, trivial⟩
  | _ => exact Or.inl rfl

theorem FetcherStep.counters (hs : FetcherStep mbox pc mbox' pc') (hc : mbox.Counters)
    (hok : pc.Ok mbox) : mbox'.Counters := by
  have hlast := hs.last_eq
  rcases hs.first_cases hc hok with hfirst | ⟨hfirst, hne, -⟩
  · obtain ⟨h0, h1, h2, h3⟩ := hc
    constructor <;> simpa only [hfirst, hlast]
  · obtain ⟨h0, h1, h2, h3⟩ := hc
    constructor <;> simp only [hfirst, hlast] <;> omega

theorem FetcherStep.ok (hs : FetcherStep mbox pc mbox' pc') (hok : pc.Ok mbox) :
    pc'.Ok mbox' := by
  cases hs with
  | some h => exact h
  | take => exact hok
  | _ => trivial

/-- The fetching thread begins to wait on an empty mailbox only, and takes the token of
`not_empty` when it stops waiting. -/
theorem FetcherStep.waits (hs : FetcherStep mbox pc mbox' pc') (h : pc'.waits) :
    mbox'.first = mbox'.last ∨
      pc.waits ∧ mbox'.first = mbox.first ∧ mbox'.notEmpty = mbox.notEmpty := by
  cases hs with
  | empty hempty => exact Or.inl hempty
  | unlockWait => exact Or.inr ⟨trivial, rfl, rfl⟩
  | _ => exact absurd h id

/-- The fetching thread takes no token of `not_full` and gives one when posters wait. -/
theorem FetcherStep.notFull_pos (hs : FetcherStep mbox pc mbox' pc')
    (h : 0 < mbox.notFull ∨ pc.signals ∧ mbox.waitSend ≠ 0) : 0 < mbox'.notFull := by
  cases hs with
  | signal =>
    change 0 < if mbox.waitSend ≠ 0 then sysSemSignal mbox.notFull else mbox.notFull
    split
    · simp
    · next hzero =>
      rcases h with h | ⟨-, hne⟩
      · exact h
      · exact absurd hne hzero
  | _ =>
    rcases h with h | ⟨hsig, -⟩
    · exact h
    · exact absurd hsig id

end Fetcher

/-! ### The invariant -/

/-- Who holds the mutex, `none` standing for the fetching thread. -/
def Threads.holds (s : Threads μ ι) : Option ι → Prop
  | none => s.fetcher.holds
  | some i => (s.posters i).holds

variable [Fintype ι]

structure WakeUps (s : Threads μ ι) : Prop where
  counters : s.mbox.Counters
  exclusive : Exclusive s.holds s.mbox.mutex
  waitSend : s.mbox.waitSend = ∑ i, (s.posters i).share
  posterOk : ∀ i, (s.posters i).Ok s.mbox
  fetcherOk : s.fetcher.Ok s.mbox
  -- no signal of `not_empty` is lost
  notEmpty : s.fetcher.waits → s.mbox.first ≠ s.mbox.last →
    0 < s.mbox.notEmpty ∨ ∃ i, s.posters i = .signal true
  -- no signal of `not_full` is lost
  notFull : s.mbox.InRange → s.mbox.first = s.mbox.last → (∃ i, (s.posters i).waits) →
    0 < s.mbox.notFull ∨ s.fetcher.signals ∨ ∃ i, (s.posters i).coming

theorem PosterPc.share_nonneg (pc : PosterPc μ) : 0 ≤ pc.share := by
  rw [PosterPc.share]
  split <;> decide

theorem PosterPc.share_of_waits {pc : PosterPc μ} (h : pc.waits) : pc.share = 1 := by
  cases pc with
  | unlockWait => rfl
  | waitNotFull => rfl
  | _ => exact absurd h id

/-- A waiting poster is counted. -/
theorem WakeUps.waitSend_ne_zero {s : Threads μ ι} (h : WakeUps s) {i : ι}
    (hi : (s.posters i).waits) : s.mbox.waitSend ≠ 0 := by
  have hle : (s.posters i).share ≤ ∑ j, (s.posters j).share :=
    Finset.single_le_sum (fun j _ => (s.posters j).share_nonneg) (Finset.mem_univ i)
  rw [PosterPc.share_of_waits hi] at hle
  rw [h.waitSend]
  omega

theorem WakeUps.start {s : Threads μ ι} (hmbox : ∃ msgs, s.mbox = sysMboxNew msgs)
    (hposters : ∀ i, s.posters i = .idle) (hfetcher : s.fetcher = .idle) : WakeUps s := by
  obtain ⟨msgs, hmbox⟩ := hmbox
  constructor
  · rw [hmbox]
    exact .new msgs
  · have hnone : ∀ a, ¬ s.holds a := by
      intro a
      cases a with
      | none => simp [Threads.holds, hfetcher, FetcherPc.holds]
      | some i => simp [Threads.holds, hposters i, PosterPc.holds]
    rw [hmbox]
    exact ⟨le_rfl, fun a _ ha => absurd ha (hnone a), fun _ => hnone, fun _ => rfl⟩
  · simp [hmbox, hposters, PosterPc.share, PosterPc.counted, sysMboxNew]
  · intro i
    rw [hposters i]
    trivial
  · rw [hfetcher]
    trivial
  · intro hw
    rw [hfetcher] at hw
    exact absurd hw id
  · rintro - - ⟨i, hi⟩
    rw [hposters i] at hi
    exact absurd hi id

theorem WakeUps.poster [DecidableEq ι] {s : Threads μ ι} (h : WakeUps s) {i : ι} {mbox : Mbox μ}
    {pc : PosterPc μ} (hs : PosterStep s.mbox (s.posters i) mbox pc) :
    WakeUps (⟨mbox, Function.update s.posters i pc, s.fetcher⟩ : Threads μ ι) := by
  have hself : Function.update s.posters i pc i = pc := Function.update_self ..
  have hother : ∀ j, j ≠ i → Function.update s.posters i pc j = s.posters j :=
    fun j hj => Function.update_of_ne hj ..
  have hlast := hs.last_cases h.counters (h.posterOk i)
  -- `last` moves only while this poster holds the mutex, and then no other thread does
  have hkeep : ∀ a, a ≠ some i → s.holds a → mbox.first = s.mbox.first ∧ mbox.last = s.mbox.last := by
    intro a ha hholds
    refine ⟨hs.first_eq, ?_⟩
    rcases hlast with ⟨hsame, -⟩ | ⟨-, -, hpc, -⟩
    · exact hsame
    · have hi : s.holds (some i) := by simp [Threads.holds, hpc, PosterPc.holds]
      exact absurd hholds (h.exclusive.others hi ha)
  constructor
  · exact hs.counters h.counters (h.posterOk i)
  · refine h.exclusive.step (a := some i) ?_ ?_
    · intro b hb
      cases b with
      | none => exact Iff.rfl
      | some j => simp only [Threads.holds, hother j fun hj => hb (congrArg some hj)]
    · simpa only [Threads.holds, hself] using hs.lockEffect
  · rw [sum_update s.posters PosterPc.share i pc, ← h.waitSend]
    exact hs.waitSend_eq
  · intro j
    by_cases hj : j = i
    · rw [hj]
      simpa only [hself] using hs.ok (h.posterOk i)
    · simp only [hother j hj]
      exact (h.posterOk j).congr (hkeep (some j) fun hji => hj (Option.some.inj hji))
  · exact h.fetcherOk.congr (hkeep none nofun)
  · intro hw hne
    simp only at hne ⊢
    by_cases hempty : s.mbox.first = s.mbox.last
    · -- the first message: this poster is about to signal
      rcases hlast with ⟨hsame, -⟩ | ⟨-, -, -, hpc⟩
      · rw [hs.first_eq, hsame] at hne
        exact absurd hempty hne
      · refine Or.inr ⟨i, ?_⟩
        rw [hself, hpc, decide_eq_true hempty.symm]
    · rcases h.notEmpty hw hempty with htoken | ⟨j, hj⟩
      · exact Or.inl (hs.notEmpty_pos (Or.inl htoken))
      · by_cases hji : j = i
        · rw [hji] at hj
          exact Or.inl (hs.notEmpty_pos (Or.inr hj))
        · exact Or.inr ⟨j, by rw [hother j hji, hj]⟩
  · rintro hrange hempty ⟨j, hj⟩
    simp only at hrange hempty hj ⊢
    have hrange' : s.mbox.InRange := by
      unfold Mbox.InRange at hrange ⊢
      rw [← hs.first_eq]
      exact hrange
    have hempty' : s.mbox.first = s.mbox.last := by
      have hle := h.counters.first_le_last
      have hfirst := hs.first_eq
      rcases hlast with ⟨hsame, -⟩ | ⟨hsucc, -⟩
      · omega
      · omega
    have hwaits : ∃ k, (s.posters k).waits := by
      by_cases hji : j = i
      · rw [hji, hself] at hj
        rcases hs.waits h.counters (h.posterOk i) hrange' hj with hw | hne
        · exact ⟨i, hw⟩
        · exact absurd hempty' hne
      · rw [hother j hji] at hj
        exact ⟨j, hj⟩
    rcases h.notFull hrange' hempty' hwaits with htoken | hsig | ⟨k, hk⟩
    · rcases hs.notFull_pos htoken with htoken | hcoming
      · exact Or.inl htoken
      · exact Or.inr (Or.inr ⟨i, by rw [hself]; exact hcoming⟩)
    · exact Or.inr (Or.inl hsig)
    · by_cases hki : k = i
      · rw [hki] at hk
        rcases hs.coming h.counters hrange' hempty' hk with hcoming | hne
        · exact Or.inr (Or.inr ⟨i, by rw [hself]; exact hcoming⟩)
        · exact absurd hempty hne
      · exact Or.inr (Or.inr ⟨k, by rw [hother k hki]; exact hk⟩)

theorem WakeUps.fetcher {s : Threads μ ι} (h : WakeUps s) {mbox : Mbox μ} {pc : FetcherPc μ}
    (hs : FetcherStep s.mbox s.fetcher mbox pc) :
    WakeUps (⟨mbox, s.posters, pc⟩ : Threads μ ι) := by
  have hfirst := hs.first_cases h.counters h.fetcherOk
  -- `first` moves only while the fetching thread holds the mutex
  have hkeep : ∀ i, (s.posters i).holds →
      mbox.first = s.mbox.first ∧ mbox.last = s.mbox.last := by
    intro i hi
    refine ⟨?_, hs.last_eq⟩
    rcases hfirst with hsame | ⟨-, -, hholds, -⟩
    · exact hsame
    · exact absurd hi (h.exclusive.others (a := none) (b := some i) hholds nofun)
  constructor
  · exact hs.counters h.counters h.fetcherOk
  · refine h.exclusive.step (a := none) ?_ hs.lockEffect
    intro b hb
    cases b with
    | none => exact absurd rfl hb
    | some i => exact Iff.rfl
  · exact hs.waitSend_eq.trans h.waitSend
  · intro i
    exact (h.posterOk i).congr (hkeep i)
  · exact hs.ok h.fetcherOk
  · intro hw hne
    rcases hs.waits hw with hempty | ⟨hw', hf, hn⟩
    · exact absurd hempty hne
    · have hne' : s.mbox.first ≠ s.mbox.last := by
        rw [← hf, ← hs.last_eq]
        exact hne
      simp only [hn]
      exact h.notEmpty hw' hne'
  · rintro hrange hempty ⟨i, hi⟩
    simp only at hrange hempty hi ⊢
    have hlast := hs.last_eq
    rcases hfirst with hsame | ⟨-, -, -, hsig⟩
    · have hrange' : s.mbox.InRange := by
        unfold Mbox.InRange at hrange ⊢
        rw [← hsame]
        exact hrange
      rcases h.notFull hrange' (by omega) ⟨i, hi⟩ with htoken | hsig | hcoming
      · exact Or.inl (hs.notFull_pos (Or.inl htoken))
      · exact Or.inl (hs.notFull_pos (Or.inr ⟨hsig, h.waitSend_ne_zero hi⟩))
      · exact Or.inr (Or.inr hcoming)
    · exact Or.inr (Or.inl hsig)

theorem WakeUps.post [DecidableEq ι] {s : Threads μ ι} (h : WakeUps s) {i : ι}
    (hi : s.posters i = .idle) (msg : μ) (trypost : Bool) :
    WakeUps { s with posters := Function.update s.posters i (.lock msg trypost) } := by
  have hself : Function.update s.posters i (.lock msg trypost) i = .lock msg trypost :=
    Function.update_self ..
  have hother : ∀ j, j ≠ i → Function.update s.posters i (.lock msg trypost) j = s.posters j :=
    fun j hj => Function.update_of_ne hj ..
  -- beginning a call changes no region the invariant speaks of
  have hregion : ∀ P : PosterPc μ → Prop, ¬ P .idle → ¬ P (.lock msg trypost) →
      ∀ j, P (Function.update s.posters i (.lock msg trypost) j) ↔ P (s.posters j) := by
    intro P hidle hlock j
    by_cases hj : j = i
    · rw [hj, hself, hi]
      exact iff_of_false hlock hidle
    · rw [hother j hj]
  constructor
  · exact h.counters
  · refine h.exclusive.step (a := some i) ?_ (.keep rfl ?_)
    · intro b _
      cases b with
      | none => exact Iff.rfl
      | some j => exact hregion PosterPc.holds id id j
    · exact (hregion PosterPc.holds id id i).symm
  · rw [sum_update s.posters PosterPc.share i, ← h.waitSend, hi]
    simp [PosterPc.share, PosterPc.counted]
  · intro j
    by_cases hj : j = i
    · rw [hj]
      simp only [hself]
      trivial
    · simp only [hother j hj]
      exact h.posterOk j
  · exact h.fetcherOk
  · intro hw hne
    simp only [hregion (· = .signal true) nofun nofun]
    exact h.notEmpty hw hne
  · intro hrange hempty hwaits
    simp only [hregion PosterPc.waits id id, hregion PosterPc.coming id id] at hwaits ⊢
    exact h.notFull hrange hempty hwaits

theorem WakeUps.fetch {s : Threads μ ι} (h : WakeUps s) (hidle : s.fetcher = .idle)
    (call : FetchCall) : WakeUps { s with fetcher := .lock call } := by
  constructor
  · exact h.counters
  · have hsame : ¬ s.fetcher.holds := by
      rw [hidle]
      exact id
    refine h.exclusive.step (a := none) ?_ (.keep rfl (iff_of_false hsame id))
    intro b hb
    cases b with
    | none => exact absurd rfl hb
    | some i => exact Iff.rfl
  · exact h.waitSend
  · exact h.posterOk
  · trivial
  · intro hw
    exact absurd hw id
  · intro hrange hempty hwaits
    rcases h.notFull hrange hempty hwaits with htoken | hsig | hcoming
    · exact Or.inl htoken
    · rw [hidle] at hsig
      exact absurd hsig id
    · exact Or.inr (Or.inr hcoming)

theorem wakeUps_of_reachable [DecidableEq ι] {s : Threads μ ι}
    (h : (stepSystem μ ι).Reachable s) : WakeUps s := by
  apply System.ReachableWhile.invariant ?_ ?_ h
  · rintro s ⟨hmbox, hposters, hfetcher⟩
    exact .start hmbox hposters hfetcher
  · intro s a t hinv _ hstep
    cases a with
    | post i msg trypost =>
      obtain ⟨hidle, rfl⟩ := hstep
      exact hinv.post hidle msg trypost
    | poster i =>
      obtain ⟨mbox, pc, hs, rfl⟩ := hstep
      exact hinv.poster hs
    | fetch call =>
      obtain ⟨hidle, rfl⟩ := hstep
      exact hinv.fetch hidle call
    | fetcher =>
      obtain ⟨mbox, pc, hs, rfl⟩ := hstep
      exact hinv.fetcher hs

/-! ### What it means for blocked threads -/

/-- A thread that holds the mutex has a statement to execute. -/
theorem PosterPc.not_blocked_of_holds {pc : PosterPc μ} (h : pc.holds) (mbox : Mbox μ) :
    pc ≠ .idle ∧ ¬ pc.Blocked mbox := by
  cases pc <;> first | exact absurd h id | exact ⟨nofun, id⟩

theorem FetcherPc.not_blocked_of_holds {pc : FetcherPc μ} (h : pc.holds) (mbox : Mbox μ) :
    ¬ pc.Blocked mbox := by
  cases pc <;> first | exact absurd h id | exact id

/-- When every thread in a call is blocked the mutex is free. -/
theorem WakeUps.mutex_of_stuck {s : Threads μ ι} (h : WakeUps s) (hstuck : s.Stuck) :
    s.mbox.mutex ≠ 0 := by
  intro hzero
  obtain ⟨a, ha⟩ := h.exclusive.exists_holder hzero
  obtain ⟨hfetcher, hposters⟩ := hstuck
  cases a with
  | none => exact FetcherPc.not_blocked_of_holds ha s.mbox hfetcher
  | some i =>
    obtain ⟨hidle, hblocked⟩ := PosterPc.not_blocked_of_holds ha s.mbox
    rcases hposters i with hi | hi
    · exact hidle hi
    · exact hblocked hi

/-- If everybody is blocked no message is waiting in the mailbox. -/
theorem WakeUps.empty_of_stuck {s : Threads μ ι} (h : WakeUps s) (hstuck : s.Stuck) :
    s.mbox.first = s.mbox.last := by
  have hmutex := h.mutex_of_stuck hstuck
  obtain ⟨hfetcher, hposters⟩ := hstuck
  by_contra hne
  cases hpc : s.fetcher with
  | waitNotEmpty timeout =>
    rw [hpc] at hfetcher
    have hw : s.fetcher.waits := by
      rw [hpc]
      trivial
    rcases h.notEmpty hw hne with htoken | ⟨i, hi⟩
    · exact htoken.ne' hfetcher
    · rcases hposters i with hidle | hblocked
      · rw [hi] at hidle
        cases hidle
      · rw [hi] at hblocked
        exact hblocked
  | lock call =>
    rw [hpc] at hfetcher
    exact hmutex hfetcher
  | relock timeout =>
    rw [hpc] at hfetcher
    exact hmutex hfetcher
  | _ =>
    rw [hpc] at hfetcher
    exact hfetcher

/-- Nor is one in the hands of a poster. -/
theorem WakeUps.idle_of_stuck {s : Threads μ ι} (h : WakeUps s) (hrange : s.mbox.InRange)
    (hstuck : s.Stuck) (i : ι) : s.posters i = .idle := by
  have hmutex := h.mutex_of_stuck hstuck
  have hempty := h.empty_of_stuck hstuck
  obtain ⟨hfetcher, hposters⟩ := hstuck
  rcases hposters i with hidle | hblocked
  · exact hidle
  · cases hpc : s.posters i with
    | waitNotFull msg =>
      rw [hpc] at hblocked
      have hw : (s.posters i).waits := by
        rw [hpc]
        trivial
      rcases h.notFull hrange hempty ⟨i, hw⟩ with htoken | hsig | ⟨j, hj⟩
      · exact absurd hblocked htoken.ne'
      · cases hf : s.fetcher with
        | signal msg =>
          rw [hf] at hfetcher
          exact absurd hfetcher id
        | _ =>
          rw [hf] at hsig
          exact absurd hsig id
      · rcases hposters j with hidle | hblocked
        · rw [hidle] at hj
          exact absurd hj id
        · cases hp : s.posters j with
          | relock msg =>
            rw [hp] at hblocked
            exact absurd hblocked hmutex
          | lock msg trypost =>
            rw [hp] at hj
            exact absurd hj id
          | waitNotFull msg =>
            rw [hp] at hj
            exact absurd hj id
          | _ =>
            rw [hp] at hblocked
            exact absurd hblocked id
    | lock msg trypost =>
      rw [hpc] at hblocked
      exact absurd hblocked hmutex
    | relock msg =>
      rw [hpc] at hblocked
      exact absurd hblocked hmutex
    | idle => rfl
    | _ =>
      rw [hpc] at hblocked
      exact absurd hblocked id

/-- A thread blocked on `not_empty` faces an empty mailbox or is about to be woken. -/
def FetcherWoken (s : Threads μ ι) : Prop :=
  ∀ timeout, s.fetcher = .waitNotEmpty timeout → s.mbox.notEmpty = 0 →
    s.mbox.first = s.mbox.last ∨ ∃ i, (s.posters i).signals

/-- A poster blocked on `not_full`, while no thread is between an index update and its
signal. -/
def PosterBlocked (s : Threads μ ι) : Prop :=
  (∃ i msg, s.posters i = .waitNotFull msg) ∧ s.mbox.notFull = 0 ∧ ¬ s.fetcher.signals ∧
    ∀ i, ¬ (s.posters i).signals

section Uncontended

variable [DecidableEq ι] {mbox mbox' : Mbox μ} {posters : ι → PosterPc μ} {i : ι}
  {pc pc' : PosterPc μ} {fetcher fetcher' : FetcherPc μ}

omit [Fintype ι]

theorem reachable_begin (h : (stepSystem μ ι).Reachable ⟨mbox, posters, fetcher⟩)
    (hi : posters i = .idle) (msg : μ) (trypost : Bool) :
    (stepSystem μ ι).Reachable
      ⟨mbox, Function.update posters i (.lock msg trypost), fetcher⟩ := by
  have hs : (stepSystem μ ι).step ⟨mbox, posters, fetcher⟩ (.post i msg trypost)
      ⟨mbox, Function.update posters i (.lock msg trypost), fetcher⟩ := ⟨hi, rfl⟩
  exact h.step hs

theorem reachable_poster
    (h : (stepSystem μ ι).Reachable ⟨mbox, Function.update posters i pc, fetcher⟩)
    (hs : PosterStep mbox pc mbox' pc') :
    (stepSystem μ ι).Reachable ⟨mbox', Function.update posters i pc', fetcher⟩ := by
  have hs' : (stepSystem μ ι).step ⟨mbox, Function.update posters i pc, fetcher⟩ (.poster i)
      ⟨mbox', Function.update posters i pc', fetcher⟩ := by
    refine ⟨mbox', pc', ?_, ?_⟩
    · simpa only [Function.update_self] using hs
    · simp only [Function.update_idem]
  exact h.step hs'

theorem reachable_fetcher (h : (stepSystem μ ι).Reachable ⟨mbox, posters, fetcher⟩)
    (hs : FetcherStep mbox fetcher mbox' fetcher') :
    (stepSystem μ ι).Reachable ⟨mbox', posters, fetcher'⟩ := by
  have hs' : (stepSystem μ ι).step ⟨mbox, posters, fetcher⟩ .fetcher
      ⟨mbox', posters, fetcher'⟩ := ⟨mbox', fetcher', hs, rfl⟩
  exact h.step hs'

/-- A call of `sys_mbox_post` that finds room and is not disturbed. -/
theorem reachable_post (h : (stepSystem μ ι).Reachable ⟨mbox, posters, fetcher⟩)
    (hi : posters i = .idle) (hmutex : mbox.mutex = 1) (hroom : ¬ mbox.full) (msg : μ) :
    ∃ mbox', (stepSystem μ ι).Reachable ⟨mbox', posters, fetcher⟩ ∧
      mbox'.first = mbox.first ∧ mbox'.last = s32 (mbox.last + 1) ∧ mbox'.mutex = 1 ∧
      mbox'.notFull = mbox.notFull ∧ mbox'.waitSend = mbox.waitSend := by
  have hlock := reachable_poster (reachable_begin h hi msg false) (.lock (by omega))
  have hcheck := reachable_poster hlock (.room hroom)
  have hdone := reachable_poster (reachable_poster (reachable_poster
    (reachable_poster hcheck .store) .bumpLast) .signal) .unlock
  rw [← hi, Function.update_eq_self] at hdone
  exact ⟨_, hdone, rfl, rfl, sysSemSignal_eq _, rfl, rfl⟩

/-- A call of `sys_mbox_post` that finds the mailbox full, up to its wait. -/
theorem reachable_block (h : (stepSystem μ ι).Reachable ⟨mbox, posters, fetcher⟩)
    (hi : posters i = .idle) (hmutex : mbox.mutex = 1) (hfull : mbox.full) (msg : μ) :
    ∃ mbox', (stepSystem μ ι).Reachable
        ⟨mbox', Function.update posters i (.waitNotFull msg), fetcher⟩ ∧
      mbox'.first = mbox.first ∧ mbox'.last = mbox.last ∧ mbox'.mutex = 1 ∧
      mbox'.notFull = mbox.notFull ∧ mbox'.waitSend = mbox.waitSend + 1 := by
  have hlock := reachable_poster (reachable_begin h hi msg false) (.lock (by omega))
  have hcheck := reachable_poster hlock (.full hfull)
  have hwait := reachable_poster (reachable_poster hcheck .enterWait) .unlockWait
  exact ⟨_, hwait, rfl, rfl, sysSemSignal_eq _, rfl, rfl⟩

/-- A call of `sys_arch_mbox_tryfetch` that finds a message and is not disturbed. -/
theorem reachable_tryfetch (h : (stepSystem μ ι).Reachable ⟨mbox, posters, .idle⟩)
    (hmutex : mbox.mutex = 1) (hne : mbox.first ≠ mbox.last) :
    ∃ mbox', (stepSystem μ ι).Reachable ⟨mbox', posters, .idle⟩ ∧
      mbox'.first = s32 (mbox.first + 1) ∧ mbox'.last = mbox.last ∧ mbox'.mutex = 1 ∧
      (mbox.waitSend ≠ 0 → mbox'.notFull = 1) ∧ mbox'.waitSend = mbox.waitSend := by
  have hs : (stepSystem μ ι).step ⟨mbox, posters, .idle⟩ (.fetch .tryfetch)
      ⟨mbox, posters, .lock .tryfetch⟩ := ⟨rfl, rfl⟩
  have hlock := reachable_fetcher (h.step hs) (.lock (by omega))
  have hcheck := reachable_fetcher hlock (.some hne)
  have hdone := reachable_fetcher (reachable_fetcher (reachable_fetcher
    (reachable_fetcher hcheck .take) .bumpFirst) .signal) .unlock
  refine ⟨_, hdone, rfl, rfl, sysSemSignal_eq _, ?_, rfl⟩
  intro hwait
  exact (if_pos hwait).trans (sysSemSignal_eq _)

end Uncontended

/-- One poster fills the mailbox. -/
theorem reachable_filled (n : ℕ) (hn : n ≤ 127) :
    ∃ mbox, (stepSystem Unit Bool).Reachable ⟨mbox, fun _ => .idle, .idle⟩ ∧
      mbox.first = 0 ∧ mbox.last = n ∧ mbox.mutex = 1 ∧ mbox.notFull = 0 ∧ mbox.waitSend = 0 := by
  induction n with
  | zero =>
    exact ⟨sysMboxNew fun _ => (), .of_start ⟨⟨_, rfl⟩, fun _ => rfl, rfl⟩, rfl, rfl, rfl, rfl, rfl⟩
  | succ n ih =>
    obtain ⟨mbox, h, hfirst, hlast, hmutex, hfull, hwait⟩ := ih (by omega)
    have hc : mbox.Counters := (wakeUps_of_reachable h).counters
    have hroom : ¬ mbox.full := by
      rw [hc.full_iff]
      rw [SYS_MBOX_SIZE]
      omega
    obtain ⟨mbox', h', hfirst', hlast', hmutex', hfull', hwait'⟩ :=
      reachable_post (i := false) h rfl hmutex hroom ()
    refine ⟨mbox', h', hfirst'.trans hfirst, ?_, hmutex', hfull'.trans hfull, hwait'.trans hwait⟩
    have hs : s32 (mbox.last + 1) = mbox.last + 1 := hc.s32_last
    push_cast
    omega

/-- The fetching thread empties it while posters wait. -/
theorem reachable_drained {posters : Bool → PosterPc Unit} {mbox : Mbox Unit}
    (h : (stepSystem Unit Bool).Reachable ⟨mbox, posters, .idle⟩) (hfirst : mbox.first = 0)
    (hlast : mbox.last = 127) (hmutex : mbox.mutex = 1) (hwait : mbox.waitSend ≠ 0) (n : ℕ)
    (hn : n ≤ 127) :
    ∃ mbox', (stepSystem Unit Bool).Reachable ⟨mbox', posters, .idle⟩ ∧ mbox'.first = n ∧
      mbox'.last = 127 ∧ mbox'.mutex = 1 ∧ (0 < n → mbox'.notFull = 1) ∧ mbox'.waitSend ≠ 0 := by
  induction n with
  | zero => exact ⟨mbox, h, hfirst, hlast, hmutex, nofun, hwait⟩
  | succ n ih =>
    obtain ⟨m, h', hfirst', hlast', hmutex', -, hwait'⟩ := ih (by omega)
    obtain ⟨m', h'', hf, hl, hm, hn, hw⟩ := reachable_tryfetch h' hmutex' (by omega)
    have hs : s32 (m.first + 1) = m.first + 1 := (wakeUps_of_reachable h').counters.s32_first
    refine ⟨m', h'', ?_, hl.trans hlast', hm, fun _ => hn hwait', by rw [hw]; exact hwait'⟩
    push_cast
    omega

end QuietLwip.Mailbox
