import QuietLwip.Foundation.Deltas
import QuietLwip.Foundation.Transition

/-!
# The list of timeouts

`timers.c` keeps the timeouts of a thread in a list of differences. The times are of 32 bits; an
addition or a subtraction that would wrap is a fault here, and so is the assertion of `sys_timeout`.
-/

namespace QuietLwip.Timers

open Deltas Transition

variable {η α : Type}

/-- What a timeout is for: `h` and `arg` of a `struct sys_timeo`, and the address of the struct. -/
structure Callout (η α : Type) where
  addr : ℕ
  h : η
  arg : α
  deriving DecidableEq

/-- `struct sys_timeo`; `time` counts from the entry in front of it. -/
structure SysTimeo (η α : Type) where
  time : UInt32
  callout : Callout η α

inductive Fault where
  -- `MEMP_SYS_TIMEOUT` is empty
  | pool
  -- the result does not fit
  | wrap
  deriving DecidableEq

def sub (a b : UInt32) : Except Fault UInt32 := if b ≤ a then .ok (a - b) else .error .wrap

def add (a b : UInt32) : Except Fault UInt32 :=
  if a.toNat + b.toNat < 2 ^ 32 then .ok (a + b) else .error .wrap

/-- The loop of `sys_timeout`, from the entry `t` on. -/
def insertBehind (timeout t : SysTimeo η α) :
    List (SysTimeo η α) → Except Fault (List (SysTimeo η α))
  | [] => do
    let time ← sub timeout.time t.time
    return [t, { timeout with time := time }]
  | next :: rest => do
    let time ← sub timeout.time t.time
    if next.time > time then
      let nextTime ← sub next.time time
      return t :: { timeout with time := time } :: { next with time := nextTime } :: rest
    else
      let rest ← insertBehind { timeout with time := time } next rest
      return t :: rest

/-- `sys_timeout`; `timeout` is what `memp_malloc` returns. -/
def sysTimeout (timeout : Option ℕ) (msecs : UInt32) (handler : η) (arg : α)
    (nextTimeout : List (SysTimeo η α)) : Except Fault (List (SysTimeo η α)) :=
  match timeout with
  | none => .error .pool
  | some n =>
    let timeout := ⟨msecs, n, handler, arg⟩
    match nextTimeout with
    | [] => .ok [timeout]
    | t :: ts =>
      if t.time > msecs then do
        let time ← sub t.time msecs
        return timeout :: { t with time := time } :: ts
      else insertBehind timeout t ts

/-- The time of an entry that is unlinked is added back to the next one. -/
def giveBack (time : UInt32) : List (SysTimeo η α) → Except Fault (List (SysTimeo η α))
  | [] => .ok []
  | next :: rest => do
    let nextTime ← add next.time time
    return { next with time := nextTime } :: rest

/-- `sys_untimeout`. -/
def sysUntimeout [DecidableEq η] [DecidableEq α] (handler : η) (arg : α) :
    List (SysTimeo η α) → Except Fault (List (SysTimeo η α))
  | [] => .ok []
  | t :: ts =>
    if t.callout.h = handler ∧ t.callout.arg = arg then giveBack t.time ts
    else do
      let ts ← sysUntimeout handler arg ts
      return t :: ts

/-- What `sys_timeouts_mbox_fetch` takes off the first entry for the time that it waited. -/
def SysTimeo.deduct (t : SysTimeo η α) (timeNeeded : UInt32) : SysTimeo η α :=
  { t with time := if timeNeeded < t.time then t.time - timeNeeded else 0 }

/-! ### When the entries expire -/

def deltas (l : List (SysTimeo η α)) : List (ℕ × Callout η α) :=
  l.map fun t => (t.time.toNat, t.callout)

/-- The entries with the sums of the times up to their own. -/
def expiries (l : List (SysTimeo η α)) : List (ℕ × Callout η α) := sums 0 (deltas l)

/-- The sum of all times. -/
def span (l : List (SysTimeo η α)) : ℕ := total (deltas l)

variable {l l' : List (SysTimeo η α)} {handler : η} {arg : α} {n k : ℕ} {msecs : UInt32}

theorem deltas_cons (t : SysTimeo η α) (l : List (SysTimeo η α)) :
    deltas (t :: l) = (t.time.toNat, t.callout) :: deltas l := rfl

/-- The list after a call, whose entries expire within 32 bits. -/
theorem span_lt (h : ∀ e ∈ expiries l, e.1 < 2 ^ 32) : span l < 2 ^ 32 := by
  have htotal := total_lt (Nat.two_pow_pos 32) h
  rw [Nat.zero_add] at htotal
  exact htotal

theorem lt_of_mem_expiries {e : ℕ × Callout η α} (h : span l < 2 ^ 32) (he : e ∈ expiries l) :
    e.1 < 2 ^ 32 := by
  have hle := le_total_of_mem_sums he
  rw [Nat.zero_add] at hle
  exact hle.trans_lt h

theorem callout_of_mem_sums {base : ℕ} {e : ℕ × Callout η α} (he : e ∈ sums base (deltas l)) :
    ∃ t ∈ l, t.callout = e.2 := by
  induction l generalizing base with
  | nil => exact absurd he List.not_mem_nil
  | cons t ts ih =>
    rw [deltas_cons, sums_cons] at he
    rcases List.mem_cons.mp he with rfl | he
    · exact ⟨t, List.mem_cons_self, rfl⟩
    · obtain ⟨u, hu, hcallout⟩ := ih he
      exact ⟨u, List.mem_cons_of_mem t hu, hcallout⟩

/-! ### `sys_timeout` -/

theorem sub_ok {a b : UInt32} (h : b.toNat ≤ a.toNat) :
    sub a b = .ok (a - b) ∧ (a - b).toNat = a.toNat - b.toNat :=
  ⟨if_pos (UInt32.le_iff_toNat_le.mpr h), UInt32.toNat_sub_of_le _ _ (UInt32.le_iff_toNat_le.mpr h)⟩

/-- The entry goes behind those that expire no later. -/
theorem insertBehind_spec (timeout t : SysTimeo η α) (rest : List (SysTimeo η α)) (base : ℕ)
    (h : t.time.toNat ≤ timeout.time.toNat) : ∃ l', insertBehind timeout t rest = .ok l' ∧
      Inserts (base + timeout.time.toNat, timeout.callout) (sums base (deltas (t :: rest)))
        (sums base (deltas l')) := by
  induction rest generalizing t timeout base with
  | nil =>
    obtain ⟨hsub, htime⟩ := sub_ok h
    have hbase : base + t.time.toNat + (timeout.time.toNat - t.time.toNat) =
        base + timeout.time.toNat := by omega
    refine ⟨[t, { timeout with time := timeout.time - t.time }], ?_, ?_⟩
    · rw [insertBehind, hsub]
      rfl
    · simp only [deltas_cons, sums_cons, htime]
      rw [hbase]
      exact (Inserts.nil _).cons (Nat.add_le_add_left h base)
  | cons next rest ih =>
    obtain ⟨hsub, htime⟩ := sub_ok h
    have hbase : base + t.time.toNat + (timeout.time.toNat - t.time.toNat) =
        base + timeout.time.toNat := by omega
    by_cases hlater : next.time > timeout.time - t.time
    · have hlt : (timeout.time - t.time).toNat < next.time.toNat := UInt32.lt_iff_toNat_lt.mp hlater
      obtain ⟨hsub', htime'⟩ := sub_ok hlt.le
      refine ⟨t :: { timeout with time := timeout.time - t.time } ::
        { next with time := next.time - (timeout.time - t.time) } :: rest, ?_, ?_⟩
      · rw [insertBehind, hsub]
        simp only [bind, Except.bind, if_pos hlater, hsub']
        rfl
      · rw [htime] at hlt htime'
        have hfront := inserts_front (base + t.time.toNat) next.callout timeout.callout
          (deltas rest) hlt
        simp only [deltas_cons, htime, htime'] at hfront ⊢
        rw [hbase] at hfront
        exact hfront.cons (Nat.add_le_add_left h base)
    · have hle : next.time.toNat ≤ (timeout.time - t.time).toNat :=
        UInt32.le_iff_toNat_le.mp (UInt32.not_lt.mp hlater)
      obtain ⟨rest', hrest, hins⟩ := ih { timeout with time := timeout.time - t.time } next
        (base + t.time.toNat) hle
      refine ⟨t :: rest', ?_, ?_⟩
      · rw [insertBehind, hsub]
        simp only [bind, Except.bind, if_neg hlater, hrest]
        rfl
      · simp only [htime] at hins
        rw [hbase] at hins
        exact hins.cons (Nat.add_le_add_left h base)

/-- One entry is added, behind those that expire no later. -/
theorem sysTimeout_spec (l : List (SysTimeo η α)) (n : ℕ) (msecs : UInt32) (handler : η) (arg : α) :
    ∃ l', sysTimeout (some n) msecs handler arg l = .ok l' ∧
      Inserts (msecs.toNat, ⟨n, handler, arg⟩) (expiries l) (expiries l') := by
  have hzero : 0 + msecs.toNat = msecs.toNat := Nat.zero_add _
  cases l with
  | nil =>
    refine ⟨[⟨msecs, n, handler, arg⟩], rfl, ?_⟩
    have hnil := Inserts.nil (msecs.toNat, (⟨n, handler, arg⟩ : Callout η α))
    rw [← hzero] at hnil ⊢
    exact hnil
  | cons t ts =>
    by_cases hfirst : t.time > msecs
    · have hlt : msecs.toNat < t.time.toNat := UInt32.lt_iff_toNat_lt.mp hfirst
      obtain ⟨hsub, htime⟩ := sub_ok hlt.le
      refine ⟨⟨msecs, n, handler, arg⟩ :: { t with time := t.time - msecs } :: ts, ?_, ?_⟩
      · simp only [sysTimeout, if_pos hfirst, hsub]
        rfl
      · have hfront := inserts_front 0 t.callout (⟨n, handler, arg⟩ : Callout η α) (deltas ts) hlt
        rw [← htime, hzero] at hfront
        exact hfront
    · have hle : t.time.toNat ≤ msecs.toNat := UInt32.le_iff_toNat_le.mp (UInt32.not_lt.mp hfirst)
      obtain ⟨l', hrun, hins⟩ := insertBehind_spec ⟨msecs, n, handler, arg⟩ t ts 0 hle
      rw [hzero] at hins
      refine ⟨l', ?_, hins⟩
      simp only [sysTimeout, if_neg hfirst]
      exact hrun

/-! ### `sys_untimeout` -/

theorem add_ok {a b : UInt32} (h : a.toNat + b.toNat < 2 ^ 32) :
    add a b = .ok (a + b) ∧ (a + b).toNat = a.toNat + b.toNat := by
  refine ⟨if_pos h, ?_⟩
  rw [UInt32.toNat_add, Nat.mod_eq_of_lt h]

/-- Whether `sys_untimeout` takes the entry. -/
def Callout.matches [DecidableEq η] [DecidableEq α] (handler : η) (arg : α) (c : Callout η α) :
    Bool := c.h = handler ∧ c.arg = arg

/-- The entries behind expire when they did. -/
theorem giveBack_spec (time : UInt32) (l : List (SysTimeo η α)) (base : ℕ)
    (h : time.toNat + span l < 2 ^ 32) : ∃ l', giveBack time l = .ok l' ∧
      sums base (deltas l') = sums (base + time.toNat) (deltas l) := by
  cases l with
  | nil => exact ⟨[], rfl, rfl⟩
  | cons next rest =>
    rw [span, deltas_cons, total_cons] at h
    obtain ⟨hadd, htime⟩ := add_ok (a := next.time) (b := time) (by omega)
    refine ⟨{ next with time := next.time + time } :: rest, ?_, ?_⟩
    · rw [giveBack, hadd]
      rfl
    · rw [deltas_cons next, sums_add_base, Nat.add_comm time.toNat, ← htime]
      rfl

variable [DecidableEq η] [DecidableEq α]

/-- The first entry that matches is removed, and the others expire when they did. -/
theorem sysUntimeout_spec (handler : η) (arg : α) (l : List (SysTimeo η α)) (base : ℕ)
    (h : span l < 2 ^ 32) : ∃ l', sysUntimeout handler arg l = .ok l' ∧
      sums base (deltas l') =
        (sums base (deltas l)).eraseP fun e => e.2.matches handler arg := by
  induction l generalizing base with
  | nil => exact ⟨[], rfl, rfl⟩
  | cons t ts ih =>
    rw [span, deltas_cons, total_cons] at h
    by_cases hmatch : t.callout.h = handler ∧ t.callout.arg = arg
    · obtain ⟨l', hrun, hsums⟩ := giveBack_spec t.time ts base h
      refine ⟨l', ?_, hsums.trans ?_⟩
      · rw [sysUntimeout, if_pos hmatch, hrun]
      · symm
        exact List.eraseP_cons_of_pos (decide_eq_true hmatch)
    · obtain ⟨ts', hrun, hsums⟩ := ih (base + t.time.toNat) (show total (deltas ts) < 2 ^ 32 by omega)
      refine ⟨t :: ts', ?_, ?_⟩
      · rw [sysUntimeout, if_neg hmatch, hrun]
        rfl
      · rw [deltas_cons, sums_cons, hsums]
        symm
        exact List.eraseP_cons_of_neg fun h => hmatch (of_decide_eq_true h)

/-! ### Runs -/

/-- The list of a thread, with the history of its entries: the time that has been taken off the list,
how many timeouts were made, for each entry when it is due and how many were made before it, and the
entries that fired. -/
structure Thread (η α : Type) where
  nextTimeout : List (SysTimeo η α)
  clock : ℕ
  made : ℕ
  due : ℕ → ℕ ×ₗ ℕ
  fired : List (ℕ ×ₗ ℕ)

namespace Thread

/-- The timeout in the struct `n` is made, and the list is `l`. -/
def make (s : Thread η α) (n msecs : ℕ) (l : List (SysTimeo η α)) : Thread η α :=
  { s with
    nextTimeout := l
    due := Function.update s.due n (toLex (s.clock + msecs, s.made))
    made := s.made + 1 }

/-- Some time is taken off the list, which then is `l`; the entries `gone` fire. -/
def pass (s : Thread η α) (time : ℕ) (gone : List (ℕ × Callout η α)) (l : List (SysTimeo η α)) :
    Thread η α :=
  { s with
    nextTimeout := l
    clock := s.clock + time
    fired := s.fired ++ gone.map fun e => s.due e.2.addr }

/-- `next_timeout` is `NULL` at first. -/
structure Start (s : Thread η α) : Prop where
  none : s.nextTimeout = []
  fired : s.fired = []

end Thread

inductive Event (η α : Type) where
  | timeout (n : ℕ) (msecs : UInt32) (handler : η) (arg : α)
  | untimeout (handler : η) (arg : α)
  -- the wait for the first entry is over; its handler is called
  | expire
  -- a message arrives before
  | message (timeNeeded : UInt32)

inductive Thread.Step : Thread η α → Event η α → Thread η α → Prop
  -- the pool does not give a struct that is in use
  | timeout {s : Thread η α} {n : ℕ} {msecs : UInt32} {handler : η} {arg : α}
      {l : List (SysTimeo η α)} (hfresh : ∀ t ∈ s.nextTimeout, t.callout.addr ≠ n)
      (hrun : sysTimeout (some n) msecs handler arg s.nextTimeout = .ok l) :
      Step s (.timeout n msecs handler arg) (s.make n msecs.toNat l)
  | untimeout {s : Thread η α} {handler : η} {arg : α} {l : List (SysTimeo η α)}
      (hrun : sysUntimeout handler arg s.nextTimeout = .ok l) :
      Step s (.untimeout handler arg) { s with nextTimeout := l }
  | expire {s : Thread η α} {t : SysTimeo η α} {ts : List (SysTimeo η α)}
      (hfirst : s.nextTimeout = t :: ts) :
      Step s .expire (s.pass t.time.toNat [(t.time.toNat, t.callout)] ts)
  | message {s : Thread η α} {t : SysTimeo η α} {ts : List (SysTimeo η α)} {timeNeeded : UInt32}
      (hfirst : s.nextTimeout = t :: ts) :
      Step s (.message timeNeeded)
        (s.pass (t.time.toNat - (t.deduct timeNeeded).time.toNat) [] (t.deduct timeNeeded :: ts))

def threadSystem (η α : Type) [DecidableEq η] [DecidableEq α] : System (Thread η α) (Event η α) where
  start := Thread.Start
  step := Thread.Step

namespace Thread

variable {s s' : Thread η α} {a : Event η α} {t : SysTimeo η α} {ts : List (SysTimeo η α)}

/-- What holds of the entries that are to come, by when they expire. -/
structure Inv (s : Thread η α) : Prop where
  bounded : span s.nextTimeout < 2 ^ 32
  onTime : ∀ e ∈ expiries s.nextTimeout, (ofLex (s.due e.2.addr)).1 = s.clock + e.1
  made : ∀ e ∈ expiries s.nextTimeout, (ofLex (s.due e.2.addr)).2 < s.made
  ordered : (expiries s.nextTimeout).Pairwise fun e f => s.due e.2.addr < s.due f.2.addr
  past : ∀ d ∈ s.fired, (ofLex d).1 ≤ s.clock ∧ (ofLex d).2 < s.made
  before : ∀ d ∈ s.fired, ∀ e ∈ expiries s.nextTimeout, d < s.due e.2.addr
  fired : s.fired.Pairwise (· < ·)

omit [DecidableEq η] [DecidableEq α] in
theorem Start.inv (h : s.Start) : s.Inv := by
  have hnone : expiries s.nextTimeout = [] := by
    rw [h.none]
    rfl
  constructor
  case bounded =>
    rw [h.none]
    exact Nat.two_pow_pos 32
  case fired =>
    rw [h.fired]
    exact List.Pairwise.nil
  all_goals simp [hnone, h.fired]

omit [DecidableEq η] [DecidableEq α] in
theorem make_due_self (s : Thread η α) (n msecs : ℕ) (l : List (SysTimeo η α)) :
    (s.make n msecs l).due n = toLex (s.clock + msecs, s.made) := Function.update_self ..

omit [DecidableEq η] [DecidableEq α] in
theorem make_due_other (hfresh : ∀ t ∈ s.nextTimeout, t.callout.addr ≠ n) (msecs : ℕ)
    (l : List (SysTimeo η α)) {e : ℕ × Callout η α} (he : e ∈ expiries s.nextTimeout) :
    (s.make n msecs l).due e.2.addr = s.due e.2.addr := by
  obtain ⟨t, ht, hcallout⟩ := callout_of_mem_sums he
  apply Function.update_of_ne
  rw [← hcallout]
  exact hfresh t ht

omit [DecidableEq η] [DecidableEq α] in
/-- Made before, and due no later. -/
theorem lex_lt {d : ℕ ×ₗ ℕ} {time made : ℕ} (h : (ofLex d).1 ≤ time) (hlt : (ofLex d).2 < made) :
    d < toLex (time, made) := by
  rcases h.lt_or_eq with h | h
  · exact Prod.Lex.lt_iff.mpr (.inl h)
  · exact Prod.Lex.lt_iff.mpr (.inr ⟨h, hlt⟩)

omit [DecidableEq η] [DecidableEq α] in
theorem Inv.make (h : s.Inv) (hfresh : ∀ t ∈ s.nextTimeout, t.callout.addr ≠ n)
    (hrun : sysTimeout (some n) msecs handler arg s.nextTimeout = .ok l) :
    (s.make n msecs.toNat l).Inv := by
  obtain ⟨l', hl', hins⟩ := sysTimeout_spec s.nextTimeout n msecs handler arg
  obtain rfl : l = l' := Except.ok.inj (hrun.symm.trans hl')
  have hself := make_due_self s n msecs.toNat l
  have hother : ∀ e ∈ expiries s.nextTimeout, (s.make n msecs.toNat l).due e.2.addr =
      s.due e.2.addr := fun e he => make_due_other hfresh msecs.toNat l he
  constructor
  case bounded =>
    apply span_lt
    intro e he
    rcases hins.mem.mp he with rfl | he
    · exact msecs.toNat_lt
    · exact lt_of_mem_expiries h.bounded he
  case onTime =>
    intro e he
    rcases hins.mem.mp he with rfl | he
    · rw [hself]
      rfl
    · rw [hother e he]
      exact h.onTime e he
  case made =>
    intro e he
    rcases hins.mem.mp he with rfl | he
    · rw [hself]
      exact Nat.lt_succ_self s.made
    · rw [hother e he]
      exact (h.made e he).trans (Nat.lt_succ_self s.made)
  case ordered =>
    apply hins.pairwise
    · refine h.ordered.imp_of_mem fun he hf hlt => ?_
      rw [hother _ he, hother _ hf]
      exact hlt
    · intro f hf hle
      rw [hother f hf, hself]
      refine lex_lt ?_ (h.made f hf)
      rw [h.onTime f hf]
      exact Nat.add_le_add_left hle s.clock
    · intro f hf hlt
      rw [hother f hf, hself]
      refine Prod.Lex.lt_iff.mpr (.inl ?_)
      rw [h.onTime f hf]
      exact Nat.add_lt_add_left hlt s.clock
  case past =>
    exact fun d hd => ⟨(h.past d hd).1, (h.past d hd).2.trans (Nat.lt_succ_self s.made)⟩
  case before =>
    intro d hd e he
    rcases hins.mem.mp he with rfl | he
    · rw [hself]
      exact lex_lt ((h.past d hd).1.trans (Nat.le_add_right _ _)) (h.past d hd).2
    · rw [hother e he]
      exact h.before d hd e he
  case fired => exact h.fired

theorem Inv.untimeout (h : s.Inv) (hrun : sysUntimeout handler arg s.nextTimeout = .ok l) :
    Inv { s with nextTimeout := l } := by
  obtain ⟨l', hl', hsums⟩ := sysUntimeout_spec handler arg s.nextTimeout 0 h.bounded
  obtain rfl : l = l' := Except.ok.inj (hrun.symm.trans hl')
  have hsub : (expiries l).Sublist (expiries s.nextTimeout) := by
    rw [expiries, hsums]
    exact List.eraseP_sublist
  have hmem : ∀ e ∈ expiries l, e ∈ expiries s.nextTimeout := fun e he => hsub.subset he
  exact
    { bounded := span_lt fun e he => lt_of_mem_expiries h.bounded (hmem e he)
      onTime := fun e he => h.onTime e (hmem e he)
      made := fun e he => h.made e (hmem e he)
      ordered := h.ordered.sublist hsub
      past := h.past
      before := fun d hd e he => h.before d hd e (hmem e he)
      fired := h.fired }

omit [DecidableEq η] [DecidableEq α] in
/-- Time passes: the entries in front fire, the others stay and expire that much sooner. -/
theorem Inv.pass {time : ℕ} {gone : List (ℕ × Callout η α)} (h : s.Inv)
    (hsplit : expiries s.nextTimeout = gone ++ (expiries l).map fun e => (time + e.1, e.2))
    (hgone : ∀ e ∈ gone, e.1 ≤ time) : (s.pass time gone l).Inv := by
  have hstay : ∀ e ∈ expiries l, (time + e.1, e.2) ∈ expiries s.nextTimeout := by
    intro e he
    rw [hsplit]
    exact List.mem_append_right gone (List.mem_map_of_mem he)
  have hfire : ∀ e ∈ gone, e ∈ expiries s.nextTimeout := by
    intro e he
    rw [hsplit]
    exact List.mem_append_left _ he
  have hordered := h.ordered
  rw [hsplit] at hordered
  obtain ⟨hfront, hback, hcross⟩ := List.pairwise_append.mp hordered
  constructor
  case bounded =>
    apply span_lt
    intro e he
    exact (Nat.le_add_left e.1 time).trans_lt (lt_of_mem_expiries h.bounded (hstay e he))
  case onTime =>
    intro e he
    exact (h.onTime _ (hstay e he)).trans (Nat.add_assoc s.clock time e.1).symm
  case made => exact fun e he => h.made (time + e.1, e.2) (hstay e he)
  case ordered =>
    have hmapped := List.pairwise_map.mp hback
    exact hmapped
  case past =>
    intro d hd
    rcases List.mem_append.mp hd with hd | hd
    · exact ⟨(h.past d hd).1.trans (Nat.le_add_right _ _), (h.past d hd).2⟩
    · obtain ⟨e, he, rfl⟩ := List.mem_map.mp hd
      refine ⟨(h.onTime e (hfire e he)).le.trans ?_, h.made e (hfire e he)⟩
      exact Nat.add_le_add_left (hgone e he) s.clock
  case before =>
    intro d hd e he
    rcases List.mem_append.mp hd with hd | hd
    · exact h.before d hd (time + e.1, e.2) (hstay e he)
    · obtain ⟨f, hf, rfl⟩ := List.mem_map.mp hd
      exact hcross f hf (time + e.1, e.2) (List.mem_map.mpr ⟨e, he, rfl⟩)
  case fired =>
    refine List.pairwise_append.mpr ⟨h.fired, List.pairwise_map.mpr hfront, fun d hd d' hd' => ?_⟩
    obtain ⟨f, hf, rfl⟩ := List.mem_map.mp hd'
    exact h.before d hd f (hfire f hf)

omit [DecidableEq η] [DecidableEq α] in
theorem expiries_cons (t : SysTimeo η α) (ts : List (SysTimeo η α)) : expiries (t :: ts) =
    (t.time.toNat, t.callout) :: (expiries ts).map fun e => (t.time.toNat + e.1, e.2) := by
  rw [expiries, deltas_cons, sums_cons, Nat.zero_add, sums_eq_map]
  rfl

omit [DecidableEq η] [DecidableEq α] in
theorem deduct_le (t : SysTimeo η α) (timeNeeded : UInt32) :
    (t.deduct timeNeeded).time.toNat ≤ t.time.toNat := by
  rw [SysTimeo.deduct]
  dsimp only
  split
  · rename_i hlt
    rw [UInt32.toNat_sub_of_le _ _ (UInt32.le_of_lt hlt)]
    exact Nat.sub_le _ _
  · exact Nat.zero_le _

theorem Step.inv (hstep : Step s a s') (h : s.Inv) : s'.Inv := by
  cases hstep with
  | timeout hfresh hrun => exact h.make hfresh hrun
  | untimeout hrun => exact h.untimeout hrun
  | @expire t ts hfirst =>
    apply h.pass
    · rw [hfirst, expiries_cons]
      rfl
    · exact fun e he => (congrArg Prod.fst (List.mem_singleton.mp he)).le
  | @message t ts timeNeeded hfirst =>
    apply h.pass
    · have hle := deduct_le t timeNeeded
      rw [hfirst, expiries_cons, expiries_cons, List.nil_append, List.map_cons, List.map_map,
        Nat.sub_add_cancel hle]
      congr 1
      apply List.map_congr_left
      intro e _
      simp only [Function.comp_apply]
      rw [← Nat.add_assoc, Nat.sub_add_cancel hle]
    · exact fun e he => absurd he List.not_mem_nil

theorem inv_of_reachable (h : (threadSystem η α).Reachable s) : s.Inv := by
  refine System.ReachableWhile.invariant (I := Inv) ?_ ?_ h
  · exact fun s hs => Start.inv hs
  · exact fun s a s' hinv _ hstep => Step.inv hstep hinv

end Thread

/-- `sys_timeout` adds an entry behind those that expire no later, `sys_untimeout` removes the first one
that matches, and neither wraps or moves another entry. So in every run the entries fire when they are
due, and those that are due at the same time in the order in which they were made. -/
theorem timeouts_in_order :
    (∀ (l : List (SysTimeo η α)) n msecs handler arg, ∃ l',
      sysTimeout (some n) msecs handler arg l = .ok l' ∧
        Inserts (msecs.toNat, ⟨n, handler, arg⟩) (expiries l) (expiries l')) ∧
    (∀ (l : List (SysTimeo η α)) handler arg, span l < 2 ^ 32 → ∃ l',
      sysUntimeout handler arg l = .ok l' ∧
        expiries l' = (expiries l).eraseP fun e => e.2.matches handler arg) ∧
    ∀ s : Thread η α, (threadSystem η α).Reachable s →
      span s.nextTimeout < 2 ^ 32 ∧ s.fired.Pairwise (· < ·) ∧
        ∀ t ts, s.nextTimeout = t :: ts →
          (ofLex (s.due t.callout.addr)).1 = s.clock + t.time.toNat := by
  refine ⟨sysTimeout_spec, fun l handler arg h => sysUntimeout_spec handler arg l 0 h, fun s hs => ?_⟩
  have hinv := Thread.inv_of_reachable hs
  refine ⟨hinv.bounded, hinv.fired, fun t ts hfirst => ?_⟩
  apply hinv.onTime (t.time.toNat, t.callout)
  rw [hfirst, Thread.expiries_cons]
  exact List.mem_cons_self

end QuietLwip.Timers
