import Mathlib.Algebra.Order.Ring.Nat
import Mathlib.Data.Finset.Card
import Mathlib.Tactic.Ring
import QuietLwip.Tcp.Pool

/-!
# The ticks of TCP

A call of `tcp_fasttmr` or `tcp_slowtmr` comes to its end, does the work of the tick once for
each pcb that stays among the active ones, and unlinks the pcbs that are due. This holds in the
runs in which no pcb is stamped with the count of a timer before that has begun, `tcp_fasttmr`
does not meet a pcb again and `tcp_slowtmr` unlinks behind the right pcb.
-/

namespace QuietLwip.Tcp

open Transition Word

variable {env : Env} {err : Err} {t t' t'' t₁ : Stack} {w v : PcbList} {n m : ℕ}
  {a a' : Activity} {prev pcb : Option ℕ} {front back : List ℕ} {s s' : State} {e : Event}
  {pending : List Pending}

/-- The pcb that a turn of a timer does the work of the tick for. -/
def Activity.works (t : Stack) : Activity → Option ℕ
  | .fast (some n) => if (t.pcb n).lastTimer = t.timerCtr then none else some n
  | .slow _ (some n) => if (t.pcb n).lastTimer = t.timerCtr then none else some n
  | _ => none

/-- The pcb that a turn of a timer is to unlink, and its list. -/
def Activity.due (env : Env) (t : Stack) : Activity → Option (PcbList × ℕ)
  | .slow _ (some n) =>
    if (t.pcb n).lastTimer ≠ t.timerCtr ∧ (t.pcb n).due env (t.age n) then some (.active, n)
    else none
  | .timeWait _ (some n) => if timeWaitOver (t.age n) then some (.tw, n) else none
  | _ => none

def Stack.members (t : Stack) (w : PcbList) : List ℕ := (t.walk w).getD []

/-- What the call of a timer has done so far: its turns, the pcbs it has worked on, the active
pcbs that have stayed since it began and the pcbs it has to leave in `TIME_WAIT`. -/
structure Ticks where
  turns : ℕ
  worked : List ℕ
  stayed : List ℕ
  left : List ℕ

def Ticks.began (t : Stack) : Ticks := ⟨0, [], t.members .active, []⟩

def Ticks.stay (k : Ticks) (t : Stack) : Ticks :=
  { k with stayed := k.stayed.filter fun n => n ∈ t.members .active }

def Ticks.after (k : Ticks) (s : State) (e : Event) (s' : State) : Ticks :=
  match e, s.activity with
  | .tmr, _ => .began s'.tcp
  | .turn _, .fast none => .began s'.tcp
  | .turn _, .slow _ none =>
    { k with
      turns := k.turns + 1
      left := (s.tcp.members .tw).filter fun n => !timeWaitOver (s.tcp.age n) }
  | .turn _, a =>
    { k with turns := k.turns + 1, worked := (a.works s.tcp).toList ++ k.worked }.stay s'.tcp
  | _, _ => k.stay s'.tcp

/-- The stack, with what the timer that runs has done. -/
def tickSystem : System (State × Ticks) Event where
  start p := p.1.Start ∧ p.2 = ⟨0, [], [], []⟩
  step p e p' := p.1.Step e p'.1 ∧ p'.2 = p.2.after p.1 e p'.1

/-- No active pcb has the stamp of the next walk. -/
def Stack.Unstamped (t : Stack) : Prop :=
  ∀ n, t.Active n → (t.pcb n).lastTimer ≠ u8 (t.timerCtr + 1)

/-- A walk begins with no active pcb stamped, and `tcp_fasttmr` does not meet a stamped one. -/
def Event.Fresh (s : State) (e : Event) : Prop :=
  match e, s.activity with
  | .tmr, _ => s.tcp.Unstamped
  | .turn _, .fast none => u8 (s.tcp.timer + 1) % 2 = 1 → s.tcp.Unstamped
  | .turn _, .fast (some n) => (s.tcp.pcb n).lastTimer ≠ s.tcp.timerCtr
  | _, _ => True

/-- The walk of the active pcbs is over. -/
def Activity.Walked : Activity → Prop
  | .fast none => True
  | .slow _ none => True
  | _ => False

/-- A timer waits for a callback. -/
def Activity.Waits : Activity → Prop
  | .fastRecv _ _ _ => True
  | .fastClosed _ => True
  | .slowErr _ _ => True
  | .slowPoll _ _ => True
  | _ => False

/-- The lists lose the pcb that is due and nothing else. -/
def Stack.Unlinks (due : Option (PcbList × ℕ)) (t t' : Stack) : Prop :=
  (∀ w l, w ≠ .bound → t.lists.At w l →
    ∃ l', t'.lists.At w l' ∧ ∀ n, n ∈ l' ↔ n ∈ l ∧ due ≠ some (w, n)) ∧
  ∀ n, t'.live n = true ↔ t.live n = true ∧ ∀ w, due ≠ some (w, n)

/-- What a call of a timer has to do, as far as it has got; `ok` are the steps that may be
taken. -/
structure Ticks.Right (ok : Event → Prop) (s : State) (k : Ticks) : Prop where
  turns : k.turns ≤ (s.tcp.room + 1) * (s.tcp.room + 2)
  -- no assertion fails, and a callback that returns lets the timer go on
  goesOn : ∀ env, ok (.turn env) → ¬ s.activity.AppRuns →
    ∃ t a, s.tcp.turn env s.activity = some (t, a)
  returns : ∀ env err, s.activity.Waits → ∃ t a, s.activity.resume env err s.tcp = some (t, a)
  once : s.activity.Walked → ∀ n ∈ k.stayed, k.worked.count n = 1
  unlinks : ∀ env t a, ok (.turn env) → s.tcp.turn env s.activity = some (t, a) →
    Stack.Unlinks (s.activity.due env s.tcp) s.tcp t
  left : ∀ prev, s.activity = .timeWait prev none → s.tcp.lists.At .tw k.left

namespace Stack

/-! ### The turns that may be left -/

/-- The pcbs in use that the timer has not stamped. -/
def unstamped (t : Stack) : Finset ℕ :=
  (Finset.range t.room).filter fun n => t.live n = true ∧ (t.pcb n).lastTimer ≠ t.timerCtr

theorem mem_unstamped : n ∈ t.unstamped ↔
    n < t.room ∧ t.live n = true ∧ (t.pcb n).lastTimer ≠ t.timerCtr := by
  rw [unstamped, Finset.mem_filter, Finset.mem_range]

theorem card_unstamped_le (t : Stack) : t.unstamped.card ≤ t.room := by
  calc t.unstamped.card ≤ (Finset.range t.room).card := Finset.card_filter_le ..
    _ = t.room := Finset.card_range _

theorem Keeps.unstamped (h : Keeps t t') : t'.unstamped ⊆ t.unstamped := by
  intro n hn
  obtain ⟨hlt, hlive, hstamp⟩ := mem_unstamped.mp hn
  rw [h.timerCtr] at hstamp
  obtain ⟨hlive', heq⟩ | ⟨heq, _⟩ := h.stamp n hlive
  · refine mem_unstamped.mpr ⟨by rwa [h.room] at hlt, hlive', ?_⟩
    rwa [heq] at hstamp
  · exact absurd heq hstamp

/-- A pcb that has been worked on is in use and stamped, or not in use any more. -/
theorem card_unstamped_lt (hn : n ∈ t.unstamped) (hroom : t'.room = t.room)
    (hctr : t'.timerCtr = t.timerCtr) (hlive : ∀ m, t'.live m = true → t.live m = true)
    (hother : ∀ m, m ≠ n → (t'.pcb m).lastTimer = (t.pcb m).lastTimer)
    (hself : t'.live n = true → (t'.pcb n).lastTimer = t.timerCtr) :
    t'.unstamped.card < t.unstamped.card := by
  refine Finset.card_lt_card ((Finset.ssubset_iff_of_subset fun m hm => ?_).mpr ⟨n, hn, fun h => ?_⟩)
  · obtain ⟨hlt, hlive', hstamp⟩ := mem_unstamped.mp hm
    rw [hctr] at hstamp
    have hmn : m ≠ n := by
      rintro rfl
      exact hstamp (hself hlive')
    rw [hother m hmn] at hstamp
    exact mem_unstamped.mpr ⟨by rwa [hroom] at hlt, hlive m hlive', hstamp⟩
  · obtain ⟨_, hlive', hstamp⟩ := mem_unstamped.mp h
    rw [hctr] at hstamp
    exact hstamp (hself hlive')

/-- So many turns have been taken that with `ahead` more before the next work, and a whole list
behind each pcb that is not stamped, there are not too many. -/
def Rank (t : Stack) (turns ahead : ℕ) : Prop :=
  turns + t.unstamped.card * (t.room + 1) + ahead < (t.room + 1) * (t.room + 1)

theorem rank_zero : t.Rank 0 t.room := by
  have hcard : t.unstamped.card * (t.room + 1) ≤ t.room * (t.room + 1) :=
    Nat.mul_le_mul_right _ t.card_unstamped_le
  rw [Rank]
  calc 0 + t.unstamped.card * (t.room + 1) + t.room
      ≤ t.room * (t.room + 1) + t.room := by omega
    _ < (t.room + 1) * (t.room + 1) := by ring_nf; omega

theorem Rank.mono {turns ahead ahead' : ℕ} (h : t.Rank turns ahead) (hroom : t'.room = t.room)
    (hcard : t'.unstamped.card ≤ t.unstamped.card) (hahead : ahead' ≤ ahead) :
    t'.Rank turns ahead' := by
  have hmul : t'.unstamped.card * (t.room + 1) ≤ t.unstamped.card * (t.room + 1) :=
    Nat.mul_le_mul_right _ hcard
  unfold Rank at *
  rw [hroom]
  omega

/-- The work for a pcb pays for a walk of the whole list. -/
theorem Rank.work {turns ahead : ℕ} (h : t.Rank turns ahead) (hroom : t'.room = t.room)
    (hcard : t'.unstamped.card < t.unstamped.card) : t'.Rank (turns + 1) t'.room := by
  have hmul : (t'.unstamped.card + 1) * (t.room + 1) ≤ t.unstamped.card * (t.room + 1) :=
    Nat.mul_le_mul_right _ hcard
  rw [Nat.add_mul] at hmul
  unfold Rank at *
  rw [hroom]
  omega

theorem Rank.skip {turns ahead : ℕ} (h : t.Rank turns (ahead + 1)) : t.Rank (turns + 1) ahead := by
  unfold Rank at *
  omega

/-! ### What has been done -/

/-- Of the active pcbs that have stayed, those that are stamped have been worked on once. -/
def Once (t : Stack) (k : Ticks) : Prop :=
  ∀ n ∈ k.stayed, t.Active n ∧
    k.worked.count n = if (t.pcb n).lastTimer = t.timerCtr then 1 else 0

theorem On.mem_members (hpool : t.Pooled) (h : t.On w) :
    n ∈ t.members w ↔ t.live n = true ∧ (t.pcb n).home = some w := by
  obtain ⟨l, hl, hmem⟩ := h
  rw [members, hpool.walk ⟨l, hl, hmem⟩ hl]
  exact hmem n

theorem On.at_members (hpool : t.Pooled) (h : t.On w) : t.lists.At w (t.members w) := by
  obtain ⟨l, hl, hmem⟩ := h
  rw [members, hpool.walk ⟨l, hl, hmem⟩ hl]
  exact hl

theorem once_began (hpool : t.Pooled) (hactive : t.On .active)
    (hfresh : ∀ n, t.Active n → (t.pcb n).lastTimer ≠ t.timerCtr) : t.Once (.began t) := by
  intro n hn
  have hn' : t.Active n := (hactive.mem_members hpool).mp hn
  rw [if_neg (hfresh n hn')]
  exact ⟨hn', rfl⟩

/-- What stays is active before and after the step. -/
theorem Once.stay {k : Ticks} (h : t.Once k) (hpool : t'.Pooled) (hactive : t'.On .active)
    {worked : List ℕ} (hcount : ∀ n, t'.Active n → t.Active n →
      k.worked.count n = (if (t.pcb n).lastTimer = t.timerCtr then 1 else 0) →
      worked.count n = if (t'.pcb n).lastTimer = t'.timerCtr then 1 else 0) (turns : ℕ) :
    t'.Once ({ k with turns := turns, worked := worked }.stay t') := by
  intro n hn
  obtain ⟨hstayed, hmem⟩ := List.mem_filter.mp hn
  have hn' : t'.Active n := (hactive.mem_members hpool).mp (of_decide_eq_true hmem)
  exact ⟨hn', hcount n hn' (h n hstayed).1 (h n hstayed).2⟩

theorem Once.keeps {k : Ticks} (h : t.Once k) (hk : Keeps t t') (hpool : t'.Pooled)
    (hactive : t'.On .active) : t'.Once (k.stay t') := by
  refine h.stay hpool hactive (fun n hn _ hcount => ?_) k.turns
  obtain ⟨_, hstamp⟩ | ⟨_, hhome⟩ := hk.stamp n hn.1
  · rw [hstamp, hk.timerCtr]
    exact hcount
  · exact absurd hn.2 hhome

/-- A turn that works on the pcb `n`. -/
theorem Once.work {k : Ticks} (h : t.Once k) (hpool : t'.Pooled) (hactive : t'.On .active)
    (hn : (t.pcb n).lastTimer ≠ t.timerCtr) (hctr : t'.timerCtr = t.timerCtr)
    (hother : ∀ m, m ≠ n → (t'.pcb m).lastTimer = (t.pcb m).lastTimer)
    (hself : t'.live n = true → (t'.pcb n).lastTimer = t.timerCtr) (turns : ℕ) :
    t'.Once ({ k with turns := turns, worked := n :: k.worked }.stay t') := by
  refine h.stay hpool hactive (fun m hm _ hcount => ?_) turns
  rw [hctr]
  by_cases hmn : m = n
  · subst hmn
    rw [if_neg hn] at hcount
    rw [List.count_cons_self, hcount, if_pos (hself hm.1)]
  · rw [List.count_cons_of_ne (Ne.symm hmn), hcount, hother m hmn]

/-! ### Where a timer is -/

/-- A walk of the active pcbs has got to `pcb` in not too many turns. -/
def Walks (t : Stack) (k : Ticks) (pcb : Option ℕ) : Prop :=
  t.Once k ∧ ∃ front back, t.lists.At .active (front ++ back) ∧ back.head? = pcb ∧
    t.Rank k.turns back.length

theorem Reached.walks {k : Ticks} (h : t.Reached pcb) (hpool : t.Pooled) (hactive : t.On .active)
    (honce : t.Once k) (hrank : t.Rank k.turns t.room) : t.Walks k pcb := by
  obtain ⟨front, back, hat, hhead, _⟩ := h
  refine ⟨honce, front, back, hat, hhead, hrank.mono rfl le_rfl ?_⟩
  calc back.length ≤ (front ++ back).length := by rw [List.length_append]; omega
    _ ≤ t.room := hpool.length_le hactive hat

end Stack

/-- Where a timer is, with what it has done. -/
def Activity.Counts (t : Stack) (k : Ticks) : Activity → Prop
  | .fast pcb => t.Walks k pcb
  | .fastRecv _ _ _ => t.Once k ∧ t.Rank k.turns t.room
  | .fastClosed _ => t.Once k ∧ t.Rank k.turns t.room
  | .slow _ pcb => t.Walks k pcb
  | .slowErr _ _ => t.Once k ∧ t.Rank k.turns t.room
  | .slowPoll _ _ => t.Once k ∧ t.Rank k.turns t.room
  | .timeWait prev pcb =>
    ∃ front back, t.lists.At .tw (front ++ back) ∧ back.head? = pcb ∧ front.getLast? = prev ∧
      k.left = front ++ back.filter (fun n => !timeWaitOver (t.age n)) ∧
      k.turns + back.length ≤ (t.room + 1) * (t.room + 1) + t.room
  | _ => k.turns ≤ (t.room + 1) * (t.room + 2)

/-- A timer is in its walk of the active pcbs, or in a callback there. -/
def Activity.Timing : Activity → Prop
  | .fast _ => True
  | .slow _ _ => True
  | a => a.Waits

theorem Activity.Placed.counts {k : Ticks} (h : a.Placed t) (ha : a.Timing) (hpool : t.Pooled)
    (hactive : t.On .active) (honce : t.Once k) (hrank : t.Rank k.turns t.room) :
    a.Counts t k := by
  cases a with
  | fast pcb => exact Stack.Reached.walks h hpool hactive honce hrank
  | fastRecv n fin next => exact ⟨honce, hrank⟩
  | fastClosed next => exact ⟨honce, hrank⟩
  | slow prev pcb => exact Stack.Reached.walks h hpool hactive honce hrank
  | slowErr prev pcb => exact ⟨honce, hrank⟩
  | slowPoll prev pcb => exact ⟨honce, hrank⟩
  | _ => exact ha.elim

theorem Activity.Counts.keeps {k : Ticks} (h : a.Counts t k) (happ : a.AppRuns)
    (hk : t.Keeps t') (hpool : t'.Pooled) (hactive : t'.On .active) :
    a.Counts t' (k.stay t') := by
  have hwaits : t.Once k ∧ t.Rank k.turns t.room →
      t'.Once (k.stay t') ∧ t'.Rank (k.stay t').turns t'.room := by
    rintro ⟨honce, hrank⟩
    refine ⟨honce.keeps hk hpool hactive, ?_⟩
    exact hrank.mono hk.room (Finset.card_le_card hk.unstamped) hk.room.le
  have hrest : k.turns ≤ (t.room + 1) * (t.room + 2) →
      (k.stay t').turns ≤ (t'.room + 1) * (t'.room + 2) := by
    rw [hk.room]
    exact id
  cases a with
  | idle => exact hrest h
  | fastRecv n fin next => exact hwaits h
  | fastClosed next => exact hwaits h
  | slowErr prev pcb => exact hwaits h
  | slowPoll prev pcb => exact hwaits h
  | input point n seg => exact hrest h
  | accepting lpcb prio seg => exact hrest h
  | _ => exact happ.elim

namespace Stack

/-! ### A turn -/

theorem Reached.active (h : t.Reached (some n)) (hactive : t.On .active) : t.Active n := by
  obtain ⟨front, back, hat, _⟩ := h.split
  exact (hactive.mem hat n).mp (by simp)

theorem Active.mem_unstamped (h : t.Active n) (hpool : t.Pooled)
    (hn : (t.pcb n).lastTimer ≠ t.timerCtr) : n ∈ t.unstamped :=
  Stack.mem_unstamped.mpr ⟨hpool n h.1, h.1, hn⟩

/-- What a turn that works on the pcb `n` counts. -/
theorem worked_counts {k : Ticks} (hplaced : a'.Placed t') (ha' : a'.Timing) (hpool' : t'.Pooled)
    (hactive' : t'.On .active) (honce : t.Once k) {ahead : ℕ} (hrank : t.Rank k.turns ahead)
    (hn : n ∈ t.unstamped) (hroom : t'.room = t.room) (hctr : t'.timerCtr = t.timerCtr)
    (hlive : ∀ m, t'.live m = true → t.live m = true)
    (hother : ∀ m, m ≠ n → (t'.pcb m).lastTimer = (t.pcb m).lastTimer)
    (hself : t'.live n = true → (t'.pcb n).lastTimer = t.timerCtr) :
    a'.Counts t' ({ k with turns := k.turns + 1, worked := n :: k.worked }.stay t') :=
  hplaced.counts ha' hpool' hactive'
    (honce.work hpool' hactive' (mem_unstamped.mp hn).2.2 hctr hother hself _)
    (hrank.work hroom (card_unstamped_lt hn hroom hctr hlive hother hself))

theorem Stamped.counts {k : Ticks} (hs : Stamped n t t') (hplaced : a'.Placed t')
    (ha' : a'.Timing) (hpool' : t'.Pooled) (hactive' : t'.On .active) (honce : t.Once k)
    {ahead : ℕ} (hrank : t.Rank k.turns ahead) (hn : n ∈ t.unstamped) :
    a'.Counts t' ({ k with turns := k.turns + 1, worked := n :: k.worked }.stay t') :=
  worked_counts hplaced ha' hpool' hactive' honce hrank hn hs.room hs.timerCtr
    (fun m hm => by rwa [hs.live] at hm) hs.other fun _ => hs.self

theorem timeWaitTurn_counts {k : Ticks} (h : (Activity.timeWait prev (some n)).Counts t k)
    (ht : t.timeWaitTurn prev n = some (t', a')) (hroom : t'.room = t.room) :
    ∀ stayed, a'.Counts t' { k with turns := k.turns + 1, stayed := stayed } := by
  intro stayed
  obtain ⟨front, back, hat, hhead, hlast, hleft, hturns⟩ := h
  obtain ⟨back, rfl⟩ := List.head?_eq_some_iff.mp hhead
  rw [List.length_cons] at hturns
  obtain ⟨hover, rfl, rfl⟩ | ⟨hover, hlists, _, _, hticks, hother, rfl⟩ := timeWaitTurn_cases ht
  · refine ⟨front ++ [n], back, ?_, (next_of_at hat).symm, by simp, ?_, by simpa using by omega⟩
    · rw [List.append_assoc]
      exact hat
    · rw [List.filter_cons_of_pos (by rw [hover]; rfl)] at hleft
      rw [List.append_assoc]
      exact hleft
  · refine ⟨front, back, ?_, (unlink_next hat hlast).symm, hlast, ?_, ?_⟩
    · rw [hlists]
      subst hlast
      exact hat.unlink
    · rw [List.filter_cons_of_neg (by rw [hover]; nofun)] at hleft
      rw [hleft]
      refine congrArg _ (List.filter_congr fun m hm => ?_)
      have hmn : m ≠ n := by
        rintro rfl
        exact Links.not_mem_of_nodup hat.nodup (List.mem_append_right _ hm)
      rw [age, age, hticks, hother m hmn]
    · rw [hroom]
      simp only
      omega

theorem turn_counts {k : Ticks} (hshape : t.Shape) (hpool : t.Pooled) (hpool' : t'.Pooled)
    (hactive' : t'.On .active) (hplaced : a.Placed t) (hplaced' : a'.Placed t')
    (h : a.Counts t k) (hfresh : (Event.turn env).Fresh ⟨t, a, pending⟩)
    (ht : t.turn env a = some (t', a')) :
    a'.Counts t' (k.after ⟨t, a, pending⟩ (.turn env) ⟨t', a', pending⟩) := by
  have hactive := hshape .active nofun
  cases a with
  | fast pcb =>
    cases pcb with
    | none =>
      unfold turn fastEnd at ht
      dsimp only at ht
      split at ht
      · rename_i hodd
        cases ht
        refine hplaced'.counts trivial hpool' hactive' (once_began hpool' hactive' ?_) rank_zero
        exact hfresh hodd
      · cases ht
        exact Nat.zero_le _
    | some n =>
      have hturn : t.fastTurn env n = (t', a') := Option.some.inj ht
      have hn := (Reached.active hplaced hactive).mem_unstamped hpool hfresh
      have hworks : (Activity.fast (some n)).works t = some n := if_neg hfresh
      obtain ⟨honce, _, _, _, _, hrank⟩ := h
      obtain ⟨hs, ha⟩ := fastTurn_cases hfresh hturn
      have ha' : a'.Timing := by
        obtain rfl | ⟨fin, rfl, _⟩ := ha <;> trivial
      have hcounts := hs.counts hplaced' ha' hpool' hactive' honce hrank hn
      simp only [Ticks.after, hworks]
      exact hcounts
  | slow prev pcb =>
    cases pcb with
    | none =>
      cases ht
      obtain ⟨_, front, back, _, _, hrank⟩ := h
      have htw := hshape .tw nofun
      refine ⟨[], t.members .tw, htw.at_members hpool, Links.ListAt.head (htw.at_members hpool),
        rfl, rfl, ?_⟩
      have hlen := hpool.length_le htw (htw.at_members hpool)
      unfold Rank at hrank
      show k.turns + 1 + _ ≤ _
      omega
    | some n =>
      obtain ⟨honce, front, back, hat, hhead, hrank⟩ := h
      by_cases hstamp : (t.pcb n).lastTimer = t.timerCtr
      · have hworks : (Activity.slow prev (some n)).works t = none := if_pos hstamp
        obtain ⟨rfl, rfl⟩ := slowTurn_stamped hstamp ht
        obtain ⟨back, rfl⟩ := List.head?_eq_some_iff.mp hhead
        simp only [Ticks.after, hworks]
        refine ⟨honce.stay hpool hactive (fun _ _ _ hcount => hcount) _, front ++ [n], back, ?_,
          (next_of_at hat).symm, hrank.skip⟩
        rw [List.append_assoc]
        exact hat
      · have hworks : (Activity.slow prev (some n)).works t = some n := if_neg hstamp
        have hn := (Reached.active hplaced hactive).mem_unstamped hpool hstamp
        simp only [Ticks.after, hworks]
        obtain ⟨_, hs, ha⟩ | ⟨_, _, t₁, hs, rfl, rfl⟩ := slowTurn_cases hstamp ht
        · have ha' : a'.Timing := by
            obtain rfl | ⟨rfl, _⟩ := ha <;> trivial
          exact hs.counts hplaced' ha' hpool' hactive' honce hrank hn
        · refine worked_counts hplaced' trivial hpool' hactive' honce hrank hn hs.room hs.timerCtr
            (fun m hm => ?_) hs.other fun _ => hs.self
          by_cases hmn : m = n
          · rw [hmn] at hm
            cases (Function.update_self ..).symm.trans hm
          · exact (Function.update_of_ne hmn ..).symm.trans hm
  | timeWait prev pcb =>
    cases pcb with
    | none =>
      cases ht
      obtain ⟨front, back, _, hhead, _, _, hturns⟩ := h
      obtain rfl := List.head?_eq_none_iff.mp hhead
      show k.turns + 1 ≤ _
      have hmul : (t.room + 1) * (t.room + 2) = (t.room + 1) * (t.room + 1) + t.room + 1 := by ring
      rw [hmul]
      exact Nat.add_le_add_right hturns 1
    | some n => exact timeWaitTurn_counts h ht (turn_within ht).room _
  | _ => cases ht

theorem fastNext_timing (t : Stack) (next : Option ℕ) : (t.fastNext next).Timing := by
  rw [fastNext]
  split <;> trivial

theorem slowNext_timing (t : Stack) (prev pcb : Option ℕ) : (t.slowNext prev pcb).Timing := by
  rw [slowNext]
  split <;> trivial

theorem resume_counts {k : Ticks} (hpool' : t'.Pooled) (hactive' : t'.On .active)
    (hplaced' : a'.Placed t') (h : a.Counts t k) (ht : a.resume env err t = some (t', a')) :
    a'.Counts t' (k.stay t') := by
  have hroom := (resume_within ht).room
  have hwaits (hm : t' = t ∨ ∃ n f, t' = t.modifyConn n f) (ha' : a'.Timing)
      (h : t.Once k ∧ t.Rank k.turns t.room) : a'.Counts t' (k.stay t') := by
    have hk : t.Keeps t' := by
      obtain rfl | ⟨n, f, rfl⟩ := hm
      · exact (Calm.refl _).keeps
      · exact (Calm.modifyConn t n f).keeps
    refine hplaced'.counts ha' hpool' hactive' (h.1.keeps hk hpool' hactive') ?_
    exact h.2.mono hk.room (Finset.card_le_card hk.unstamped) hk.room.le
  have hrest (wait : Await) (h : k.turns ≤ (t.room + 1) * (t.room + 2)) :
      wait.activity.Counts t' (k.stay t') := by
    rw [← hroom] at h
    cases wait <;> exact h
  cases a with
  | fastRecv n fin next =>
    obtain ⟨ht', ha⟩ := fastReturn_cases (Option.some.inj ht)
    refine hwaits (ht'.imp_right fun ⟨f, hf⟩ => ⟨n, f, hf⟩) ?_ h
    obtain rfl | rfl := ha
    · exact fastNext_timing t next
    · trivial
  | fastClosed next =>
    cases ht
    exact hwaits (.inl rfl) (fastNext_timing t next) h
  | slowErr prev pcb =>
    cases ht
    exact hwaits (.inl rfl) (slowNext_timing t prev pcb) h
  | slowPoll prev pcb =>
    obtain ⟨ht', rfl⟩ := pollReturn_cases (Option.some.inj ht)
    exact hwaits (ht'.imp_right fun ⟨f, hf⟩ => ⟨prev, f, hf⟩) (slowNext_timing t (some prev) pcb) h
  | input point n seg =>
    obtain ⟨⟨t₁, wait⟩, h₁, heq⟩ := Option.map_eq_some_iff.mp ht
    cases heq
    exact hrest wait h
  | accepting lpcb prio seg =>
    obtain ⟨⟨t₁, wait⟩, h₁, heq⟩ := Option.map_eq_some_iff.mp ht
    cases heq
    exact hrest wait h
  | _ => cases ht

end Stack

/-- The steps of the stack along which the timers do what they have to. -/
def Event.Timely (s : State) (e : Event) : Prop := e.Orderly s ∧ e.Fresh s

theorem step_counts {k : Ticks} (hs : s.Sound) (hpool : s.tcp.Pooled)
    (h : s.activity.Counts s.tcp k) (hok : e.Timely s) (hstep : s.Step e s') :
    s'.activity.Counts s'.tcp (k.after s e s') := by
  have hpool' := hpool.within (step_within hs hstep)
  have hsound' := step_sound hs hok.1 hstep
  have hactive' := hsound'.shape .active nofun
  cases hstep with
  | call happ hvalid hexec =>
    exact h.keeps happ (Call.exec_keeps hs.shape hvalid hexec) hpool' hactive'
  | aborted hpending =>
    have happ := hs.pending (by rw [hpending]; nofun)
    exact h.keeps happ (Stack.Calm.refl _).keeps hpool' hactive'
  | newed hpending =>
    have happ := hs.pending (by rw [hpending]; nofun)
    have hactive := hs.shape .active nofun
    exact h.keeps happ ((Stack.Calm.refl _).allocAgain_keeps hactive) hpool' hactive'
  | ret hpending hresume => exact Stack.resume_counts hpool' hactive' hsound'.placed h hresume
  | @segment env seg t wait hidle hpending hinput =>
    have hroom := (Stack.tcpInput_within hinput).room
    rw [hidle] at h
    have h' : k.turns ≤ (t.room + 1) * (t.room + 2) := by
      rw [hroom]
      exact h
    cases wait <;> exact h'
  | tmr hidle hpending =>
    refine hsound'.placed.counts trivial hpool' hactive' ?_ Stack.rank_zero
    exact Stack.once_began hpool' hactive' hok.2
  | turn hturn =>
    exact Stack.turn_counts hs.shape hpool hpool' hactive' hs.placed hsound'.placed h hok.2 hturn

end QuietLwip.Tcp
