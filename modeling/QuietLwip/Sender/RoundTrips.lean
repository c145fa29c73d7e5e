import QuietLwip.Foundation.Word
import QuietLwip.Tcp.Timers

/-!
# The retransmission time-out

`sa` is the smoothed round-trip time, scaled by 8, `sv` its mean deviation, scaled by 4; both and `rto` are
16-bit signed fields of the pcb. A round-trip sample moves the two, an acknowledgement of new data resets
`rto`, and the slow timer shifts it for every retransmission. C computes in `int` and truncates what it
stores, so that every step lists the values it stores beside the state it leaves.
-/

namespace QuietLwip.Sender

open Word Tcp

/-- `TCP_SLOW_INTERVAL` and `TCP_MAXRTX` -/
def tcpSlowInterval : ℤ := 500
def tcpMaxrtx : ℕ := 12

/-- The fields of a `tcp_pcb` that the time-out is made of, as `tcp_alloc` sets them. -/
structure Estimate where
  sa : ℤ := 0
  sv : ℤ := 3000 / tcpSlowInterval
  rto : ℤ := 3000 / tcpSlowInterval
  rtime : ℤ := -1
  deriving DecidableEq, Repr

/-- A round trip of `m` ticks, an acknowledgement of new data that leaves something unacknowledged or
not, a segment that is sent, and a tick of the slow timer that comes to the retransmission timer. -/
inductive RtoEvent where
  | sample (m : ℕ) (h : m < 2 ^ 15)
  | ackNew (unacked : Bool)
  | sent
  | tick (nrtx : Fin tcpMaxrtx) (synSent unacked : Bool)

namespace Estimate

/-- What the estimation in `tcp_receive` stores, in order: `m` less the old estimate, `sa`, the
deviation, `m` less the old deviation, `sv` and `rto`. -/
def sampleValues (m : ℤ) (e : Estimate) : List ℤ :=
  let err := s16 (m - e.sa >>> (3 : ℕ))
  let sa := s16 (e.sa + err)
  let dev := if err < 0 then s16 (-err) else err
  let diff := s16 (dev - e.sv >>> (2 : ℕ))
  let sv := s16 (e.sv + diff)
  [m - e.sa >>> (3 : ℕ), e.sa + err, if err < 0 then -err else err, dev - e.sv >>> (2 : ℕ), e.sv + diff,
    sa >>> (3 : ℕ) + sv]

/-- The estimation in `tcp_receive` -/
def sample (m : ℤ) (e : Estimate) : Estimate :=
  let err := s16 (m - e.sa >>> (3 : ℕ))
  let sa := s16 (e.sa + err)
  let dev := if err < 0 then s16 (-err) else err
  let diff := s16 (dev - e.sv >>> (2 : ℕ))
  let sv := s16 (e.sv + diff)
  { e with sa := sa, sv := sv, rto := s16 (sa >>> (3 : ℕ) + sv) }

/-- The back-off of the slow timer, before it is stored -/
def backedOff (nrtx : ℕ) (e : Estimate) : ℤ := (e.sa >>> (3 : ℕ) + e.sv) <<< tcpBackoff.getD nrtx 0

/-- `rtime` is increased while it runs. -/
def counted (e : Estimate) : Estimate := { e with rtime := if 0 ≤ e.rtime then s16 (e.rtime + 1) else e.rtime }

/-- `unacked != NULL && rtime >= rto`, behind the increase of `rtime` -/
def fires (unacked : Bool) (e : Estimate) : Bool := unacked && decide (e.rto ≤ e.counted.rtime)

/-- The part of `tcp_slowtmr` for the retransmission timer -/
def tick (nrtx : ℕ) (synSent unacked : Bool) (e : Estimate) : Estimate :=
  if e.fires unacked then
    { e.counted with rto := if synSent then e.rto else s16 (e.backedOff nrtx), rtime := 0 }
  else e.counted

/-- The step of an event. -/
def exec (e : Estimate) : RtoEvent → Estimate
  | .sample m _ => e.sample m
  | .ackNew unacked => { e with rto := s16 (e.sa >>> (3 : ℕ) + e.sv), rtime := if unacked then 0 else -1 }
  | .sent => { e with rtime := if e.rtime = -1 then 0 else e.rtime }
  | .tick nrtx synSent unacked => e.tick nrtx synSent unacked

/-- The values of `sa`, `sv`, `rto` and `m` that the event stores -/
def values (e : Estimate) : RtoEvent → List ℤ
  | .sample m _ => e.sampleValues m
  | .ackNew _ => [e.sa >>> (3 : ℕ) + e.sv]
  | .sent => []
  | .tick nrtx synSent unacked => if e.fires unacked ∧ synSent = false then [e.backedOff nrtx] else []

/-- Whether the retransmission timer fires in the event -/
def firesAt (e : Estimate) : RtoEvent → Bool
  | .tick _ _ unacked => e.fires unacked
  | _ => false

/-- Whether it fired at the last tick, when `fired` says so for the tick before the event -/
def firedAfter (fired : Bool) (e : Estimate) : RtoEvent → Bool
  | .tick _ _ unacked => e.fires unacked
  | _ => fired

/-- The event stores values of 16 bits only and leaves `sa`, `sv` and `rto` with their signs; the
timer does not fire again at the next tick. -/
structure Sound (fired : Bool) (e : Estimate) (event : RtoEvent) : Prop where
  representable : ∀ v ∈ e.values event, -2 ^ 15 ≤ v ∧ v < 2 ^ 15
  sa_nonneg : 0 ≤ (e.exec event).sa
  sv_pos : 0 < (e.exec event).sv
  rto_pos : 0 < (e.exec event).rto
  paced : fired = true → e.firesAt event = false

/-- Every step of the run is sound. -/
def RunSound : Bool → Estimate → List RtoEvent → Prop
  | _, _, [] => True
  | fired, e, event :: events =>
    Sound fired e event ∧ RunSound (e.firedAfter fired event) (e.exec event) events

/-- There is room for the sample in `sa` and in the time-out, or for the back-off. -/
def Room (e : Estimate) : RtoEvent → Prop
  | .sample m _ =>
    e.sa - e.sa / 8 + m < 2 ^ 15
      ∧ (e.sa - e.sa / 8 + m) / 8 + (e.sv - e.sv / 4 + |(m : ℤ) - e.sa / 8|) < 2 ^ 15
  | .tick nrtx synSent unacked =>
    e.fires unacked = true → synSent = false → e.sa / 8 + e.sv < 2 ^ (15 - tcpBackoff.getD nrtx 0)
  | _ => True

/-- There is room in every step of the run. -/
def RunRoom : Estimate → List RtoEvent → Prop
  | _, [] => True
  | e, event :: events => e.Room event ∧ RunRoom (e.exec event) events

/-! ### The estimate while there is room -/

variable {e : Estimate} {m : ℤ}

theorem s16_of_range {x : ℤ} (hlo : -2 ^ 15 ≤ x) (hhi : x < 2 ^ 15) : s16 x = x :=
  wrapS_of_range (by decide) hlo hhi

theorem sa_shift (e : Estimate) : e.sa >>> (3 : ℕ) = e.sa / 8 := Int.shiftRight_eq_div_pow _ _

theorem sv_shift (e : Estimate) : e.sv >>> (2 : ℕ) = e.sv / 4 := Int.shiftRight_eq_div_pow _ _

/-- The deviation never sinks below 3, as `sv - sv / 4` does not from 3 on; with it the time-out stays
away from the single tick that would be fatal. -/
structure Steady (fired : Bool) (e : Estimate) : Prop where
  sa_nonneg : 0 ≤ e.sa
  sa_lt : e.sa < 2 ^ 15
  sv_ge : 3 ≤ e.sv
  sum_lt : e.sa / 8 + e.sv < 2 ^ 15
  rto_ge : 3 ≤ e.rto
  rtime_le : fired = true → e.rtime ≤ 0

variable {fired : Bool}

/-- The smoothed round-trip time after a sample -/
def nextSa (m : ℤ) (e : Estimate) : ℤ := e.sa - e.sa / 8 + m

/-- The deviation after a sample -/
def nextSv (m : ℤ) (e : Estimate) : ℤ := e.sv - e.sv / 4 + |m - e.sa / 8|

theorem Steady.err_range (h : Steady fired e) (hm : 0 ≤ m) (hlt : m < 2 ^ 15) :
    -2 ^ 15 < m - e.sa / 8 ∧ m - e.sa / 8 < 2 ^ 15 := by
  have := h.sa_nonneg
  have := h.sa_lt
  omega

/-- Up to the two sums nothing can overflow. -/
theorem Steady.sampleValues (h : Steady fired e) (hm : 0 ≤ m) (hlt : m < 2 ^ 15) :
    e.sampleValues m = [m - e.sa / 8, nextSa m e, |m - e.sa / 8|, |m - e.sa / 8| - e.sv / 4,
      nextSv m e, s16 (nextSa m e) / 8 + s16 (nextSv m e)] := by
  obtain ⟨hlo, hhi⟩ := h.err_range hm hlt
  have hsv := h.sv_ge
  have hsum := h.sum_lt
  have hsa := h.sa_nonneg
  have herr : s16 (m - e.sa / 8) = m - e.sa / 8 := s16_of_range hlo.le hhi
  have hdev : (if m - e.sa / 8 < 0 then -(m - e.sa / 8) else m - e.sa / 8) = |m - e.sa / 8| := by
    split_ifs with hneg
    · rw [abs_of_neg hneg]
    · rw [abs_of_nonneg (not_lt.mp hneg)]
  have hdev' : (if m - e.sa / 8 < 0 then s16 (-(m - e.sa / 8)) else m - e.sa / 8) = |m - e.sa / 8| := by
    rw [s16_of_range (by omega) (by omega), hdev]
  have habs : 0 ≤ |m - e.sa / 8| ∧ |m - e.sa / 8| < 2 ^ 15 := ⟨abs_nonneg _, abs_lt.mpr ⟨hlo, hhi⟩⟩
  have hdiff : s16 (|m - e.sa / 8| - e.sv / 4) = |m - e.sa / 8| - e.sv / 4 :=
    s16_of_range (by omega) (by omega)
  have hnextSa : e.sa + (m - e.sa / 8) = nextSa m e := by
    rw [nextSa]
    ring
  have hnextSv : e.sv + (|m - e.sa / 8| - e.sv / 4) = nextSv m e := by
    rw [nextSv]
    ring
  rw [Estimate.sampleValues]
  simp only [sa_shift, sv_shift, herr, hdev, hdev', hdiff, hnextSa, hnextSv]
  rw [Int.shiftRight_eq_div_pow]
  rfl

theorem Steady.nextSa_nonneg (h : Steady fired e) (hm : 0 ≤ m) : 0 ≤ nextSa m e := by
  have := h.sa_nonneg
  rw [nextSa]
  omega

theorem Steady.nextSv_ge (h : Steady fired e) : 3 ≤ nextSv m e := by
  have := h.sv_ge
  have := abs_nonneg (m - e.sa / 8)
  rw [nextSv]
  omega

/-- What the estimation computes, when the sums have room -/
theorem Steady.sample_eq (h : Steady fired e) (hm : 0 ≤ m) (hlt : m < 2 ^ 15) (hsa : nextSa m e < 2 ^ 15)
    (hsum : nextSa m e / 8 + nextSv m e < 2 ^ 15) :
    e.sample m = { e with sa := nextSa m e, sv := nextSv m e, rto := nextSa m e / 8 + nextSv m e } := by
  have hpos := h.nextSa_nonneg hm
  have hge := h.nextSv_ge (m := m)
  have hsa' : s16 (nextSa m e) = nextSa m e := s16_of_range (by omega) hsa
  have hsv' : s16 (nextSv m e) = nextSv m e := s16_of_range (by omega) (by omega)
  have hlast : e.sample m = { e with
      sa := s16 ((e.sampleValues m).getD 1 0)
      sv := s16 ((e.sampleValues m).getD 4 0)
      rto := s16 ((e.sampleValues m).getD 5 0) } := rfl
  have hrto : s16 (nextSa m e / 8 + nextSv m e) = nextSa m e / 8 + nextSv m e :=
    s16_of_range (by omega) hsum
  rw [hlast, h.sampleValues hm hlt]
  simp only [List.getD_cons_succ, List.getD_cons_zero, hsa', hsv', hrto]

/-- The values of a sample fit exactly when the two sums have room. -/
theorem Steady.sample_representable (h : Steady fired e) (hm : 0 ≤ m) (hlt : m < 2 ^ 15) :
    (∀ v ∈ e.sampleValues m, -2 ^ 15 ≤ v ∧ v < 2 ^ 15)
      ↔ nextSa m e < 2 ^ 15 ∧ nextSa m e / 8 + nextSv m e < 2 ^ 15 := by
  obtain ⟨hlo, hhi⟩ := h.err_range hm hlt
  have hpos := h.nextSa_nonneg hm
  have hge := h.nextSv_ge (m := m)
  have habs : 0 ≤ |m - e.sa / 8| ∧ |m - e.sa / 8| < 2 ^ 15 := ⟨abs_nonneg _, abs_lt.mpr ⟨hlo, hhi⟩⟩
  have hsv := h.sv_ge
  have hsum := h.sum_lt
  have hsa := h.sa_nonneg
  rw [h.sampleValues hm hlt]
  simp only [List.forall_mem_cons, List.not_mem_nil, false_implies, implies_true, and_true]
  constructor
  · rintro ⟨-, ⟨-, hsa'⟩, -, -, ⟨-, hsv'⟩, ⟨-, hrto⟩⟩
    rw [s16_of_range (by omega) hsa', s16_of_range (by omega) hsv'] at hrto
    exact ⟨hsa', hrto⟩
  · rintro ⟨hsa', hrto⟩
    have hsv' : nextSv m e < 2 ^ 15 := by omega
    rw [s16_of_range (by omega) hsa', s16_of_range (by omega) hsv']
    refine ⟨⟨hlo.le, hhi⟩, ⟨by omega, hsa'⟩, ⟨by omega, habs.2⟩, ⟨by omega, by omega⟩,
      ⟨by omega, hsv'⟩, ⟨by omega, hrto⟩⟩

/-- A shift by `k` fits exactly below `2 ^ (15 - k)`. -/
theorem shift_lt {v : ℤ} {k : ℕ} (hk : k ≤ 15) : v <<< k < 2 ^ 15 ↔ v < 2 ^ (15 - k) := by
  have hpow : (2 : ℤ) ^ 15 = 2 ^ (15 - k) * 2 ^ k := by
    rw [← pow_add, Nat.sub_add_cancel hk]
  rw [Int.shiftLeft_eq, hpow]
  exact mul_lt_mul_iff_left₀ (by positivity)

theorem tcpBackoff_le (n : ℕ) : tcpBackoff.getD n 0 ≤ 7 := by
  have hall : ∀ k ∈ tcpBackoff, k ≤ 7 := by decide
  rw [List.getD_eq_getElem?_getD]
  cases hn : tcpBackoff[n]? with
  | none => exact Nat.zero_le 7
  | some k => exact hall k (List.mem_of_getElem? hn)

theorem Steady.backedOff_ge (h : Steady fired e) (n : ℕ) : 3 ≤ e.backedOff n := by
  have hsv := h.sv_ge
  have hsa := h.sa_nonneg
  have hone : (1 : ℤ) ≤ 2 ^ tcpBackoff.getD n 0 := one_le_pow₀ (by norm_num)
  rw [backedOff, sa_shift, Int.shiftLeft_eq]
  calc (3 : ℤ) ≤ e.sa / 8 + e.sv := by omega
    _ = (e.sa / 8 + e.sv) * 1 := (mul_one _).symm
    _ ≤ (e.sa / 8 + e.sv) * 2 ^ tcpBackoff.getD n 0 := by
      apply mul_le_mul_of_nonneg_left hone
      omega

theorem backedOff_lt (e : Estimate) (n : ℕ) :
    e.backedOff n < 2 ^ 15 ↔ e.sa / 8 + e.sv < 2 ^ (15 - tcpBackoff.getD n 0) := by
  rw [backedOff, sa_shift]
  exact shift_lt ((tcpBackoff_le n).trans (by decide))

/-- After a tick at which it fired the timer has counted one tick at most. -/
theorem Steady.paced (h : Steady fired e) (hfired : fired = true) (unacked : Bool) :
    e.fires unacked = false := by
  have hrto := h.rto_ge
  have hrtime := h.rtime_le hfired
  have hcounted : e.counted.rtime ≤ 1 := by
    rw [counted]
    dsimp only
    split_ifs with hpos
    · rw [s16_of_range (by omega) (by omega)]
      omega
    · omega
  have hlt : ¬ e.rto ≤ e.counted.rtime := by omega
  rw [fires, decide_eq_false hlt, Bool.and_false]

theorem Steady.tick (h : Steady fired e) {n : ℕ} {synSent unacked : Bool}
    (hroom : e.fires unacked = true → synSent = false → e.backedOff n < 2 ^ 15) :
    Steady (e.fires unacked) (e.tick n synSent unacked) := by
  have hge := h.backedOff_ge n
  rw [Estimate.tick]
  by_cases hfires : e.fires unacked = true
  · rw [if_pos hfires]
    refine ⟨h.sa_nonneg, h.sa_lt, h.sv_ge, h.sum_lt, ?_, fun _ => le_rfl⟩
    show 3 ≤ if synSent = true then e.rto else s16 (e.backedOff n)
    split_ifs with hsyn
    · exact h.rto_ge
    · rw [s16_of_range (by omega) (hroom hfires (by simpa using hsyn))]
      exact hge
  · rw [if_neg hfires]
    exact ⟨h.sa_nonneg, h.sa_lt, h.sv_ge, h.sum_lt, h.rto_ge, fun hf => absurd hf hfires⟩

/-! ### Steps -/

theorem Steady.room_iff (h : Steady fired e) (event : RtoEvent) :
    (∀ v ∈ e.values event, -2 ^ 15 ≤ v ∧ v < 2 ^ 15) ↔ e.Room event := by
  have hsa := h.sa_nonneg
  have hsv := h.sv_ge
  cases event with
  | sample m hm => exact h.sample_representable (Int.natCast_nonneg m) (by exact_mod_cast hm)
  | ackNew unacked =>
    refine iff_of_true (fun v hv => ?_) trivial
    rw [List.mem_singleton.mp hv, sa_shift]
    exact ⟨by omega, h.sum_lt⟩
  | sent => exact iff_of_true (fun v hv => absurd hv List.not_mem_nil) trivial
  | tick nrtx synSent unacked =>
    have hge := h.backedOff_ge nrtx
    rw [Room, ← backedOff_lt, values]
    split_ifs with hback
    · constructor
      · intro hall _ _
        exact (hall _ (List.mem_singleton_self _)).2
      · intro hroom v hv
        rw [List.mem_singleton.mp hv]
        exact ⟨by omega, hroom hback.1 hback.2⟩
    · refine iff_of_true (fun v hv => absurd hv List.not_mem_nil) fun hfires hsyn => ?_
      exact absurd ⟨hfires, hsyn⟩ hback

theorem Steady.exec (h : Steady fired e) {event : RtoEvent} (hroom : e.Room event) :
    Steady (e.firedAfter fired event) (e.exec event) := by
  cases event with
  | sample m hm =>
    have hnat : (0 : ℤ) ≤ m := Int.natCast_nonneg m
    have hpos := h.nextSa_nonneg hnat
    have hge := h.nextSv_ge (m := m)
    have heq : e.exec (.sample m hm) = { e with
        sa := nextSa m e, sv := nextSv m e, rto := nextSa m e / 8 + nextSv m e } :=
      h.sample_eq hnat (by exact_mod_cast hm) hroom.1 hroom.2
    rw [heq]
    refine ⟨hpos, hroom.1, hge, hroom.2, ?_, h.rtime_le⟩
    show 3 ≤ nextSa m e / 8 + nextSv m e
    omega
  | ackNew unacked =>
    have hsa := h.sa_nonneg
    have hsv := h.sv_ge
    refine ⟨h.sa_nonneg, h.sa_lt, h.sv_ge, h.sum_lt, ?_, fun _ => ?_⟩
    · show 3 ≤ s16 (e.sa >>> (3 : ℕ) + e.sv)
      rw [sa_shift, s16_of_range (by omega) h.sum_lt]
      omega
    · show (if unacked = true then 0 else -1) ≤ (0 : ℤ)
      split_ifs <;> omega
  | sent =>
    refine ⟨h.sa_nonneg, h.sa_lt, h.sv_ge, h.sum_lt, h.rto_ge, fun hfired => ?_⟩
    have hle := h.rtime_le hfired
    show (if e.rtime = -1 then 0 else e.rtime) ≤ 0
    split_ifs <;> omega
  | tick nrtx synSent unacked =>
    exact h.tick fun hfires hsyn => (backedOff_lt e nrtx).mpr (hroom hfires hsyn)

theorem Steady.sound_iff (h : Steady fired e) (event : RtoEvent) : Sound fired e event ↔ e.Room event := by
  constructor
  · exact fun hsound => (h.room_iff event).mp hsound.representable
  · intro hroom
    have hnext := h.exec hroom
    have hsv := hnext.sv_ge
    have hrto := hnext.rto_ge
    refine ⟨(h.room_iff event).mpr hroom, hnext.sa_nonneg, by omega, by omega, fun hfired => ?_⟩
    cases event with
    | tick nrtx synSent unacked => exact h.paced hfired unacked
    | sample m hm => rfl
    | ackNew unacked => rfl
    | sent => rfl

/-! ### Runs -/

theorem Steady.runSound_iff (h : Steady fired e) (events : List RtoEvent) :
    RunSound fired e events ↔ RunRoom e events := by
  induction events generalizing fired e with
  | nil => exact Iff.rfl
  | cons event events ih =>
    rw [RunSound, RunRoom, h.sound_iff event]
    constructor
    · exact fun hrun => ⟨hrun.1, (ih (h.exec hrun.1)).mp hrun.2⟩
    · exact fun hrun => ⟨hrun.1, (ih (h.exec hrun.1)).mpr hrun.2⟩

theorem steady_alloc : Steady false {} := by
  refine ⟨?_, ?_, ?_, ?_, ?_, ?_⟩ <;> decide

/-- From `tcp_alloc` on, exactly the runs with room in every step keep their values in 16 bits and the
time-out positive, and let no two ticks in succession retransmit. -/
theorem rto_sound_iff (events : List RtoEvent) :
    RunSound false {} events ↔ RunRoom {} events :=
  steady_alloc.runSound_iff events

/-- A tick of an open connection that waits for an acknowledgement and has sent twice -/
def waitingTick : RtoEvent := .tick ⟨2, by decide⟩ false true

/-- The largest sample overflows `sv` on its own: the time-out is negative afterwards, and again when it
has been shifted by 3, so that the timer fires at two ticks in succession. -/
theorem rto_overflow : ∃ events : List RtoEvent, ¬ RunSound false {} events
    ∧ (events.foldl exec {}).rto < 0
    ∧ (events.foldl exec {}).firesAt waitingTick = true
    ∧ ((events.foldl exec {}).exec waitingTick).firesAt waitingTick = true := by
  refine ⟨[.sent, .sample 32767 (by decide)], fun h => ?_, by decide +kernel, by decide +kernel,
    by decide +kernel⟩
  have hsv : (32772 : ℤ) < 2 ^ 15 := (h.2.1.representable 32772 (by decide +kernel)).2
  exact absurd hsv (by decide)

/-! ### Short round trips -/

/-- What samples of 50 ticks, that is 25 s, can make of the estimate -/
structure Short (e : Estimate) : Prop where
  sa_le : e.sa ≤ 8 * 50
  sv_le : e.sv ≤ 4 * 50 + 3

theorem Short.room (hs : Short e) (h : Steady fired e) {event : RtoEvent}
    (hshort : ∀ m hm, event = .sample m hm → m ≤ 50) : e.Room event := by
  have hsa := h.sa_nonneg
  have hsv := h.sv_ge
  obtain ⟨hsa', hsv'⟩ := hs
  cases event with
  | sample m hm =>
    have hle : m ≤ 50 := hshort m hm rfl
    have habs : |(m : ℤ) - e.sa / 8| ≤ 50 := abs_le.mpr ⟨by omega, by omega⟩
    exact ⟨by omega, by omega⟩
  | tick nrtx synSent unacked =>
    intro _ _
    have hpow : (2 : ℤ) ^ 8 ≤ 2 ^ (15 - tcpBackoff.getD nrtx 0) :=
      pow_le_pow_right₀ (by norm_num) (by have := tcpBackoff_le nrtx; omega)
    omega
  | ackNew unacked => trivial
  | sent => trivial

theorem Short.exec (hs : Short e) (h : Steady fired e) {event : RtoEvent}
    (hshort : ∀ m hm, event = .sample m hm → m ≤ 50) : Short (e.exec event) := by
  have hroom := hs.room h hshort
  have hsa := h.sa_nonneg
  have hsv := h.sv_ge
  obtain ⟨hsa', hsv'⟩ := hs
  cases event with
  | sample m hm =>
    have hle : m ≤ 50 := hshort m hm rfl
    have habs : |(m : ℤ) - e.sa / 8| ≤ 50 := abs_le.mpr ⟨by omega, by omega⟩
    have heq : e.exec (.sample m hm) = { e with
        sa := nextSa m e, sv := nextSv m e, rto := nextSa m e / 8 + nextSv m e } :=
      h.sample_eq (Int.natCast_nonneg m) (by exact_mod_cast hm) hroom.1 hroom.2
    rw [heq]
    refine ⟨?_, ?_⟩
    · show nextSa m e ≤ 8 * 50
      rw [nextSa]
      omega
    · show nextSv m e ≤ 4 * 50 + 3
      rw [nextSv]
      omega
  | tick nrtx synSent unacked =>
    show Short (e.tick nrtx synSent unacked)
    rw [Estimate.tick]
    split <;> exact ⟨hsa', hsv'⟩
  | ackNew unacked => exact ⟨hsa', hsv'⟩
  | sent => exact ⟨hsa', hsv'⟩

theorem Short.runRoom (hs : Short e) (h : Steady fired e) {events : List RtoEvent}
    (hshort : ∀ m hm, RtoEvent.sample m hm ∈ events → m ≤ 50) : RunRoom e events := by
  induction events generalizing fired e with
  | nil => trivial
  | cons event events ih =>
    have hfirst : ∀ m hm, event = .sample m hm → m ≤ 50 :=
      fun m hm heq => hshort m hm (heq ▸ List.mem_cons_self)
    have hroom := hs.room h hfirst
    exact ⟨hroom, ih (hs.exec h hfirst) (h.exec hroom) fun m hm hmem =>
      hshort m hm (List.mem_cons_of_mem _ hmem)⟩

/-- A run whose samples are at most 25 s has room in every step. -/
theorem runRoom_of_short {events : List RtoEvent}
    (h : ∀ m hm, RtoEvent.sample m hm ∈ events → m ≤ 50) : RunRoom {} events := by
  have hs : Short {} := ⟨by decide, by decide⟩
  exact hs.runRoom steady_alloc h

end Estimate

end QuietLwip.Sender
