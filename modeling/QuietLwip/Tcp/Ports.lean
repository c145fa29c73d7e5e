import QuietLwip.Tcp.Api
import QuietLwip.Foundation.Sweep

/-!
# Ephemeral ports

`tcp_new_port` goes round the dynamic range from the port chosen last. It gives up after as many
ports in use as the range has, so it comes back with 0 only when it has tried them all.
-/

namespace QuietLwip.Tcp

open Links

def tcpLocalPortRangeStart : ℕ := 0xc000

def tcpLocalPortRangeEnd : ℕ := 0xffff

/-- `TCP_LOCAL_PORT_RANGE_START` to `TCP_LOCAL_PORT_RANGE_END`. -/
def Dynamic (port : ℕ) : Prop := tcpLocalPortRangeStart ≤ port ∧ port ≤ tcpLocalPortRangeEnd

instance (port : ℕ) : Decidable (Dynamic port) := inferInstanceAs (Decidable (_ ∧ _))

namespace Stack

variable {t : Stack} {l : PcbList → List ℕ} {port : ℕ}

/-- The lists hold the pcbs `l`, of a pool that is large enough for each. -/
structure Holds (t : Stack) (l : PcbList → List ℕ) : Prop where
  list : ∀ w, t.lists.At w (l w)
  room : ∀ w, (l w).length ≤ t.room

/-- A pcb of one of the lists has the port. -/
def Uses (t : Stack) (l : PcbList → List ℕ) (port : ℕ) : Prop :=
  ∃ w, ∃ n ∈ l w, (t.pcb n).localPort = port

/-- `tcp_port` after so many steps. -/
def portAfter (t : Stack) (k : ℕ) : ℕ :=
  (Sweep.turn tcpLocalPortRangeStart tcpLocalPortRangeEnd)^[k] t.port

theorem Holds.nextPort (h : t.Holds l) : t.nextPort.Holds l := ⟨h.list, h.room⟩

theorem Holds.search (h : t.Holds l) (w : PcbList) (p : TcpPcb → Bool) :
    t.search w p = some ((l w).any fun n => p (t.pcb n)) :=
  ListAt.findFrom_any (h.list w) (h.room w)

theorem Holds.searchAll (h : t.Holds l) (p : TcpPcb → Bool) (ws : List PcbList) :
    t.searchAll p ws = some (ws.any fun w => (l w).any fun n => p (t.pcb n)) := by
  induction ws with
  | nil => rfl
  | cons w ws ih =>
    rw [Stack.searchAll, h.search, Option.bind_some, List.any_cons]
    cases hw : (l w).any fun n => p (t.pcb n)
    · exact ih
    · rfl

theorem uses_iff : t.Uses l port ↔ ([.listen, .bound, .active, .tw] : List PcbList).any
    (fun w => (l w).any fun n => (t.pcb n).localPort == port) = true := by
  simp only [Uses, List.any_eq_true, beq_iff_eq]
  constructor
  · rintro ⟨w, n, hn, hport⟩
    refine ⟨w, ?_, n, hn, hport⟩
    cases w <;> decide
  · rintro ⟨w, -, n, hn, hport⟩
    exact ⟨w, n, hn, hport⟩

/-- One port is tried. -/
theorem Holds.tried (h : t.Holds l) : ∃ used,
    t.nextPort.searchAll (fun pcb => pcb.localPort == t.nextPort.port)
      [.listen, .bound, .active, .tw] = some used ∧
    (used = true ↔ t.Uses l (t.portAfter 1)) :=
  ⟨_, h.nextPort.searchAll .., uses_iff.symm⟩

theorem portAfter_dynamic (h : Dynamic t.port) (k : ℕ) : Dynamic (t.portAfter k) := by
  induction k with
  | zero => exact h
  | succ k ih =>
    rw [portAfter, Function.iterate_succ_apply']
    exact Sweep.turn_range ih

/-- The search ends with the first port that is not in use, or with 0 when all those it may try
are. -/
theorem Holds.newPortLoop (h : t.Holds l) (more : ℕ) : ∃ k ≤ more, ∃ port,
    t.newPortLoop more = some ({ t with port := t.portAfter (k + 1) }, port) ∧
      ((port = t.portAfter (k + 1) ∧ ¬ t.Uses l port) ∨
        port = 0 ∧ ∀ i ≤ more, t.Uses l (t.portAfter (i + 1))) := by
  induction more generalizing t with
  | zero =>
    obtain ⟨used, hsearch, hused⟩ := h.tried
    rw [Stack.newPortLoop, hsearch]
    cases used with
    | true =>
      refine ⟨0, le_rfl, 0, rfl, .inr ⟨rfl, fun i hi => ?_⟩⟩
      rw [Nat.le_zero.mp hi]
      exact hused.mp rfl
    | false => exact ⟨0, le_rfl, _, rfl, .inl ⟨rfl, fun huses => Bool.noConfusion (hused.mpr huses)⟩⟩
  | succ more ih =>
    obtain ⟨used, hsearch, hused⟩ := h.tried
    rw [Stack.newPortLoop, hsearch]
    cases used with
    | true =>
      obtain ⟨k, hk, port, hloop, hport⟩ := ih h.nextPort
      refine ⟨k + 1, Nat.succ_le_succ hk, port, hloop, hport.imp_right ?_⟩
      rintro ⟨rfl, hall⟩
      refine ⟨rfl, fun i hi => ?_⟩
      cases i with
      | zero => exact hused.mp rfl
      | succ i => exact hall i (Nat.le_of_succ_le_succ hi)
    | false =>
      exact ⟨0, Nat.zero_le _, _, rfl, .inl ⟨rfl, fun huses => Bool.noConfusion (hused.mpr huses)⟩⟩

/-- The ports tried are those of the range. -/
theorem exists_portAfter (h : Dynamic t.port) (hport : Dynamic port) :
    ∃ k ≤ 0x3fff, t.portAfter (k + 1) = port :=
  Sweep.exists_turn h hport

/-- `tcp_new_port` finds a port of the range that no pcb has, and 0 only when there is none. -/
theorem tcpNewPort_spec (h : t.Holds l) (hdyn : Dynamic t.port) : ∃ last port,
    t.tcpNewPort = some ({ t with port := last }, port) ∧ Dynamic last ∧
      ((Dynamic port ∧ ¬ t.Uses l port) ∨ port = 0) ∧
      (port = 0 ↔ ∀ q, Dynamic q → t.Uses l q) := by
  obtain ⟨k, -, port, hloop, hport⟩ := h.newPortLoop 0x3fff
  have hlast : Dynamic (t.portAfter (k + 1)) := portAfter_dynamic hdyn (k + 1)
  refine ⟨_, port, hloop, hlast, ?_⟩
  rcases hport with ⟨rfl, hfree⟩ | ⟨rfl, hall⟩
  · refine ⟨.inl ⟨hlast, hfree⟩, fun hzero => ?_, fun hused => absurd (hused _ hlast) hfree⟩
    rw [hzero] at hlast
    exact absurd hlast (by decide)
  · refine ⟨.inr rfl, fun _ q hq => ?_, fun _ => rfl⟩
    obtain ⟨i, hi, rfl⟩ := exists_portAfter hdyn hq
    exact hall i hi

/-- One pcb is bound to the first port of the range, which is the next one to be tried. -/
def firstBound : Stack where
  room := 1
  live := fun n => n = 0
  pcb := fun _ =>
    { state := .closed, prio := 64, reuseaddr := false, localIp := 0, localPort := 0xc000,
      remoteIp := 0, remotePort := 0, lastTimer := 0, conn := {} }
  lists := { next := fun _ => none, head := fun w => if w = .bound then some 0 else none }
  changed := false
  port := 0xffff
  timer := 0
  timerCtr := 0
  ticks := 0

/-- The pcbs of its lists. -/
def firstBoundPcbs (w : PcbList) : List ℕ := if w = .bound then [0] else []

theorem firstBound_holds : firstBound.Holds firstBoundPcbs where
  list w := by cases w <;> first | exact ⟨rfl, rfl⟩ | rfl
  room w := by cases w <;> decide

theorem tcpNewPort_firstBound : ∃ last port,
    firstBound.tcpNewPort = some ({ firstBound with port := last }, port) ∧ Dynamic last ∧
      ((Dynamic port ∧ ¬ firstBound.Uses firstBoundPcbs port) ∨ port = 0) ∧
      (port = 0 ↔ ∀ q, Dynamic q → firstBound.Uses firstBoundPcbs q) :=
  tcpNewPort_spec firstBound_holds (by decide)

end Stack

end QuietLwip.Tcp
