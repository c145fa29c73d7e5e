import QuietLwip.Tcp.Places

/-!
# The axioms of the pcb lists

The lists end, no pcb is in two of them or in one twice, and each holds the pcbs of its states.
They hold along every run in which the calls of the application keep the bound pcbs right, the
slow timer unlinks behind the right pcb and the callbacks leave `tcp_input` its pcb. The rest of
the runs reach a list that goes round.
-/

namespace QuietLwip.Tcp

open Transition

/-- The axioms about the lists `l`. -/
structure Stack.Axioms (t : Stack) (l : PcbList → List ℕ) : Prop where
  acyclic : ∀ w, t.lists.At w (l w)
  once : ∀ w, (l w).Nodup
  disjoint : ∀ v w, v ≠ w → (l v).Disjoint (l w)
  live : ∀ w, ∀ n ∈ l w, t.live n = true
  inOne : ∀ n, t.live n = true → (t.pcb n).state ≠ .closed → ∃! w, n ∈ l w
  listen : ∀ n, n ∈ l .listen ↔ t.live n = true ∧ (t.pcb n).state = .listen
  timeWait : ∀ n, n ∈ l .tw ↔ t.live n = true ∧ (t.pcb n).state = .timeWait
  bound : ∀ n, t.live n = true → (t.pcb n).state = .closed →
    (n ∈ l .bound ↔ (t.pcb n).localPort ≠ 0)

theorem home_listen {pcb : TcpPcb} : pcb.home = some .listen ↔ pcb.state = .listen := by
  unfold TcpPcb.home
  cases pcb.state <;> simp

theorem home_tw {pcb : TcpPcb} : pcb.home = some .tw ↔ pcb.state = .timeWait := by
  unfold TcpPcb.home
  cases pcb.state <;> simp

theorem home_isSome {pcb : TcpPcb} (h : pcb.state ≠ .closed) : ∃ w, pcb.home = some w := by
  unfold TcpPcb.home
  cases hstate : pcb.state with
  | closed => exact absurd hstate h
  | _ => exact ⟨_, rfl⟩

theorem axioms_of_on {t : Stack} (h : ∀ w, t.On w) : ∃ l, t.Axioms l := by
  choose l hl hmem using h
  refine ⟨l, hl, fun w => (hl w).nodup, fun v w hvw n hv hw => ?_, fun w n hn => ?_,
    fun n hlive hstate => ?_, fun n => ?_, fun n => ?_, fun n hlive hclosed => ?_⟩
  · have hv' := ((hmem v n).mp hv).2
    have hw' := ((hmem w n).mp hw).2
    exact hvw (Option.some.inj (hv'.symm.trans hw'))
  · exact ((hmem w n).mp hn).1
  · obtain ⟨w, hw⟩ := home_isSome hstate
    refine ⟨w, (hmem w n).mpr ⟨hlive, hw⟩, fun v hv => ?_⟩
    exact Option.some.inj (((hmem v n).mp hv).2.symm.trans hw)
  · rw [hmem, home_listen]
  · rw [hmem, home_tw]
  · rw [hmem, Stack.home_of_closed hclosed]
    split <;> simp_all

theorem State.Start.on {s : State} (h : s.Start) (w : PcbList) : s.tcp.On w := by
  refine ⟨[], h.head w, fun n => ?_⟩
  simp [h.live n]

theorem State.Start.sound {s : State} (h : s.Start) : s.Sound where
  shape w _ := h.on w
  placed := by
    rw [h.activity]
    trivial
  pending hp := absurd h.pending hp

/-- In a run whose steps are orderly and fit, all lists are right. -/
theorem on_of_run {ok : State → Event → Prop} {as : List Event} {s : State}
    (hok : ∀ s e, ok s e → e.Orderly s ∧ e.Fits s) (hr : tcpSystem.Run ok as s) :
    s.Sound ∧ ∀ w, s.tcp.On w := by
  refine hr.invariant (I := fun _ s => s.Sound ∧ ∀ w, s.tcp.On w)
    (fun s (h : s.Start) => ⟨h.sound, h.on⟩) ?_
  intro _ s e s' _ hs he hstep
  obtain ⟨hord, hfits⟩ := hok s e he
  exact ⟨step_sound hs.1 hord hstep, fun w => step_on hs.1 (hs.2 w) hord (fun _ => hfits) hstep⟩

/-- In every run whose steps are orderly and fit, the axioms hold in every state. -/
theorem axioms_hold {as : List Event} {s : State}
    (hr : tcpSystem.Run (fun s e => e.Orderly s ∧ e.Fits s) as s) : ∃ l, s.tcp.Axioms l :=
  axioms_of_on (on_of_run (fun _ _ h => h) hr).2

/-! ### Runs of an application that is alone -/

/-- The pools give the pcb asked for. -/
def poolGives (n : ℕ) : Env where
  out _ := ⟨false, -1, false, false⟩
  malloc _ := some n
  route := none
  enqueue := true
  effSendMss := 536

def emptyStack : Stack where
  room := 5
  live _ := false
  pcb _ := ⟨.closed, 0, false, 0, 0, 0, 0, 0, {}⟩
  lists := ⟨fun _ => none, fun _ => none⟩
  changed := false
  port := 0xc000
  timer := 0
  timerCtr := 0
  ticks := 0

def idleState : State := ⟨emptyStack, .idle, []⟩

theorem idleState_start : idleState.Start := ⟨fun _ => rfl, fun _ => rfl, rfl, rfl⟩

/-- The run goes on with a call. -/
theorem run_call {ok : State → Event → Prop} {as : List Event} {s : State} {t : Stack}
    {pending : Option Pending} (hr : tcpSystem.Run ok as s) (env : Env) (c : Call)
    (hok : ok s (.call env c)) (happ : s.activity.AppRuns) (hvalid : c.Valid s.tcp)
    (hexec : c.exec env s.tcp = some (t, pending)) :
    tcpSystem.Run ok (as ++ [.call env c])
      { s with tcp := t, pending := pending.toList ++ s.pending } :=
  .snoc hr hok (.call happ hvalid hexec)

/-- The error callback of `tcp_abort` returns. -/
theorem run_aborted {ok : State → Event → Prop} {as : List Event} {s : State}
    {pending : List Pending} (hr : tcpSystem.Run ok as s) (env : Env) (err : Err)
    (hok : ok s (.ret env err)) (hpending : s.pending = .aborting :: pending) :
    tcpSystem.Run ok (as ++ [.ret env err]) { s with pending := pending } :=
  .snoc hr hok (.aborted hpending)

theorem valid_of_pcb {c : Call} {t : Stack} {n : ℕ} (hc : c.pcb = some n) (hn : t.live n = true) :
    c.Valid t := by
  intro m hm
  rw [hc] at hm
  cases hm
  exact hn

/-- A pcb is bound and listens in the smaller pcb 1. -/
theorem axioms_hold_listening :
    ∃ s, tcpSystem.Run (fun s e => e.Orderly s ∧ e.Fits s)
        [.call (poolGives 0) .new, .call (poolGives 0) (.bind 0 0 80),
          .call (poolGives 1) (.listen 0)] s ∧
      s.tcp.lists.head .listen = some 1 ∧ ∃ l, s.tcp.Axioms l := by
  have hstart : tcpSystem.Run (fun s e => e.Orderly s ∧ e.Fits s) [] idleState :=
    .start idleState_start
  have hnew := run_call hstart (poolGives 0) .new ⟨trivial, trivial⟩ trivial nofun rfl
  have hbind := run_call hnew (poolGives 0) (.bind 0 0 80) ⟨trivial, .inl rfl⟩ trivial
    (valid_of_pcb rfl rfl) rfl
  have hlisten := run_call hbind (poolGives 1) (.listen 0) ⟨trivial, trivial⟩ trivial
    (valid_of_pcb rfl rfl) rfl
  exact ⟨_, hlisten, rfl, axioms_hold hlisten⟩

/-- An aborted pcb stays among the bound ones; when it is allocated and bound again, its link
points to itself. -/
theorem axioms_fail :
    ¬ ∀ (as : List Event) (s : State), tcpSystem.Run (fun _ _ => True) as s →
      ∃ l, s.tcp.Axioms l := by
  intro h
  have hstart : tcpSystem.Run (fun _ _ => True) [] idleState := .start idleState_start
  have hnew := run_call hstart (poolGives 0) .new trivial trivial nofun rfl
  have hbind := run_call hnew (poolGives 0) (.bind 0 0 80) trivial trivial
    (valid_of_pcb rfl rfl) rfl
  have habort := run_call hbind (poolGives 0) (.abort 0) trivial trivial
    (valid_of_pcb rfl rfl) rfl
  have hret := run_aborted habort (poolGives 0) .ok trivial rfl
  have hnew' := run_call hret (poolGives 0) .new trivial trivial nofun rfl
  have hbind' := run_call hnew' (poolGives 0) (.bind 0 0 81) trivial trivial
    (valid_of_pcb rfl rfl) rfl
  obtain ⟨l, hl⟩ := h _ _ hbind'
  have hbound : Links.ListAt _ (some 0) (l .bound) := hl.acyclic .bound
  exact Links.not_listAt_of_self (by rfl) hbound

end QuietLwip.Tcp
