import QuietLwip.Tcp.Axioms
import QuietLwip.Tcp.Ticks

/-!
# The ticks along a run

What the timers do in each state of a run, and a run in which `tcp_fasttmr` does not end.
-/

namespace QuietLwip.Tcp

open Transition Word

variable {env : Env} {err : Err} {t t' : Stack} {w v : PcbList} {n m : ℕ} {a a' : Activity}
  {prev pcb : Option ℕ} {front back : List ℕ} {s s' : State} {e : Event}

namespace Stack

/-! ### No assertion fails -/

theorem unlinkAssert_of_at (hat : t.lists.At w (front ++ n :: back))
    (hprev : front.getLast? = prev) : t.unlinkAssert w prev n = true := by
  have hhead : (front ++ n :: back).head? = t.lists.head w := Links.ListAt.head hat
  rw [unlinkAssert]
  cases front with
  | nil =>
    subst hprev
    exact decide_eq_true hhead.symm
  | cons m front =>
    subst hprev
    have hne : m ≠ n := by
      rintro rfl
      exact Links.not_mem_of_nodup hat.nodup (List.mem_cons_self ..)
    rw [List.getLast?_cons, ← hhead]
    exact decide_eq_true fun heq => hne (Option.some.inj heq)

theorem slowTurn_goesOn (hactive : t.On .active) (hplaced : t.Reached (some n))
    (hprev : t.RemovesBehind env prev n) : ∃ t' a, t.slowTurn env prev n = some (t', a) := by
  have hstate := state_of_home (hplaced.active hactive).2
  have hrun : ¬((t.pcb n).state = .closed ∨ (t.pcb n).state = .listen ∨
      (t.pcb n).state = .timeWait) := by
    rintro (h | h | h) <;> rw [h] at hstate <;> cases hstate
  rw [slowTurn]
  rw [if_neg hrun]
  split
  · exact ⟨_, _, rfl⟩
  · rename_i hstamp
    split
    · rename_i hdue
      obtain ⟨front, back, hat, _⟩ := hplaced.split
      have hlast := hprev hstamp hdue front back hat
      have hassert : (t.slowWorked env n).unlinkAssert .active prev n = true :=
        unlinkAssert_of_at hat hlast
      rw [slowRemove]
      rw [if_pos hassert]
      exact ⟨_, _, rfl⟩
    · exact ⟨_, _, rfl⟩

theorem timeWaitTurn_goesOn (htw : t.On .tw)
    (hplaced : (Activity.timeWait prev (some n)).Placed t) :
    ∃ t' a, t.timeWaitTurn prev n = some (t', a) := by
  obtain ⟨front, back, hat, hhead, hlast⟩ := hplaced
  obtain ⟨back, rfl⟩ := List.head?_eq_some_iff.mp hhead
  have hstate := state_of_home_tw ((htw.mem hat n).mp (by simp)).2
  rw [timeWaitTurn]
  rw [if_pos hstate]
  split
  · rw [if_pos (unlinkAssert_of_at hat hlast)]
    exact ⟨_, _, rfl⟩
  · exact ⟨_, _, rfl⟩

theorem turn_goesOn (hshape : t.Shape) (hplaced : a.Placed t) (ha : ¬ a.AppRuns)
    (hprev : ∀ prev n, a = .slow prev (some n) → t.RemovesBehind env prev n) :
    ∃ t' a', t.turn env a = some (t', a') := by
  cases a with
  | fast pcb => cases pcb <;> exact ⟨_, _, rfl⟩
  | slow prev pcb =>
    cases pcb with
    | none => exact ⟨_, _, rfl⟩
    | some n => exact slowTurn_goesOn (hshape .active nofun) hplaced (hprev prev n rfl)
  | timeWait prev pcb =>
    cases pcb with
    | none => exact ⟨_, _, rfl⟩
    | some n => exact timeWaitTurn_goesOn (hshape .tw nofun) hplaced
  | _ => exact absurd trivial ha

/-! ### Exactly the pcbs that are due are unlinked -/

theorem unlinks_none (hlists : t'.lists = t.lists) (hlive : t'.live = t.live) :
    Unlinks none t t' := by
  refine ⟨fun w l _ hl => ⟨l, by rwa [hlists], fun n => ?_⟩, fun n => ?_⟩
  · exact (and_iff_left nofun).symm
  · rw [hlive]
    exact (and_iff_left nofun).symm

theorem unlinks_some (hshape : t.Shape) (hv : v ≠ .bound)
    (hat : t.lists.At v (front ++ n :: back)) (hprev : front.getLast? = prev)
    (hlists : t'.lists = t.lists.unlink v prev n)
    (hlive : t'.live = Function.update t.live n false) : Unlinks (some (v, n)) t t' := by
  subst hprev
  refine ⟨fun w l hw hl => ?_, fun m => ?_⟩
  · rw [hlists]
    by_cases hwv : w = v
    · subst hwv
      obtain rfl := hat.unique hl
      refine ⟨front ++ back, hat.unlink, fun m => ?_⟩
      rw [List.perm_middle.mem_iff, List.mem_cons]
      constructor
      · intro hm
        refine ⟨.inr hm, fun heq => ?_⟩
        cases heq
        exact Links.not_mem_of_nodup hat.nodup hm
      · rintro ⟨rfl | hm, hne⟩
        · exact absurd rfl hne
        · exact hm
    · have hlast := last_mem (fun _ => List.mem_of_getLast?) (hshape v hv) hat
      have hother : ∀ m ∈ front.getLast?, m ∉ l := fun m hm =>
        not_mem_of_home ((hshape w hw).mem hl) hwv (hlast m hm)
      refine ⟨l, hl.unlink_other hother hwv, fun m => (and_iff_left fun heq => ?_).symm⟩
      exact hwv (congrArg Prod.fst (Option.some.inj heq)).symm
  · rw [hlive]
    by_cases hm : m = n
    · subst hm
      rw [Function.update_self]
      exact iff_of_false nofun fun h => h.2 v rfl
    · rw [Function.update_of_ne hm]
      refine (and_iff_left fun w heq => hm ?_).symm
      exact (congrArg Prod.snd (Option.some.inj heq)).symm

theorem turn_unlinks (hshape : t.Shape) (hplaced : a.Placed t)
    (hprev : ∀ prev n, a = .slow prev (some n) → t.RemovesBehind env prev n)
    (ht : t.turn env a = some (t', a')) : Unlinks (a.due env t) t t' := by
  cases a with
  | fast pcb =>
    cases pcb with
    | none =>
      unfold turn fastEnd at ht
      dsimp only at ht
      split at ht <;> cases ht <;> exact unlinks_none rfl rfl
    | some n =>
      have hturn : t.fastTurn env n = (t', a') := Option.some.inj ht
      by_cases hstamp : (t.pcb n).lastTimer = t.timerCtr
      · rw [fastTurn_stamped hstamp] at hturn
        cases hturn
        exact unlinks_none rfl rfl
      · have hs := (fastTurn_cases hstamp hturn).1
        exact unlinks_none hs.lists hs.live
  | slow prev pcb =>
    cases pcb with
    | none =>
      cases ht
      exact unlinks_none rfl rfl
    | some n =>
      by_cases hstamp : (t.pcb n).lastTimer = t.timerCtr
      · have hdue : (Activity.slow prev (some n)).due env t = none := if_neg fun h => h.1 hstamp
        rw [hdue, (slowTurn_stamped hstamp ht).1]
        exact unlinks_none rfl rfl
      obtain ⟨hno, hs, _⟩ | ⟨hyes, _, t₁, hs, rfl, _⟩ := slowTurn_cases hstamp ht
      · have hdue : (Activity.slow prev (some n)).due env t = none :=
          if_neg fun h => by
            rw [hno] at h
            exact Bool.false_ne_true h.2
        rw [hdue]
        exact unlinks_none hs.lists hs.live
      · have hdue : (Activity.slow prev (some n)).due env t = some (.active, n) :=
          if_pos ⟨hstamp, hyes⟩
        obtain ⟨front, back, hat, _⟩ := Reached.split hplaced
        rw [hdue]
        exact unlinks_some hshape nofun hat (hprev prev n rfl hstamp hyes front back hat) rfl rfl
  | timeWait prev pcb =>
    cases pcb with
    | none =>
      cases ht
      exact unlinks_none rfl rfl
    | some n =>
      obtain ⟨front, back, hat, hhead, hlast⟩ := hplaced
      obtain ⟨back, rfl⟩ := List.head?_eq_some_iff.mp hhead
      obtain ⟨hover, rfl, _⟩ | ⟨hover, hlists, hlive, _⟩ := timeWaitTurn_cases ht
      · have hdue : (Activity.timeWait prev (some n)).due env t' = none :=
          if_neg (by rw [hover]; nofun)
        rw [hdue]
        exact unlinks_none rfl rfl
      · have hdue : (Activity.timeWait prev (some n)).due env t = some (.tw, n) := if_pos hover
        rw [hdue]
        exact unlinks_some hshape nofun hat hlast hlists hlive
  | _ => cases ht

end Stack

/-- A walk that is over has been at all active pcbs. -/
theorem walked_once {k : Ticks} (hactive : t.On .active) (hplaced : a.Placed t)
    (h : a.Counts t k) (ha : a.Walked) : ∀ n ∈ k.stayed, k.worked.count n = 1 := by
  have hover (hplaced : t.Reached none) (h : t.Walks k none) :
      ∀ n ∈ k.stayed, k.worked.count n = 1 := by
    intro n hn
    obtain ⟨hlive, hcount⟩ := h.1 n hn
    obtain ⟨front, back, hat, hhead, hfront⟩ := hplaced
    obtain rfl := List.head?_eq_none_iff.mp hhead
    rw [List.append_nil] at hat
    rw [hcount, if_pos (hfront n ((hactive.mem hat n).mpr hlive))]
  cases a with
  | fast pcb =>
    cases pcb with
    | none => exact hover hplaced h
    | some n => exact ha.elim
  | slow prev pcb =>
    cases pcb with
    | none => exact hover hplaced h
    | some n => exact ha.elim
  | _ => exact ha.elim

theorem Activity.Counts.turns_le {k : Ticks} (h : a.Counts t k) :
    k.turns ≤ (t.room + 1) * (t.room + 2) := by
  have hmul : (t.room + 1) * (t.room + 2) = (t.room + 1) * (t.room + 1) + (t.room + 1) := by ring
  have hrank {ahead : ℕ} (h : t.Rank k.turns ahead) : k.turns ≤ (t.room + 1) * (t.room + 2) := by
    unfold Stack.Rank at h
    omega
  cases a with
  | fast pcb =>
    obtain ⟨_, _, _, _, _, h⟩ := h
    exact hrank h
  | fastRecv n fin next => exact hrank h.2
  | fastClosed next => exact hrank h.2
  | slow prev pcb =>
    obtain ⟨_, _, _, _, _, h⟩ := h
    exact hrank h
  | slowErr prev pcb => exact hrank h.2
  | slowPoll prev pcb => exact hrank h.2
  | timeWait prev pcb =>
    obtain ⟨_, _, _, _, _, _, h⟩ := h
    omega
  | _ => exact h

theorem Activity.Waits.returns (h : a.Waits) : ∃ t' a', a.resume env err t = some (t', a') := by
  cases a with
  | fastRecv _ _ _ => exact ⟨_, _, rfl⟩
  | fastClosed _ => exact ⟨_, _, rfl⟩
  | slowErr _ _ => exact ⟨_, _, rfl⟩
  | slowPoll _ _ => exact ⟨_, _, rfl⟩
  | _ => exact h.elim

/-- What a run whose steps are timely keeps. -/
structure Ticks.Sound (s : State) (k : Ticks) : Prop where
  sound : s.Sound
  pool : s.tcp.Pooled
  counts : s.activity.Counts s.tcp k

theorem Ticks.Sound.right {k : Ticks} (h : k.Sound s) : k.Right (fun e => e.Timely s) s where
  turns := h.counts.turns_le
  goesOn _ hok hruns := Stack.turn_goesOn h.sound.shape h.sound.placed hruns hok.1
  returns _ _ hwaits := hwaits.returns
  once := walked_once (h.sound.shape .active nofun) h.sound.placed h.counts
  unlinks _ _ _ hok hturn := Stack.turn_unlinks h.sound.shape h.sound.placed hok.1 hturn
  left prev hactivity := by
    have hcounts := h.counts
    rw [hactivity] at hcounts
    obtain ⟨front, back, hat, hhead, _, hleft, _⟩ := hcounts
    obtain rfl := List.head?_eq_none_iff.mp hhead
    rw [hleft]
    exact hat

theorem sound_of_ticks {ok : State × Ticks → Event → Prop} {as : List Event}
    {p : State × Ticks} (hok : ∀ p e, ok p e → e.Timely p.1) (hr : tickSystem.Run ok as p) :
    p.2.Sound p.1 := by
  refine hr.invariant (I := fun _ p => p.2.Sound p.1) ?_ ?_
  · rintro p ⟨hstart, hk⟩
    refine ⟨hstart.sound, fun n hn => ?_, ?_⟩
    · cases (hstart.live n).symm.trans hn
    · rw [hk, hstart.activity]
      exact Nat.zero_le _
  · rintro _ p e p' _ hp he ⟨hstep, hk⟩
    have htimely := hok p e he
    refine ⟨step_sound hp.sound htimely.1 hstep, hp.pool.within (step_within hp.sound hstep), ?_⟩
    rw [hk]
    exact step_counts hp.sound hp.pool hp.counts htimely hstep

/-- In every run whose steps are timely, the timers do what they have to. -/
theorem ticks_right {as : List Event} {p : State × Ticks}
    (hr : tickSystem.Run (fun p e => e.Timely p.1) as p) :
    p.2.Right (fun e => e.Timely p.1) p.1 :=
  (sound_of_ticks (fun _ _ h => h) hr).right

/-! ### Runs with a peer -/

/-- The pools give the pcb asked for, and the peer can be reached. -/
def online (n : ℕ) : Env := { poolGives n with route := some 1 }

theorem run_tick {ok : State × Ticks → Event → Prop} {as : List Event} {k : Ticks}
    (hr : tickSystem.Run ok as (s, k)) (hok : ok (s, k) e) (hstep : s.Step e s') :
    tickSystem.Run ok (as ++ [e]) (s', k.after s e s') :=
  .snoc hr hok ⟨hstep, rfl⟩

theorem run_idle {ok : State × Ticks → Event → Prop} :
    tickSystem.Run ok [] (idleState, ⟨0, [], [], []⟩) := .start ⟨idleState_start, rfl⟩

/-- A pcb that connects is worked on in the tick after it. -/
theorem ticks_right_connected :
    ∃ p, tickSystem.Run (fun p e => e.Timely p.1)
        [.call (online 0) .new, .call (online 0) (.connect 0 (some 2) 80), .tmr,
          .turn (online 0)] p ∧
      p.2.stayed = [0] ∧ p.2.worked = [0] ∧ p.2.Right (fun e => e.Timely p.1) p.1 := by
  have hidle : tickSystem.Run (fun p e => e.Timely p.1) [] (idleState, ⟨0, [], [], []⟩) := run_idle
  have hnew := run_tick hidle (e := .call (online 0) .new) ⟨trivial, trivial⟩
    (.call trivial nofun rfl)
  have hconnect := run_tick hnew (e := .call (online 0) (.connect 0 (some 2) 80))
    ⟨trivial, trivial⟩ (.call trivial (valid_of_pcb rfl rfl) rfl)
  have htmr := run_tick hconnect (e := .tmr) ⟨trivial, ?_⟩ (.tmr rfl rfl)
  · have hturn := run_tick htmr (e := .turn (online 0)) ⟨nofun, ?_⟩ (.turn rfl)
    · exact ⟨_, hturn, rfl, rfl, ticks_right hturn⟩
    · show (0 : ℕ) ≠ 1
      decide
  · intro n hn
    have hn0 : n = 0 := by
      by_contra hne
      have hlive := hn.1
      rw [show Stack.live _ n = false from Function.update_of_ne hne ..] at hlive
      cases hlive
    subst hn0
    show (0 : ℕ) ≠ 1
    decide

/-- A segment without flags from the peer that pcb 0 of `emptyStack` connects to. -/
def fromPeer (received : Conn → Conn) : Segment where
  src := 80
  dest := 0xc001
  srcIp := 2
  destIp := 1
  rst := false
  syn := false
  ack := true
  fin := false
  tcplen := true
  acceptable := true
  ackno := true
  gotFin := false
  data := false
  acked := false
  received := received

/-- The peer accepts the connection. -/
def synAck : Segment :=
  { fromPeer fun conn =>
      { conn with
        unacked := false
        rtime := -1
        nrtx := 0
        cwnd := conn.mss * 2
        ssthresh := u16 (conn.mss * 10) } with syn := true }

/-- The peer sends a byte. -/
def oneByte : Segment :=
  { fromPeer fun conn => { conn with ackDelay := true, rcvWnd := conn.rcvWnd - 1 } with
    data := true }

/-- In front of a stamped pcb, `tcp_fasttmr` does not get on. -/
theorem run_spins {k : Ticks} {as : List Event}
    (hr : tickSystem.Run (fun _ _ => True) as (s, k)) (ha : s.activity = .fast (some n))
    (hstamp : (s.tcp.pcb n).lastTimer = s.tcp.timerCtr) (turns : ℕ) :
    ∃ as' k', tickSystem.Run (fun _ _ => True) as' (s, k') ∧ k'.turns = k.turns + turns := by
  induction turns with
  | zero => exact ⟨as, k, hr, rfl⟩
  | succ turns ih =>
    obtain ⟨as', k', hr', hturns⟩ := ih
    have hturn : s.tcp.turn (online 0) s.activity = some (s.tcp, s.activity) := by
      rw [ha]
      exact congrArg some (Stack.fastTurn_stamped hstamp)
    refine ⟨_, _, run_tick hr' trivial (.turn hturn), ?_⟩
    simp only [Ticks.after, ha]
    exact congrArg (· + 1) hturns

/-- The receive callback of `tcp_fasttmr` connects another pcb. The walk starts again, meets the
stamp of the new pcb and does not end. -/
theorem ticks_fail :
    ¬ ∀ (as : List Event) (p : State × Ticks), tickSystem.Run (fun _ _ => True) as p →
      p.2.Right (fun _ => True) p.1 := by
  intro h
  have hidle : tickSystem.Run (fun _ _ => True) [] (idleState, ⟨0, [], [], []⟩) := run_idle
  have hnew := run_tick hidle (e := .call (online 0) .new) trivial (.call trivial nofun rfl)
  have hconnect := run_tick hnew (e := .call (online 0) (.connect 0 (some 2) 80)) trivial
    (.call trivial (valid_of_pcb rfl rfl) rfl)
  have hsynAck := run_tick hconnect (e := .segment (online 0) synAck) trivial
    (.segment rfl rfl rfl)
  have hconnected := run_tick hsynAck (e := .ret (online 0) .ok) trivial (.ret rfl rfl)
  have hbyte := run_tick hconnected (e := .segment (online 0) oneByte) trivial
    (.segment rfl rfl rfl)
  have hrefused := run_tick hbyte (e := .ret (online 0) .other) trivial (.ret rfl rfl)
  have htmr := run_tick hrefused (e := .tmr) trivial (.tmr rfl rfl)
  have hturn := run_tick htmr (e := .turn (online 0)) trivial (.turn rfl)
  have hnew' := run_tick hturn (e := .call (online 1) .new) trivial (.call trivial nofun rfl)
  have hconnect' := run_tick hnew' (e := .call (online 1) (.connect 1 (some 2) 81)) trivial
    (.call trivial (valid_of_pcb rfl rfl) rfl)
  have hret := run_tick hconnect' (e := .ret (online 0) .ok) trivial (.ret rfl rfl)
  obtain ⟨as, k, hr, hturns⟩ := run_spins hret rfl rfl 43
  have hle : k.turns ≤ 42 := (h _ _ hr).turns
  rw [hturns] at hle
  exact absurd (Nat.le_trans (Nat.le_add_left 43 _) hle) (by decide)

end QuietLwip.Tcp
