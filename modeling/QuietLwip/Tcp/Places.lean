import QuietLwip.Tcp.Walks

/-!
# The lists along a run

In every step the lists stay right and the walk of a timer stays where its pcbs are, as long as
`tcp_slowtmr` unlinks a pcb behind the one in front of it and the callbacks of `tcp_input` leave
it the pcb that it goes on with.
-/

namespace QuietLwip.Tcp

variable {env : Env} {err : Err} {t t' t₁ : Stack} {w v : PcbList} {n m prio : ℕ}
  {a a' : Activity} {prev pcb : Option ℕ} {front back : List ℕ}

namespace Stack

/-! ### Calls -/

/-- A call stamps the pcb it allocates, which is not active yet; the others keep their stamps. -/
structure Keeps (t t' : Stack) : Prop where
  room : t'.room = t.room
  timerCtr : t'.timerCtr = t.timerCtr
  stamp : ∀ m, t'.live m = true →
    (t.live m = true ∧ (t'.pcb m).lastTimer = (t.pcb m).lastTimer) ∨
      ((t'.pcb m).lastTimer = t.timerCtr ∧ (t'.pcb m).home ≠ some .active)
  list : t'.changed = false →
    t.changed = false ∧ ∀ l, t.lists.At .active l → t'.lists.At .active l

theorem Calm.keeps (h : Calm t t') : Keeps t t' :=
  ⟨h.room, h.timerCtr, fun m hm => .inl ⟨h.live m hm, h.stamp m⟩, h.list⟩

/-- A call takes a pcb that was not in use for one that is not active. -/
theorem Calm.take_keeps (h : Calm t t₁) (new : TcpPcb) (p : PcbLists)
    (hstamp : new.lastTimer = t₁.timerCtr) (hhome : new.home ≠ some .active)
    (hlist : ∀ l, t₁.lists.At .active l → p.At .active l) :
    Keeps t { t₁.take n new with lists := p } where
  room := h.room
  timerCtr := h.timerCtr
  stamp m hm := by
    by_cases hmn : m = n
    · rw [hmn]
      refine .inr ⟨?_, ?_⟩
      · rw [show ({ t₁.take n new with lists := p } : Stack).pcb n = new from pcb_take t₁ n new,
          hstamp, h.timerCtr]
      · rw [show ({ t₁.take n new with lists := p } : Stack).pcb n = new from pcb_take t₁ n new]
        exact hhome
    · rw [show ({ t₁.take n new with lists := p } : Stack).live m = t₁.live m from
        Function.update_of_ne hmn ..] at hm
      refine .inl ⟨h.live m hm, ?_⟩
      rw [show ({ t₁.take n new with lists := p } : Stack).pcb m = t₁.pcb m from
        Function.update_of_ne hmn .., h.stamp]
  list hc := by
    obtain ⟨hc', hl⟩ := h.list hc
    exact ⟨hc', fun l hat => hlist l (hl l hat)⟩

theorem Calm.init_keeps (h : Calm t t₁) (hactive : t₁.On .active) (hn : t₁.live n = false) :
    Keeps t (t₁.initPcb n prio) :=
  h.take_keeps _ _ rfl nofun fun l hl => hl.update (hactive.off (.inl hn) l hl) none

theorem Calm.allocAgain_keeps (h : Calm t t₁) (hactive : t₁.On .active) :
    Keeps t (t₁.tcpAllocAgain env prio).1 := by
  rw [tcpAllocAgain]
  split
  · rename_i n hn
    exact h.init_keeps hactive (mempMalloc_eq hn).2
  · exact h.keeps

theorem tcpAlloc_keeps {npcb : Option (Option ℕ)} (hshape : t.Shape)
    (h : t.tcpAlloc env prio = some (t', npcb)) : Keeps t t' := by
  have hactive := hshape .active nofun
  unfold tcpAlloc at h
  split at h
  · rename_i n hn
    cases h
    exact (Calm.refl t).init_keeps hactive (mempMalloc_eq hn).2
  obtain ⟨t₁, h₁, h⟩ := Option.bind_eq_some_iff.mp h
  have hcalm₁ := tcpKillTimewait_calm hactive h₁
  have hactive₁ := tcpKillTimewait_on hshape hactive h₁
  split at h
  · rename_i n hn
    cases h
    exact hcalm₁.init_keeps hactive₁ (mempMalloc_eq hn).2
  obtain ⟨⟨t₂, told⟩, h₂, h⟩ := Option.bind_eq_some_iff.mp h
  have hshape₁ : t₁.Shape := fun v hv => tcpKillTimewait_on hshape (hshape v hv) h₁
  have hcalm₂ := hcalm₁.trans (tcpKillPrio_calm hactive₁ h₂)
  dsimp only at h
  split at h
  · cases h
    exact hcalm₂.keeps
  · cases h
    exact hcalm₂.allocAgain_keeps (tcpKillPrio_on hshape₁ hactive₁ h₂)

theorem tcpListen_keeps (hactive : t.On .active) (hlive : t.live n = true)
    (h : t.tcpListen env n = some t') : Keeps t t' := by
  unfold tcpListen at h
  split at h
  case isFalse => cases h
  rename_i hclosed
  obtain ⟨used, _, h⟩ := Option.bind_eq_some_iff.mp h
  split at h
  · cases h
    exact (Calm.refl t).keeps
  split at h
  · cases h
    exact (Calm.refl t).keeps
  rename_i m hm
  obtain ⟨t₁, h₁, h⟩ := Option.bind_eq_some_iff.mp h
  cases h
  have hoff : t.Off n := hactive.off (.inr fun hhome => by
    have hs := state_of_home hhome
    rw [hclosed] at hs
    cases hs)
  have hcalm := (unbind_calm hoff h₁).trans (.free t₁ n)
  have hout := ((hactive.but n).unbind (bound_of_closed hclosed) h₁).freed
  have hmn : m ≠ n := by
    rintro rfl
    cases hlive.symm.trans (mempMalloc_eq hm).2
  obtain ⟨p, rfl, _⟩ := unbind_eq h₁
  have hdead : (free n { t with lists := p }).live m = false :=
    (Function.update_of_ne hmn ..).trans (mempMalloc_eq hm).2
  exact hcalm.take_keeps (t.listenPcb n) (p.reg .listen m) rfl nofun
    fun l hl => hl.reg_other (hout.off (.inl hdead) l hl) (by decide)

end Stack

theorem Call.exec_keeps {c : Call} {pending : Option Pending} (hshape : t.Shape)
    (hvalid : c.Valid t) (ht : c.exec env t = some (t', pending)) : t.Keeps t' := by
  have hactive := hshape .active nofun
  cases c with
  | new =>
    obtain ⟨⟨t₁, npcb⟩, h₁, heq⟩ := Option.map_eq_some_iff.mp ht
    cases heq
    exact Stack.tcpAlloc_keeps hshape h₁
  | bind n ip port =>
    obtain ⟨t₁, h₁, heq⟩ := Option.map_eq_some_iff.mp ht
    cases heq
    exact (Stack.tcpBind_calm hactive h₁).keeps
  | listen n =>
    obtain ⟨t₁, h₁, heq⟩ := Option.map_eq_some_iff.mp ht
    cases heq
    exact Stack.tcpListen_keeps hactive (hvalid n rfl) h₁
  | connect n ip port =>
    obtain ⟨t₁, h₁, heq⟩ := Option.map_eq_some_iff.mp ht
    cases heq
    exact (Stack.tcpConnect_calm h₁).keeps
  | close n =>
    obtain ⟨t₁, h₁, heq⟩ := Option.map_eq_some_iff.mp ht
    cases heq
    exact (Stack.tcpClose_calm hactive h₁).keeps
  | shutdown n shutRx shutTx =>
    obtain ⟨t₁, h₁, heq⟩ := Option.map_eq_some_iff.mp ht
    cases heq
    exact (Stack.tcpShutdown_calm hactive h₁).keeps
  | abort n =>
    obtain ⟨⟨t₁, told⟩, h₁, heq⟩ := Option.map_eq_some_iff.mp ht
    cases heq
    exact (Stack.tcpAbandon_calm hactive h₁).keeps
  | other n prio reuseaddr conn =>
    cases ht
    exact (Stack.Calm.modify t n rfl).keeps

namespace Stack

/-! ### Where a walk is -/

/-- A walk of the active pcbs has got to `pcb`; those in front of it are stamped. -/
def Reached (t : Stack) (pcb : Option ℕ) : Prop :=
  ∃ front back, t.lists.At .active (front ++ back) ∧ back.head? = pcb ∧
    ∀ m ∈ front, (t.pcb m).lastTimer = t.timerCtr

theorem Reached.congr (h : t.Reached pcb) (hlists : t'.lists = t.lists)
    (hctr : t'.timerCtr = t.timerCtr)
    (hstamp : ∀ m, (t'.pcb m).lastTimer = (t.pcb m).lastTimer) : t'.Reached pcb := by
  obtain ⟨front, back, hat, hhead, hfront⟩ := h
  refine ⟨front, back, ?_, hhead, fun m hm => ?_⟩
  · rw [hlists]
    exact hat
  · rw [hstamp, hctr]
    exact hfront m hm

/-- A walk begins at the head. -/
theorem On.reached (h : t.On .active) : t.Reached (t.lists.head .active) := by
  obtain ⟨l, hl, _⟩ := h
  exact ⟨[], l, hl, Links.ListAt.head hl, List.forall_mem_nil _⟩

/-- A call that does not change the list keeps the place. -/
theorem Reached.keeps (h : t.Reached pcb) (hk : t.Keeps t') (hactive : t'.On .active)
    (hc : t'.changed = false) : t'.Reached pcb := by
  obtain ⟨front, back, hat, hhead, hfront⟩ := h
  have hat' := (hk.list hc).2 _ hat
  refine ⟨front, back, hat', hhead, fun m hm => ?_⟩
  obtain ⟨hlive, hhome⟩ := (hactive.mem hat' m).mp (List.mem_append_left _ hm)
  obtain ⟨_, hstamp⟩ | ⟨_, hne⟩ := hk.stamp m hlive
  · rw [hstamp, hk.timerCtr]
    exact hfront m hm
  · exact absurd hhome hne

theorem next_of_at (hat : t.lists.At w (front ++ n :: back)) :
    t.lists.next n = back.head? := (Links.ListAt.from hat).head.symm

/-- The walk goes on behind a pcb that is stamped. -/
theorem Reached.next (h : t.Reached (some n)) (hn : (t.pcb n).lastTimer = t.timerCtr) :
    t.Reached (t.lists.next n) := by
  obtain ⟨front, back, hat, hhead, hfront⟩ := h
  obtain ⟨back, rfl⟩ := List.head?_eq_some_iff.mp hhead
  refine ⟨front ++ [n], back, ?_, (next_of_at hat).symm, fun m hm => ?_⟩
  · rw [List.append_assoc]
    exact hat
  · rw [List.mem_append, List.mem_singleton] at hm
    obtain hm | rfl := hm
    · exact hfront m hm
    · exact hn

theorem Reached.stamped (h : t.Reached (some n)) (hs : Stamped n t t') :
    t'.Reached (t.lists.next n) := by
  obtain ⟨front, back, hat, hhead, hfront⟩ := h
  obtain ⟨back, rfl⟩ := List.head?_eq_some_iff.mp hhead
  refine ⟨front ++ [n], back, ?_, (next_of_at hat).symm, fun m hm => ?_⟩
  · rw [hs.lists, List.append_assoc]
    exact hat
  · rw [List.mem_append, List.mem_singleton] at hm
    rw [hs.timerCtr]
    by_cases hmn : m = n
    · rw [hmn, hs.self]
    · rw [hs.other m hmn]
      exact hfront m (hm.resolve_right hmn)

end Stack

/-- The walk of a timer is at a place of its list. -/
def Activity.Placed (t : Stack) : Activity → Prop
  | .fast pcb => t.Reached pcb
  | .fastRecv _ _ next => t.changed = false → t.Reached next
  | .fastClosed next => t.changed = false → t.Reached next
  | .slow _ pcb => t.Reached pcb
  | .slowErr _ pcb => t.changed = false → t.Reached pcb
  | .slowPoll _ pcb => t.changed = false → t.Reached pcb
  | .timeWait prev pcb =>
    ∃ front back, t.lists.At .tw (front ++ back) ∧ back.head? = pcb ∧ front.getLast? = prev
  | _ => True

theorem Activity.Placed.keeps (h : a.Placed t) (happ : a.AppRuns) (hk : t.Keeps t')
    (hactive : t'.On .active) : a.Placed t' := by
  cases a with
  | idle => trivial
  | fast pcb => exact happ.elim
  | fastRecv n fin next => exact fun hc => (h (hk.list hc).1).keeps hk hactive hc
  | fastClosed next => exact fun hc => (h (hk.list hc).1).keeps hk hactive hc
  | slow prev pcb => exact happ.elim
  | slowErr prev pcb => exact fun hc => (h (hk.list hc).1).keeps hk hactive hc
  | slowPoll prev pcb => exact fun hc => (h (hk.list hc).1).keeps hk hactive hc
  | timeWait prev pcb => exact happ.elim
  | input point n seg => trivial
  | accepting lpcb prio seg => trivial

/-- Where a walk is does not depend on the data of a connection. -/
theorem Activity.Placed.modifyConn (h : a.Placed t) (n : ℕ) (f : Conn → Conn) :
    a.Placed (t.modifyConn n f) := by
  have hreached : ∀ pcb, t.Reached pcb → (t.modifyConn n f).Reached pcb :=
    fun _ h => h.congr rfl rfl fun m => Stack.lastTimer_modifyConn t n m f
  cases a with
  | idle => trivial
  | fast pcb => exact hreached _ h
  | fastRecv m fin next => exact fun hc => hreached _ (h hc)
  | fastClosed next => exact fun hc => hreached _ (h hc)
  | slow prev pcb => exact hreached _ h
  | slowErr prev pcb => exact fun hc => hreached _ (h hc)
  | slowPoll prev pcb => exact fun hc => hreached _ (h hc)
  | timeWait prev pcb => exact h
  | input point m seg => trivial
  | accepting lpcb prio seg => trivial

theorem Await.placed (wait : Await) : wait.activity.Placed t := by
  cases wait <;> trivial

namespace Stack

/-! ### The turns of the timers -/

theorem fastTurn_stamped (h : (t.pcb n).lastTimer = t.timerCtr) :
    t.fastTurn env n = (t, .fast (some n)) := if_pos h

theorem slowTurn_stamped (h : (t.pcb n).lastTimer = t.timerCtr)
    (ht : t.slowTurn env prev n = some (t', a)) :
    t' = t ∧ a = .slow prev (t.lists.next n) := by
  simp only [slowTurn, if_pos h] at ht
  split at ht
  · cases ht
  · cases ht
    exact ⟨rfl, rfl⟩

/-- `tcp_slowtmr` unlinks a pcb behind the one in front of it. -/
def RemovesBehind (t : Stack) (env : Env) (prev : Option ℕ) (n : ℕ) : Prop :=
  (t.pcb n).lastTimer ≠ t.timerCtr → (t.pcb n).due env (t.age n) = true →
    ∀ front back, t.lists.At .active (front ++ n :: back) → front.getLast? = prev

theorem Reached.split (h : t.Reached (some n)) :
    ∃ front back, t.lists.At .active (front ++ n :: back) ∧
      ∀ m ∈ front, (t.pcb m).lastTimer = t.timerCtr := by
  obtain ⟨front, back, hat, hhead, hfront⟩ := h
  obtain ⟨back, rfl⟩ := List.head?_eq_some_iff.mp hhead
  exact ⟨front, back, hat, hfront⟩

/-- What is left when the pcb `n` has been worked on and unlinked. -/
theorem unlinked_on (hv : t.On v) (h : t.On w) (hlists : t'.lists = t.lists.unlink v prev n)
    (hlive : t'.live = Function.update t.live n false)
    (hhome : ∀ m, (t'.pcb m).home = (t.pcb m).home)
    (hat : t.lists.At v (front ++ n :: back)) (hprev : front.getLast? = prev) : t'.On w := by
  subst hprev
  have hfreed := (On.unlink hv h hat).freed
  exact hfreed.congr hlists hlive hhome

theorem slowTurn_on (hactive : t.On .active) (h : t.On w) (hplaced : t.Reached (some n))
    (hprev : t.RemovesBehind env prev n) (ht : t.slowTurn env prev n = some (t', a)) :
    t'.On w := by
  by_cases hstamp : (t.pcb n).lastTimer = t.timerCtr
  · rw [(slowTurn_stamped hstamp ht).1]
    exact h
  obtain ⟨_, hs, _⟩ | ⟨hdue, _, t₁, hs, rfl, _⟩ := slowTurn_cases hstamp ht
  · exact hs.on h
  · obtain ⟨front, back, hat, _⟩ := hplaced.split
    exact unlinked_on hactive h rfl rfl hs.home hat (hprev hstamp hdue front back hat)

theorem timeWaitTurn_cases (h : t.timeWaitTurn prev n = some (t', a)) :
    (timeWaitOver (t.age n) = false ∧ t' = t ∧ a = .timeWait (some n) (t.lists.next n)) ∨
      (timeWaitOver (t.age n) = true ∧ t'.lists = t.lists.unlink .tw prev n ∧
        t'.live = Function.update t.live n false ∧
        (∀ m, (t'.pcb m).home = (t.pcb m).home) ∧ t'.ticks = t.ticks ∧
        (∀ m, m ≠ n → t'.pcb m = t.pcb m) ∧
        a = .timeWait prev ((t.lists.unlink .tw prev n).next n)) := by
  unfold timeWaitTurn at h
  split at h
  case isFalse => cases h
  split at h
  · rename_i hover
    split at h
    case isFalse => cases h
    cases h
    refine .inr ⟨hover, rfl, rfl, fun m => ?_, rfl, fun m hm => Function.update_of_ne hm .., rfl⟩
    by_cases hm : m = n
    · rw [hm]
      exact (congrArg TcpPcb.home (pcb_modify t n _)).trans (purge_home _)
    · exact (SameBut.modify t n _).home m hm
  · rename_i hover
    cases h
    exact .inl ⟨Bool.eq_false_of_not_eq_true hover, rfl, rfl⟩

theorem turn_on (hshape : t.Shape) (h : t.On w) (hplaced : a.Placed t)
    (hprev : ∀ prev n, a = .slow prev (some n) → t.RemovesBehind env prev n)
    (ht : t.turn env a = some (t', a')) : t'.On w := by
  cases a with
  | idle => cases ht
  | fast pcb =>
    cases pcb with
    | none =>
      unfold turn at ht
      unfold fastEnd at ht
      dsimp only at ht
      split at ht <;> cases ht <;> exact h.congr rfl rfl fun _ => rfl
    | some n =>
      have hturn : t.fastTurn env n = (t', a') := Option.some.inj ht
      by_cases hstamp : (t.pcb n).lastTimer = t.timerCtr
      · rw [fastTurn_stamped hstamp] at hturn
        cases hturn
        exact h
      · exact (fastTurn_cases hstamp hturn).1.on h
  | fastRecv n fin next => cases ht
  | fastClosed next => cases ht
  | slow prev pcb =>
    cases pcb with
    | none =>
      cases ht
      exact h
    | some n => exact slowTurn_on (hshape .active nofun) h hplaced (hprev prev n rfl) ht
  | slowErr prev pcb => cases ht
  | slowPoll prev pcb => cases ht
  | timeWait prev pcb =>
    cases pcb with
    | none =>
      cases ht
      exact h
    | some n =>
      obtain ⟨_, rfl, _⟩ | ⟨_, hlists, hlive, hhome, _⟩ := timeWaitTurn_cases ht
      · exact h
      · obtain ⟨front, back, hat, hhead, hlast⟩ := hplaced
        obtain ⟨back, rfl⟩ := List.head?_eq_some_iff.mp hhead
        exact unlinked_on (hshape .tw nofun) h hlists hlive hhome hat hlast
  | input point n seg => cases ht
  | accepting lpcb prio seg => cases ht

theorem unlink_next (hat : t.lists.At v (front ++ n :: back)) (hprev : front.getLast? = prev) :
    (t.lists.unlink v prev n).next n = back.head? := by
  have hnodup := hat.nodup
  subst hprev
  have hnext : t.lists.next n = back.head? := next_of_at hat
  cases hlast : front.getLast? with
  | none => exact hnext
  | some m =>
    have hmn : n ≠ m := by
      rintro rfl
      exact Links.not_mem_of_nodup hnodup (List.mem_append_left _ (List.mem_of_getLast? hlast))
    exact (Function.update_of_ne hmn ..).trans hnext

/-- A timer does not take a turn while the application runs. -/
theorem not_app_of_turn (h : t.turn env a = some (t', a')) : ¬ a.AppRuns := by
  cases a with
  | fast _ => exact not_false
  | slow _ _ => exact not_false
  | timeWait _ _ => exact not_false
  | _ => cases h

theorem turn_placed (hshape : t.Shape) (hplaced : a.Placed t)
    (hprev : ∀ prev n, a = .slow prev (some n) → t.RemovesBehind env prev n)
    (ht : t.turn env a = some (t', a')) : a'.Placed t' := by
  cases a with
  | idle => cases ht
  | fast pcb =>
    cases pcb with
    | none =>
      unfold turn at ht
      unfold fastEnd at ht
      dsimp only at ht
      split at ht
      · cases ht
        exact On.reached ((hshape .active nofun).congr rfl rfl fun _ => rfl)
      · cases ht
        trivial
    | some n =>
      have hturn : t.fastTurn env n = (t', a') := Option.some.inj ht
      by_cases hstamp : (t.pcb n).lastTimer = t.timerCtr
      · rw [fastTurn_stamped hstamp] at hturn
        cases hturn
        exact hplaced
      · obtain ⟨hs, rfl | ⟨fin, rfl, _⟩⟩ := fastTurn_cases hstamp hturn
        · exact Reached.stamped hplaced hs
        · exact fun _ => Reached.stamped hplaced hs
  | fastRecv n fin next => cases ht
  | fastClosed next => cases ht
  | slow prev pcb =>
    cases pcb with
    | none =>
      cases ht
      obtain ⟨l, hl, _⟩ := hshape .tw nofun
      exact ⟨[], l, hl, Links.ListAt.head hl, rfl⟩
    | some n =>
      by_cases hstamp : (t.pcb n).lastTimer = t.timerCtr
      · obtain ⟨rfl, rfl⟩ := slowTurn_stamped hstamp ht
        exact Reached.next hplaced hstamp
      · obtain ⟨_, hs, rfl | ⟨rfl, _⟩⟩ | ⟨hdue, _, t₁, hs, rfl, rfl⟩ :=
          slowTurn_cases hstamp ht
        · exact Reached.stamped hplaced hs
        · exact fun _ => Reached.stamped hplaced hs
        · obtain ⟨front, back, hat, hfront⟩ := Reached.split hplaced
          have hlast := hprev prev n rfl hstamp hdue front back hat
          refine fun _ => ⟨front, back, ?_, (unlink_next hat hlast).symm, fun m hm => ?_⟩
          · subst hlast
            exact hat.unlink
          · have hmn : m ≠ n := by
              rintro rfl
              exact Links.not_mem_of_nodup hat.nodup (List.mem_append_left _ hm)
            exact (hs.other m hmn).trans ((hfront m hm).trans hs.timerCtr.symm)
  | slowErr prev pcb => cases ht
  | slowPoll prev pcb => cases ht
  | timeWait prev pcb =>
    cases pcb with
    | none =>
      cases ht
      trivial
    | some n =>
      obtain ⟨front, back, hat, hhead, hlast⟩ := hplaced
      obtain ⟨back, rfl⟩ := List.head?_eq_some_iff.mp hhead
      obtain ⟨_, rfl, rfl⟩ | ⟨_, hlists, _, _, _, _, rfl⟩ := timeWaitTurn_cases ht
      · refine ⟨front ++ [n], back, ?_, (next_of_at hat).symm, by simp⟩
        rw [List.append_assoc]
        exact hat
      · refine ⟨front, back, ?_, (unlink_next hat hlast).symm, hlast⟩
        rw [hlists]
        subst hlast
        exact hat.unlink
  | input point n seg => cases ht
  | accepting lpcb prio seg => cases ht

/-! ### When a callback returns -/

theorem fastNext_placed {next : Option ℕ} (hactive : t.On .active)
    (hplaced : t.changed = false → t.Reached next) : (t.fastNext next).Placed t := by
  rw [fastNext]
  split
  · exact hactive.reached
  · rename_i hc
    exact hplaced (Bool.eq_false_of_not_eq_true hc)

theorem slowNext_placed (hactive : t.On .active)
    (hplaced : t.changed = false → t.Reached pcb) : (t.slowNext prev pcb).Placed t := by
  rw [slowNext]
  split
  · exact hactive.reached
  · rename_i hc
    exact hplaced (Bool.eq_false_of_not_eq_true hc)

end Stack

/-- The callbacks of `tcp_input` leave it the pcb that it goes on with. -/
def Activity.Relies (t : Stack) (err : Err) : Activity → Prop
  | .input point n seg => err ≠ .abrt ∨ point = .reset ∨ point = .closed → point.Relies t n seg
  | _ => True

namespace Stack

theorem fastReturn_cases {fin : Bool} {next : Option ℕ}
    (h : t.fastReturn err n fin next = (t', a)) :
    (t' = t ∨ ∃ f, t' = t.modifyConn n f) ∧ (a = t.fastNext next ∨ a = .fastClosed next) := by
  cases err with
  | ok =>
    unfold fastReturn at h
    dsimp only at h
    split at h
    · cases h
      exact ⟨.inr ⟨_, rfl⟩, .inr rfl⟩
    · cases h
      exact ⟨.inl rfl, .inl rfl⟩
  | abrt =>
    cases h
    exact ⟨.inl rfl, .inl rfl⟩
  | other =>
    cases h
    exact ⟨.inr ⟨_, rfl⟩, .inl rfl⟩

theorem pollReturn_cases {prev : ℕ} (h : t.pollReturn env err prev pcb = (t', a)) :
    (t' = t ∨ ∃ f, t' = t.modifyConn prev f) ∧ a = t.slowNext (some prev) pcb := by
  unfold pollReturn at h
  rw [slowNext]
  split at h
  · rename_i hc
    cases h
    exact ⟨.inl rfl, (if_pos hc).symm⟩
  · rename_i hc
    split at h <;> cases h
    · exact ⟨.inr ⟨_, rfl⟩, (if_neg hc).symm⟩
    · exact ⟨.inl rfl, (if_neg hc).symm⟩

theorem resume_on (h : t.On w) (hrelies : a.Relies t err)
    (ht : a.resume env err t = some (t', a')) : t'.On w := by
  cases a with
  | idle => cases ht
  | fast pcb => cases ht
  | fastRecv n fin next =>
    obtain ⟨rfl | ⟨f, rfl⟩, _⟩ := fastReturn_cases (Option.some.inj ht)
    · exact h
    · exact h.modifyConn n f
  | fastClosed next =>
    cases ht
    exact h
  | slow prev pcb => cases ht
  | slowErr prev pcb =>
    cases ht
    exact h
  | slowPoll prev pcb =>
    obtain ⟨rfl | ⟨f, rfl⟩, _⟩ := pollReturn_cases (Option.some.inj ht)
    · exact h
    · exact h.modifyConn prev f
  | timeWait prev pcb => cases ht
  | input point n seg =>
    obtain ⟨⟨t₁, wait⟩, h₁, heq⟩ := Option.map_eq_some_iff.mp ht
    cases heq
    exact inputReturn_on h hrelies h₁
  | accepting lpcb prio seg =>
    obtain ⟨⟨t₁, wait⟩, h₁, heq⟩ := Option.map_eq_some_iff.mp ht
    cases heq
    exact listenAccept_on (tcpAllocAgain_on h) (fun n hn => tcpAllocAgain_fresh hn) h₁

theorem resume_placed (hactive : t.On .active) (hplaced : a.Placed t)
    (ht : a.resume env err t = some (t', a')) : a'.Placed t' := by
  cases a with
  | idle => cases ht
  | fast pcb => cases ht
  | fastRecv n fin next =>
    obtain ⟨ht', ha⟩ := fastReturn_cases (Option.some.inj ht)
    have hplaced' : a'.Placed t := by
      obtain rfl | rfl := ha
      · exact fastNext_placed hactive hplaced
      · exact hplaced
    obtain rfl | ⟨f, rfl⟩ := ht'
    · exact hplaced'
    · exact hplaced'.modifyConn n f
  | fastClosed next =>
    cases ht
    exact fastNext_placed hactive hplaced
  | slow prev pcb => cases ht
  | slowErr prev pcb =>
    cases ht
    exact slowNext_placed hactive hplaced
  | slowPoll prev pcb =>
    obtain ⟨ht', rfl⟩ := pollReturn_cases (Option.some.inj ht)
    have hplaced' : (t.slowNext (some prev) pcb).Placed t := slowNext_placed hactive hplaced
    obtain rfl | ⟨f, rfl⟩ := ht'
    · exact hplaced'
    · exact hplaced'.modifyConn prev f
  | timeWait prev pcb => cases ht
  | input point n seg =>
    obtain ⟨⟨t₁, wait⟩, h₁, heq⟩ := Option.map_eq_some_iff.mp ht
    cases heq
    exact wait.placed
  | accepting lpcb prio seg =>
    obtain ⟨⟨t₁, wait⟩, h₁, heq⟩ := Option.map_eq_some_iff.mp ht
    cases heq
    exact wait.placed

end Stack

/-! ### Steps -/

/-- The lists other than the bound pcbs are right, the walk of a timer is in its place, and
callbacks nest in a callback or in nothing. -/
structure State.Sound (s : State) : Prop where
  shape : s.tcp.Shape
  placed : s.activity.Placed s.tcp
  pending : s.pending ≠ [] → s.activity.AppRuns

/-- `tcp_slowtmr` unlinks a pcb behind the one in front of it, and the callbacks of `tcp_input`
leave it the pcb that it goes on with. -/
def Event.Orderly (s : State) : Event → Prop
  | .turn env => ∀ prev n, s.activity = .slow prev (some n) → s.tcp.RemovesBehind env prev n
  | .ret _ err => s.pending = [] → s.activity.Relies s.tcp err
  | _ => True

/-- A call of the application keeps the bound pcbs right. -/
def Event.Fits (s : State) : Event → Prop
  | .call env c => c.Fits env s.tcp
  | _ => True

theorem step_on {s s' : State} {e : Event} (hs : s.Sound) (h : s.tcp.On w) (hord : e.Orderly s)
    (hfits : w = .bound → e.Fits s) (hstep : s.Step e s') : s'.tcp.On w := by
  cases hstep with
  | call _ hvalid hexec => exact Call.exec_on hs.shape h hvalid hfits hexec
  | aborted _ => exact h
  | newed _ => exact Stack.tcpAllocAgain_on h
  | ret hpending hresume => exact Stack.resume_on h (hord hpending) hresume
  | segment _ _ hinput => exact Stack.tcpInput_on hs.shape h hinput
  | tmr _ _ => exact h.congr rfl rfl fun _ => rfl
  | turn hturn => exact Stack.turn_on hs.shape h hs.placed hord hturn

theorem step_sound {s s' : State} {e : Event} (hs : s.Sound) (hord : e.Orderly s)
    (hstep : s.Step e s') : s'.Sound := by
  have hshape : s'.tcp.Shape := fun w hw =>
    step_on hs (hs.shape w hw) hord (fun h => absurd h hw) hstep
  have hactive := hs.shape .active nofun
  have hactive' := hshape .active nofun
  cases hstep with
  | call happ hvalid hexec =>
    exact ⟨hshape, hs.placed.keeps happ (Call.exec_keeps hs.shape hvalid hexec) hactive',
      fun _ => happ⟩
  | aborted hpending => exact ⟨hshape, hs.placed, fun _ => hs.pending (by rw [hpending]; nofun)⟩
  | newed hpending =>
    have happ := hs.pending (by rw [hpending]; nofun)
    exact ⟨hshape, hs.placed.keeps happ ((Stack.Calm.refl _).allocAgain_keeps hactive) hactive',
      fun _ => happ⟩
  | ret hpending hresume =>
    exact ⟨hshape, Stack.resume_placed hactive hs.placed hresume, fun h => absurd rfl h⟩
  | segment _ _ _ => exact ⟨hshape, Await.placed _, fun h => absurd rfl h⟩
  | tmr _ _ => exact ⟨hshape, hactive'.reached, fun h => absurd rfl h⟩
  | turn hturn =>
    refine ⟨hshape, Stack.turn_placed hs.shape hs.placed hord hturn, fun hpending => ?_⟩
    exact absurd (hs.pending hpending) (Stack.not_app_of_turn hturn)

end QuietLwip.Tcp
