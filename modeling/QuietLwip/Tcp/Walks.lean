import QuietLwip.Tcp.Moves

/-!
# The walks of the timers

A timer that has got somewhere in a list has the pcbs in front of it behind it: those of the
active pcbs are all stamped with the count of the timer. Calls of the application in a callback
keep such a place, unless they say that they have changed the list.
-/

namespace QuietLwip.Tcp

variable {env : Env} {err : Err} {t t' t'' : Stack} {w v : PcbList} {n m : ℕ} {a : Activity}
  {prev pcb : Option ℕ} {front back : List ℕ}

namespace Stack

/-! ### Turns -/

/-- The work of a timer on the pcb `n`, which stamps it. -/
structure Stamped (n : ℕ) (t t' : Stack) : Prop where
  lists : t'.lists = t.lists
  live : t'.live = t.live
  room : t'.room = t.room
  timerCtr : t'.timerCtr = t.timerCtr
  home : ∀ m, (t'.pcb m).home = (t.pcb m).home
  self : (t'.pcb n).lastTimer = t.timerCtr
  other : ∀ m, m ≠ n → (t'.pcb m).lastTimer = (t.pcb m).lastTimer

theorem Stamped.on (h : Stamped n t t') (hw : t.On w) : t'.On w :=
  hw.congr h.lists h.live h.home

theorem Stamped.modify {f : TcpPcb → TcpPcb} (hhome : (f (t.pcb n)).home = (t.pcb n).home)
    (hstamp : (f (t.pcb n)).lastTimer = t.timerCtr) : Stamped n t (t.modify n f) where
  lists := rfl
  live := rfl
  room := rfl
  timerCtr := rfl
  home m := by
    by_cases hm : m = n
    · rw [hm, pcb_modify, hhome]
    · exact (SameBut.modify t n f).home m hm
  self := by rw [pcb_modify, hstamp]
  other m hm := congrArg TcpPcb.lastTimer (Function.update_of_ne hm ..)

theorem lastTimer_modify {f : TcpPcb → TcpPcb} (t : Stack) (n m : ℕ)
    (hf : (f (t.pcb n)).lastTimer = (t.pcb n).lastTimer) :
    ((t.modify n f).pcb m).lastTimer = (t.pcb m).lastTimer := by
  by_cases hm : m = n
  · rw [hm, pcb_modify, hf]
  · exact congrArg TcpPcb.lastTimer (Function.update_of_ne hm ..)

theorem lastTimer_modifyConn (t : Stack) (n m : ℕ) (f : Conn → Conn) :
    ((t.modifyConn n f).pcb m).lastTimer = (t.pcb m).lastTimer :=
  lastTimer_modify t n m rfl

theorem home_modifyConn_eq (t : Stack) (n m : ℕ) (f : Conn → Conn) :
    ((t.modifyConn n f).pcb m).home = (t.pcb m).home := by
  by_cases hm : m = n
  · rw [hm]
    exact home_modifyConn t n f
  · exact (SameBut.modify t n _).home m hm

theorem Stamped.modifyConn (h : Stamped n t t') (f : Conn → Conn) (changed : Bool) :
    Stamped n t { t'.modifyConn n f with changed := changed } where
  lists := h.lists
  live := h.live
  room := h.room
  timerCtr := h.timerCtr
  home m := (home_modifyConn_eq t' n m f).trans (h.home m)
  self := (lastTimer_modifyConn t' n n f).trans h.self
  other m hm := (lastTimer_modifyConn t' n m f).trans (h.other m hm)

/-- One turn of the fast timer for a pcb that it has not been at. -/
theorem fastTurn_cases (hn : (t.pcb n).lastTimer ≠ t.timerCtr)
    (h : t.fastTurn env n = (t', a)) :
    Stamped n t t' ∧ (a = .fast (t.lists.next n) ∨
      ∃ fin, a = .fastRecv n fin (t.lists.next n) ∧ t'.changed = false) := by
  have hwork : Stamped n t (t.fastWork env n) := .modify rfl rfl
  unfold fastTurn at h
  rw [if_neg hn] at h
  dsimp only at h
  split at h
  · cases h
    exact ⟨hwork.modifyConn _ false, .inr ⟨_, rfl, rfl⟩⟩
  · cases h
    exact ⟨hwork, .inl rfl⟩

theorem slowWork_home (pcb : TcpPcb) (age stamp : ℕ) :
    TcpPcb.home { pcb.slowWork env age with lastTimer := stamp } = pcb.home := by
  rw [TcpPcb.slowWork, TcpPcb.retransmitted]
  split <;> rfl

theorem slowPolled_cases (h : t.slowPolled n = (t', a)) :
    (∃ f changed, t' = { t.modifyConn n f with changed := changed }) ∧
      (a = .slow (some n) (t.lists.next n) ∨
        (a = .slowPoll n (t.lists.next n) ∧ t'.changed = false)) := by
  unfold slowPolled at h
  dsimp only at h
  split at h
  · cases h
    exact ⟨⟨fun conn => { conn with polltmr := 0 }, false, rfl⟩, .inr ⟨rfl, rfl⟩⟩
  · cases h
    exact ⟨⟨fun conn => { conn with polltmr := Word.u8 ((t.pcb n).conn.polltmr + 1) },
      t.changed, rfl⟩, .inl rfl⟩

/-- One turn of the slow timer for a pcb that it has not been at: the pcb is removed when it is
due, or kept. -/
theorem slowTurn_cases (hn : (t.pcb n).lastTimer ≠ t.timerCtr)
    (h : t.slowTurn env prev n = some (t', a)) :
    ((t.pcb n).due env (t.age n) = false ∧ Stamped n t t' ∧
      (a = .slow (some n) (t.lists.next n) ∨
        (a = .slowPoll n (t.lists.next n) ∧ t'.changed = false))) ∨
    ((t.pcb n).due env (t.age n) = true ∧ t.unlinkAssert .active prev n = true ∧
      ∃ t₁, Stamped n t t₁ ∧
        t' = { t₁ with
          lists := t.lists.unlink .active prev n
          live := Function.update t.live n false
          changed := false } ∧
        a = .slowErr prev ((t.lists.unlink .active prev n).next n)) := by
  have hwork : Stamped n t (t.slowWorked env n) := .modify (slowWork_home _ _ _) rfl
  simp only [slowTurn, if_neg hn] at h
  split at h
  · cases h
  split at h
  · rename_i hdue
    unfold slowRemove at h
    split at h
    · rename_i hassert
      cases h
      refine .inr ⟨hdue, hassert, (t.slowWorked env n).modify n TcpPcb.purge, ?_, rfl, rfl⟩
      refine ⟨rfl, rfl, rfl, rfl, fun m => ?_, ?_, fun m hm => ?_⟩
      · rw [← hwork.home m]
        by_cases hm : m = n
        · rw [hm, pcb_modify, purge_home]
        · exact (SameBut.modify _ n _).home m hm
      · exact (lastTimer_modify _ n n (purge_lastTimer _)).trans hwork.self
      · exact (lastTimer_modify _ n m (purge_lastTimer _)).trans (hwork.other m hm)
    · cases h
  · rename_i hdue
    obtain ⟨⟨f, changed, rfl⟩, ha⟩ := slowPolled_cases (Option.some.inj h)
    exact .inl ⟨Bool.eq_false_of_not_eq_true hdue, hwork.modifyConn f changed, ha⟩

/-! ### Calls in a callback -/

/-- No new pcb, no other stamp, and the active pcbs as they were unless they are said to have
changed. -/
structure Calm (t t' : Stack) : Prop where
  room : t'.room = t.room
  timerCtr : t'.timerCtr = t.timerCtr
  live : ∀ m, t'.live m = true → t.live m = true
  stamp : ∀ m, (t'.pcb m).lastTimer = (t.pcb m).lastTimer
  list : t'.changed = false →
    t.changed = false ∧ ∀ l, t.lists.At .active l → t'.lists.At .active l

theorem Calm.refl (t : Stack) : Calm t t :=
  ⟨rfl, rfl, fun _ h => h, fun _ => rfl, fun h => ⟨h, fun _ hl => hl⟩⟩

theorem Calm.trans (h : Calm t t') (h' : Calm t' t'') : Calm t t'' where
  room := h'.room.trans h.room
  timerCtr := h'.timerCtr.trans h.timerCtr
  live m hm := h.live m (h'.live m hm)
  stamp m := (h'.stamp m).trans (h.stamp m)
  list hc := by
    obtain ⟨hc', hl'⟩ := h'.list hc
    obtain ⟨hc, hl⟩ := h.list hc'
    exact ⟨hc, fun l hat => hl' l (hl l hat)⟩

theorem Calm.modify {f : TcpPcb → TcpPcb} (t : Stack) (n : ℕ)
    (hf : (f (t.pcb n)).lastTimer = (t.pcb n).lastTimer) : Calm t (t.modify n f) :=
  ⟨rfl, rfl, fun _ h => h, fun m => lastTimer_modify t n m hf, fun h => ⟨h, fun _ hl => hl⟩⟩

theorem Calm.modifyConn (t : Stack) (n : ℕ) (f : Conn → Conn) : Calm t (t.modifyConn n f) :=
  .modify t n rfl

theorem Calm.setState (t : Stack) (n : ℕ) (state : TcpState) : Calm t (t.setState n state) :=
  .modify t n rfl

theorem Calm.free (t : Stack) (n : ℕ) : Calm t (t.free n) where
  room := rfl
  timerCtr := rfl
  live m hm := by
    by_cases hmn : m = n
    · rw [hmn, show (t.free n).live n = false from Function.update_self ..] at hm
      cases hm
    · rw [show (t.free n).live m = t.live m from Function.update_of_ne hmn ..] at hm
      exact hm
  stamp _ := rfl
  list h := ⟨h, fun _ hl => hl⟩

/-- A change that is reported does not have to keep the list. -/
theorem Calm.setChanged {p : PcbLists} {t : Stack} :
    Calm t { t with lists := p, changed := true } :=
  ⟨rfl, rfl, fun _ h => h, fun _ => rfl, nofun⟩

theorem rmvActive_calm (h : t.rmvActive n = some t') : Calm t t' := by
  obtain ⟨p, _, rfl⟩ := rmvActive_eq h
  exact .setChanged

/-- The pcb is not in the list of the active ones. -/
def Off (t : Stack) (n : ℕ) : Prop := ∀ l, t.lists.At .active l → n ∉ l

theorem On.off (h : t.On .active) (hn : t.live n = false ∨ (t.pcb n).home ≠ some .active) :
    t.Off n := by
  intro l hl hmem
  have hmem' := (h.mem hl n).mp hmem
  cases hn with
  | inl hdead => cases hdead.symm.trans hmem'.1
  | inr hhome => exact hhome hmem'.2

theorem rmv_calm (hv : v ≠ .active) (hn : t.Off n) (h : t.rmv v n = some t') : Calm t t' := by
  obtain ⟨p, hp, rfl⟩ := rmv_eq h
  exact ⟨rfl, rfl, fun _ h => h, fun _ => rfl,
    fun h => ⟨h, fun l hl => hl.rmv_other (hn l hl) hv.symm hp⟩⟩

theorem reg_calm (hv : v ≠ .active) (hn : t.Off n) : Calm t (t.reg v n) :=
  ⟨rfl, rfl, fun _ h => h, fun _ => rfl, fun h => ⟨h, fun l hl => hl.reg_other (hn l hl) hv.symm⟩⟩

theorem unbind_calm {port : ℕ} (hn : t.Off n) (h : t.unbind n port = some t') : Calm t t' := by
  unfold unbind at h
  split at h
  · cases h
    exact .refl t
  · exact rmv_calm (by decide) hn h

theorem removed_lastTimer (pcb : TcpPcb) : (pcb.removed env).lastTimer = pcb.lastTimer :=
  purge_lastTimer pcb

theorem tcpPcbRemove_calm (hv : v ≠ .active) (hn : t.Off n)
    (h : t.tcpPcbRemove env v n = some t') : Calm t t' := by
  obtain ⟨t₁, h₁, rfl⟩ := Option.map_eq_some_iff.mp h
  exact (rmv_calm hv hn h₁).trans (.modify t₁ n (removed_lastTimer _))

/-- `TCP_PCB_REMOVE_ACTIVE`. -/
theorem tcpPcbRemove_active_calm (h : t.tcpPcbRemove env .active n = some t') :
    Calm t t'.setChanged := by
  obtain ⟨p, _, rfl⟩ := tcpPcbRemove_eq h
  have hcalm : Calm t { t with lists := p, changed := true } := .setChanged
  exact hcalm.trans (.modify _ n (removed_lastTimer _))

theorem tcpAbandon_calm {told : Bool} (hactive : t.On .active)
    (h : t.tcpAbandon env n = some (t', told)) : Calm t t' := by
  unfold tcpAbandon at h
  split at h
  · cases h
  · rename_i hstate
    obtain ⟨t₁, h₁, heq⟩ := Option.map_eq_some_iff.mp h
    cases heq
    have hoff : t.Off n := hactive.off (.inr fun hhome => by
      have hs := state_of_home hhome
      rw [hstate] at hs
      cases hs)
    exact (tcpPcbRemove_calm (by decide) hoff h₁).trans (.free t₁ n)
  · obtain ⟨t₁, h₁, heq⟩ := Option.map_eq_some_iff.mp h
    cases heq
    exact (tcpPcbRemove_active_calm h₁).trans (.free _ n)

theorem tcpKillTimewait_calm (hactive : t.On .active) (h : t.tcpKillTimewait env = some t') :
    Calm t t' := by
  obtain rfl | ⟨l, n, told, _, _, ht⟩ := tcpKillTimewait_cases h
  · exact .refl t'
  · exact tcpAbandon_calm hactive ht

theorem tcpKillPrio_calm {prio : ℕ} {told : Bool} (hactive : t.On .active)
    (h : t.tcpKillPrio env prio = some (t', told)) : Calm t t' := by
  obtain ⟨rfl, _⟩ | ⟨l, n, _, _, ht⟩ := tcpKillPrio_cases h
  · exact .refl t'
  · exact tcpAbandon_calm hactive ht

theorem tcpBind_calm {ip port : ℕ} (hactive : t.On .active)
    (h : t.tcpBind n ip port = some t') : Calm t t' := by
  unfold tcpBind at h
  split at h
  case isFalse => cases h
  rename_i hclosed
  have hoff : t.Off n := hactive.off (.inr fun hhome => by
    have hs := state_of_home hhome
    rw [hclosed] at hs
    cases hs)
  obtain ⟨⟨t₁, chosen⟩, h₁, h⟩ := Option.bind_eq_some_iff.mp h
  obtain ⟨last, rfl⟩ := choosePort_eq h₁
  have hport : Calm t { t with port := last } :=
    ⟨rfl, rfl, fun _ h => h, fun _ => rfl, fun h => ⟨h, fun _ hl => hl⟩⟩
  dsimp only at h
  split at h
  · cases h
    exact hport
  obtain ⟨used, _, h⟩ := Option.bind_eq_some_iff.mp h
  split at h
  · cases h
    exact hport
  cases h
  exact (hport.trans (.modify _ n rfl)).trans (reg_calm (by decide) hoff)

theorem connectFrom_calm {oldLocalPort : ℕ} (h : t.connectFrom env n oldLocalPort = some t') :
    Calm t t' := by
  obtain ⟨used, _, h⟩ := Option.bind_eq_some_iff.mp h
  split at h
  · cases h
    exact .refl t
  dsimp only at h
  split at h
  · obtain ⟨t₁, h₁, h⟩ := Option.bind_eq_some_iff.mp h
    cases h
    obtain ⟨p, rfl, _⟩ := unbind_eq h₁
    have hsyn : Calm t ((t.modifyConn n (Conn.connecting env)).setState n .synSent) :=
      (Calm.modifyConn t n _).trans (.setState _ n .synSent)
    exact (hsyn.trans .setChanged).trans (.modifyConn _ n _)
  · cases h
    exact .modifyConn t n _

theorem tcpConnect_calm {ip : Option ℕ} {port : ℕ} (h : t.tcpConnect env n ip port = some t') :
    Calm t t' := by
  unfold tcpConnect at h
  split at h
  case isFalse => cases h
  split at h
  · cases h
    exact .refl t
  rename_i a
  have hremote : Calm t (t.setRemote n a port) := .modify t n rfl
  split at h
  · cases h
    exact hremote
  rename_i t₁ h₁
  have hcalm : Calm t t₁ := by
    unfold connectIp at h₁
    split at h₁
    · obtain ⟨ip, _, rfl⟩ := Option.map_eq_some_iff.mp h₁
      exact hremote.trans (.modify _ n rfl)
    · cases h₁
      exact hremote
  split at h
  · obtain ⟨⟨t₂, chosen⟩, h₂, h⟩ := Option.bind_eq_some_iff.mp h
    obtain ⟨last, rfl⟩ := newPortLoop_eq h₂
    have hport : Calm t₁ { t₁ with port := last } :=
      ⟨rfl, rfl, fun _ h => h, fun _ => rfl, fun h => ⟨h, fun _ hl => hl⟩⟩
    have hset : Calm t (({ t₁ with port := last } : Stack).setLocalPort n chosen) :=
      (hcalm.trans hport).trans (.modify _ n rfl)
    dsimp only at h
    split at h
    · cases h
      exact hset
    · exact hset.trans (connectFrom_calm h)
  · exact hcalm.trans (connectFrom_calm h)

theorem enterTimeWait_calm (h : t.enterTimeWait n = some t') : Calm t t' := by
  obtain ⟨t₁, h₁, rfl⟩ := Option.map_eq_some_iff.mp h
  obtain ⟨p, _, rfl⟩ := rmvActive_eq h₁
  have hpurge : Calm t (t.modify n TcpPcb.purge) := .modify t n (purge_lastTimer _)
  refine (hpurge.trans (.setChanged (p := p.reg .tw n))).trans ?_
  exact .setState _ n .timeWait

theorem tcpCloseShutdown_calm {rst : Bool} (hactive : t.On .active)
    (h : t.tcpCloseShutdown env n rst = some t') : Calm t t' := by
  unfold tcpCloseShutdown at h
  dsimp only at h
  split at h
  · split at h
    · exact enterTimeWait_calm h
    · obtain ⟨t₁, h₁, rfl⟩ := Option.map_eq_some_iff.mp h
      have hpurge : Calm t (t.modify n TcpPcb.purge) := .modify t n (purge_lastTimer _)
      exact (hpurge.trans (rmvActive_calm h₁)).trans (.free t₁ n)
  have hsend : ∀ state, Calm t (t.sendFin env n state) := by
    intro state
    rw [sendFin]
    split
    · exact (Calm.setState t n state).trans (.modifyConn _ n _)
    · exact .refl t
  have hoff (hs : (t.pcb n).state.isActive = false) : t.Off n :=
    hactive.off (.inr fun hhome => by
      rw [state_of_home hhome] at hs
      cases hs)
  split at h <;> rename_i hstate
  · obtain ⟨t₁, h₁, rfl⟩ := Option.map_eq_some_iff.mp h
    exact (unbind_calm (hoff (by rw [hstate]; rfl)) h₁).trans (.free t₁ n)
  · obtain ⟨t₁, h₁, rfl⟩ := Option.map_eq_some_iff.mp h
    exact (tcpPcbRemove_calm (by decide) (hoff (by rw [hstate]; rfl)) h₁).trans (.free t₁ n)
  · obtain ⟨t₁, h₁, rfl⟩ := Option.map_eq_some_iff.mp h
    exact (tcpPcbRemove_active_calm h₁).trans (.free _ n)
  all_goals cases h
  · exact hsend _
  · exact hsend _
  · exact hsend _
  · exact .refl t

theorem tcpClose_calm (hactive : t.On .active) (h : t.tcpClose env n = some t') : Calm t t' := by
  unfold tcpClose at h
  split at h
  · exact tcpCloseShutdown_calm hactive h
  · exact (Calm.modifyConn t n _).trans (tcpCloseShutdown_calm (hactive.modifyConn n _) h)

theorem tcpShutdown_calm {shutRx shutTx : Bool} (hactive : t.On .active)
    (h : t.tcpShutdown env n shutRx shutTx = some t') : Calm t t' := by
  unfold tcpShutdown at h
  split at h
  · cases h
    exact .refl t
  split at h
  · exact (Calm.modifyConn t n _).trans (tcpCloseShutdown_calm (hactive.modifyConn n _) h)
  split at h
  · cases h
    exact .modifyConn t n _
  split at h
  · split at h
    · exact tcpCloseShutdown_calm hactive h
    · exact tcpCloseShutdown_calm hactive h
    · exact tcpCloseShutdown_calm hactive h
    · cases h
      exact .refl t
  · cases h
    exact .refl t

end Stack

end QuietLwip.Tcp
