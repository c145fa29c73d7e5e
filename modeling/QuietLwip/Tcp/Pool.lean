import QuietLwip.Tcp.Places

/-!
# The pool of the pcbs

A pcb that is in use is an element of the pool: only `memp_malloc` takes one into use. So the
lists are no longer than the pool.
-/

namespace QuietLwip.Tcp

variable {env : Env} {err : Err} {t t' t'' t₁ : Stack} {w v : PcbList} {n m prio : ℕ} {a : Await}
  {seg : Segment}

namespace Stack

/-- What comes into use is in the pool. -/
structure Within (t t' : Stack) : Prop where
  room : t'.room = t.room
  live : ∀ m, t'.live m = true → t.live m = true ∨ m < t.room

theorem Within.refl (t : Stack) : Within t t := ⟨rfl, fun _ h => .inl h⟩

theorem Within.trans (h : Within t t') (h' : Within t' t'') : Within t t'' := by
  refine ⟨h'.room.trans h.room, fun m hm => ?_⟩
  obtain hlive | hlt := h'.live m hm
  · exact h.live m hlive
  · rw [h.room] at hlt
    exact .inr hlt

theorem Calm.within (h : Calm t t') : Within t t' := ⟨h.room, fun m hm => .inl (h.live m hm)⟩

theorem Within.modify (h : Within t t') (n : ℕ) (f : TcpPcb → TcpPcb) :
    Within t (t'.modify n f) := ⟨h.room, h.live⟩

theorem Within.modifyConn (h : Within t t') (n : ℕ) (f : Conn → Conn) :
    Within t (t'.modifyConn n f) := h.modify n _

theorem Within.lists (h : Within t t') (p : PcbLists) (changed : Bool) :
    Within t { t' with lists := p, changed := changed } := ⟨h.room, h.live⟩

theorem Within.free (h : Within t t') (n : ℕ) : Within t (t'.free n) :=
  h.trans (Calm.free t' n).within

theorem mempMalloc_lt {answer : Option ℕ} (h : t.mempMalloc answer = some n) : n < t.room := by
  have hn := (Option.filter_eq_some_iff.mp h).2
  simp only [Bool.and_eq_true, decide_eq_true_eq] at hn
  exact hn.1

/-- An element of the pool is taken into use. -/
theorem Within.take (h : Within t t') (hn : n < t'.room) (pcb : TcpPcb) (p : PcbLists) :
    Within t { t'.take n pcb with lists := p } := by
  refine h.trans ⟨rfl, fun m hm => ?_⟩
  by_cases hmn : m = n
  · rw [hmn]
    exact .inr hn
  · rw [show ({ t'.take n pcb with lists := p } : Stack).live m = t'.live m from
      Function.update_of_ne hmn ..] at hm
    exact .inl hm

theorem Within.allocAgain (h : Within t t₁) : Within t (t₁.tcpAllocAgain env prio).1 := by
  rw [tcpAllocAgain]
  split
  · rename_i n hn
    exact h.take (mempMalloc_lt hn) _ _
  · exact h

theorem tcpAbandon_within {told : Bool} (h : t.tcpAbandon env n = some (t', told)) :
    Within t t' := by
  unfold tcpAbandon at h
  split at h
  · cases h
  all_goals
    obtain ⟨t₁, h₁, heq⟩ := Option.map_eq_some_iff.mp h
    obtain ⟨p, _, rfl⟩ := tcpPcbRemove_eq h₁
    cases heq
    exact ⟨rfl, fun m hm => (((Within.refl t).modify n (TcpPcb.removed env)).free n).live m hm⟩

theorem tcpAlloc_within {npcb : Option (Option ℕ)}
    (h : t.tcpAlloc env prio = some (t', npcb)) : Within t t' := by
  unfold tcpAlloc at h
  split at h
  · rename_i n hn
    cases h
    exact (Within.refl t).take (mempMalloc_lt hn) _ _
  obtain ⟨t₁, h₁, h⟩ := Option.bind_eq_some_iff.mp h
  have hwithin₁ : Within t t₁ := by
    obtain rfl | ⟨l, n, told, _, _, ht⟩ := tcpKillTimewait_cases h₁
    · exact .refl t₁
    · exact tcpAbandon_within ht
  split at h
  · rename_i n hn
    cases h
    exact hwithin₁.take (mempMalloc_lt hn) _ _
  obtain ⟨⟨t₂, told⟩, h₂, h⟩ := Option.bind_eq_some_iff.mp h
  have hwithin₂ : Within t t₂ := by
    obtain ⟨rfl, _⟩ | ⟨l, n, _, _, ht⟩ := tcpKillPrio_cases h₂
    · exact hwithin₁
    · exact hwithin₁.trans (tcpAbandon_within ht)
  dsimp only at h
  split at h
  · cases h
    exact hwithin₂
  · cases h
    exact hwithin₂.allocAgain

theorem tcpListen_within (h : t.tcpListen env n = some t') : Within t t' := by
  unfold tcpListen at h
  split at h
  case isFalse => cases h
  obtain ⟨used, _, h⟩ := Option.bind_eq_some_iff.mp h
  split at h
  · cases h
    exact .refl t
  split at h
  · cases h
    exact .refl t
  rename_i m hm
  obtain ⟨t₁, h₁, h⟩ := Option.bind_eq_some_iff.mp h
  cases h
  have hlt : m < t.room := mempMalloc_lt hm
  obtain ⟨p, rfl, _⟩ := unbind_eq h₁
  have hwithin : Within t (free n { t with lists := p }) :=
    ((Within.refl t).lists p t.changed).free n
  exact hwithin.take hlt _ _

end Stack

theorem Call.exec_within {c : Call} {pending : Option Pending} (hshape : t.Shape)
    (ht : c.exec env t = some (t', pending)) : t.Within t' := by
  have hactive := hshape .active nofun
  cases c with
  | new =>
    obtain ⟨⟨t₁, npcb⟩, h₁, heq⟩ := Option.map_eq_some_iff.mp ht
    cases heq
    exact Stack.tcpAlloc_within h₁
  | bind n ip port =>
    obtain ⟨t₁, h₁, heq⟩ := Option.map_eq_some_iff.mp ht
    cases heq
    exact (Stack.tcpBind_calm hactive h₁).within
  | listen n =>
    obtain ⟨t₁, h₁, heq⟩ := Option.map_eq_some_iff.mp ht
    cases heq
    exact Stack.tcpListen_within h₁
  | connect n ip port =>
    obtain ⟨t₁, h₁, heq⟩ := Option.map_eq_some_iff.mp ht
    cases heq
    exact (Stack.tcpConnect_calm h₁).within
  | close n =>
    obtain ⟨t₁, h₁, heq⟩ := Option.map_eq_some_iff.mp ht
    cases heq
    exact (Stack.tcpClose_calm hactive h₁).within
  | shutdown n shutRx shutTx =>
    obtain ⟨t₁, h₁, heq⟩ := Option.map_eq_some_iff.mp ht
    cases heq
    exact (Stack.tcpShutdown_calm hactive h₁).within
  | abort n =>
    obtain ⟨⟨t₁, told⟩, h₁, heq⟩ := Option.map_eq_some_iff.mp ht
    cases heq
    exact (Stack.tcpAbandon_calm hactive h₁).within
  | other n prio reuseaddr conn =>
    cases ht
    exact (Stack.Within.refl t).modify n _

namespace Stack

/-! ### Segments -/

theorem inputRemove_within (ht : t.inputRemove env n = some (t', a)) : Within t t' := by
  obtain ⟨t₁, h₁, heq⟩ := Option.map_eq_some_iff.mp ht
  cases heq
  obtain ⟨p, _, rfl⟩ := tcpPcbRemove_eq h₁
  exact (((Within.refl t).lists p t.changed).modify n _).free n

theorem inputAbort_within (ht : t.inputAbort env n seg = some (t', a)) : Within t t' := by
  obtain ⟨⟨t₁, told⟩, h₁, heq⟩ := Option.map_eq_some_iff.mp ht
  cases heq
  exact tcpAbandon_within h₁

theorem inputFin_within : Within t (t.inputFin env n seg).1 := by
  rw [inputFin]
  split
  · split
    · exact ((Within.refl t).modifyConn n _).modifyConn n _
    · show Within t (t.correctWnd n)
      exact (Within.refl t).modifyConn n _
  · exact (Within.refl t).modifyConn n _

theorem inputData_within (ht : t.inputData env n seg = some (t', a)) : Within t t' := by
  unfold inputData at ht
  split at ht
  · split at ht
    · exact inputAbort_within ht
    · cases ht
      exact .refl t
  · have heq := Option.some.inj ht
    have hwithin : Within t (t.inputFin env n seg).1 := inputFin_within
    rw [heq] at hwithin
    exact hwithin

theorem inputEvents_within (ht : t.inputEvents env n seg = some (t', a)) : Within t t' := by
  unfold inputEvents at ht
  split at ht
  · cases ht
    exact .refl t
  · exact inputData_within ht

theorem Within.events (h : Within t t₁) (ht : t₁.inputEvents env n seg = some (t', a)) :
    Within t t' := h.trans (inputEvents_within ht)

theorem Within.nothing (h : Within t t₁) (ht : t₁.inputNothing env n seg = some (t', a)) :
    Within t t' := h.trans (inputEvents_within ht)

theorem enterTimeWait_within (h : t.enterTimeWait n = some t') : Within t t' :=
  (enterTimeWait_calm h).within

theorem Within.receive (h : Within t t₁) (h₁ : t₁.tcpReceive n seg = some t') : Within t t' := by
  obtain rfl := tcpReceive_eq h₁
  exact h.modifyConn n _

theorem processState_within (ht : t.processState env n seg = some (t', a)) : Within t t' := by
  have hrefl := Within.refl t
  unfold processState at ht
  split at ht
  · split at ht
    · cases ht
      exact (hrefl.modify n _).modifyConn n _
    · exact hrefl.nothing ht
  · split at ht
    · split at ht
      · cases ht
        exact hrefl.modify n _
      · exact hrefl.nothing ht
    · exact (hrefl.modifyConn n _).nothing ht
  iterate 2
    obtain ⟨t₁, h₁, ht⟩ := Option.bind_eq_some_iff.mp ht
    have hrecv := hrefl.receive h₁
    split at ht
    · exact ((hrecv.modifyConn n _).modify n _).events ht
    · exact hrecv.events ht
  · obtain ⟨t₁, h₁, ht⟩ := Option.bind_eq_some_iff.mp ht
    have hrecv := hrefl.receive h₁
    split at ht
    · split at ht
      · obtain ⟨t₂, h₂, ht⟩ := Option.bind_eq_some_iff.mp ht
        exact ((hrecv.modifyConn n _).trans (enterTimeWait_within h₂)).events ht
      · exact ((hrecv.modifyConn n _).modify n _).events ht
    · split at ht
      · exact (hrecv.modify n _).events ht
      · exact hrecv.events ht
  · obtain ⟨t₁, h₁, ht⟩ := Option.bind_eq_some_iff.mp ht
    have hrecv := hrefl.receive h₁
    split at ht
    · obtain ⟨t₂, h₂, ht⟩ := Option.bind_eq_some_iff.mp ht
      exact ((hrecv.modifyConn n _).trans (enterTimeWait_within h₂)).events ht
    · exact hrecv.events ht
  · obtain ⟨t₁, h₁, ht⟩ := Option.bind_eq_some_iff.mp ht
    have hrecv := hrefl.receive h₁
    split at ht
    · obtain ⟨t₂, h₂, ht⟩ := Option.bind_eq_some_iff.mp ht
      exact (hrecv.trans (enterTimeWait_within h₂)).events ht
    · exact hrecv.events ht
  · obtain ⟨t₁, h₁, ht⟩ := Option.bind_eq_some_iff.mp ht
    have hrecv := hrefl.receive h₁
    split at ht
    · unfold inputClosed at ht
      split at ht
      · exact hrecv.trans (inputRemove_within ht)
      · cases ht
        exact hrecv
    · exact hrecv.events ht
  · exact hrefl.nothing ht

theorem tcpProcess_within (ht : t.tcpProcess env n seg = some (t', a)) : Within t t' := by
  have hrefl := Within.refl t
  unfold tcpProcess at ht
  split at ht
  · split at ht
    · cases ht
      exact hrefl.modifyConn n _
    · exact hrefl.nothing ht
  · split at ht
    · exact (hrefl.modifyConn n _).nothing ht
    · exact (hrefl.modifyConn n _).trans (processState_within ht)

theorem inputOffered_within (ht : t.inputOffered env n seg = some (t', a)) : Within t t' := by
  unfold inputOffered at ht
  split at ht
  · cases ht
    exact .refl t
  · exact tcpProcess_within ht

theorem tcpTimewaitInput_within : Within t (t.tcpTimewaitInput env n seg) := by
  have hrefl := Within.refl t
  rw [tcpTimewaitInput]
  split
  · exact hrefl
  · split
    · exact hrefl
    · dsimp only
      split
      · exact (hrefl.modifyConn n _).modifyConn n _
      · exact hrefl.modifyConn n _

theorem listenAccept_within {lpcb : ℕ} {npcb : Option ℕ}
    (ht : t.listenAccept env lpcb npcb seg = some (t', a)) : Within t t' := by
  unfold listenAccept at ht
  split at ht
  · cases ht
    exact .refl t
  · rename_i n
    have hpcb : Within t (t.acceptPcb lpcb n seg) := ⟨rfl, fun m hm => .inl hm⟩
    split at ht
    · cases ht
      exact hpcb.modifyConn n _
    · obtain ⟨⟨t₁, told⟩, h₁, heq⟩ := Option.map_eq_some_iff.mp ht
      cases heq
      exact hpcb.trans (tcpAbandon_within h₁)

theorem tcpListenInput_within {lpcb : ℕ}
    (ht : t.tcpListenInput env lpcb seg = some (t', a)) : Within t t' := by
  unfold tcpListenInput at ht
  split at ht
  · cases ht
    exact .refl t
  · obtain ⟨⟨t₁, npcb⟩, h₁, ht⟩ := Option.bind_eq_some_iff.mp ht
    have halloc := tcpAlloc_within h₁
    dsimp only at ht
    split at ht
    · cases ht
      exact halloc
    · exact halloc.trans (listenAccept_within ht)

theorem tcpInput_within (ht : t.tcpInput env seg = some (t', a)) : Within t t' := by
  have hrefl := Within.refl t
  obtain ⟨found, _, ht⟩ := Option.bind_eq_some_iff.mp ht
  split at ht
  · rename_i prev n _
    have hfront : Within t (t.toFront .active prev n) := hrefl.lists _ t.changed
    dsimp only at ht
    split at ht
    · cases ht
      exact hfront.modifyConn n _
    · exact hfront.trans (tcpProcess_within ht)
  obtain ⟨found, _, ht⟩ := Option.bind_eq_some_iff.mp ht
  split at ht
  · cases ht
    exact tcpTimewaitInput_within
  obtain ⟨found, _, ht⟩ := Option.bind_eq_some_iff.mp ht
  split at ht
  · rename_i prev n _
    have hfront : Within t (t.toFront .listen prev n) := hrefl.lists _ t.changed
    exact hfront.trans (tcpListenInput_within ht)
  · cases ht
    exact hrefl

theorem Within.fin (h : Within t t₁) (ht : some (t₁.inputFin env n seg) = some (t', a)) :
    Within t t' := by
  have heq := Option.some.inj ht
  have hfin : Within t₁ (t₁.inputFin env n seg).1 := inputFin_within
  rw [heq] at hfin
  exact h.trans hfin

theorem inputReturn_within {point : InputPoint}
    (ht : t.inputReturn env err n seg point = some (t', a)) : Within t t' := by
  have hrefl := Within.refl t
  cases point with
  | refused fin =>
    cases err with
    | ok =>
      unfold inputReturn at ht
      dsimp only at ht
      split at ht
      · cases ht
        exact hrefl.modifyConn n _
      · exact inputOffered_within ht
    | abrt =>
      cases ht
      exact hrefl
    | other => exact (hrefl.modifyConn n _).trans (inputOffered_within ht)
  | refusedClosed =>
    unfold inputReturn at ht
    dsimp only at ht
    split at ht
    · cases ht
      exact hrefl
    · exact inputOffered_within ht
  | connected =>
    unfold inputReturn at ht
    dsimp only at ht
    split at ht
    · cases ht
      exact hrefl
    · exact (hrefl.modifyConn n _).nothing ht
  | accept =>
    cases err with
    | ok =>
      obtain ⟨t₁, h₁, ht⟩ := Option.bind_eq_some_iff.mp ht
      have hrecv := hrefl.receive h₁
      split at ht
      · exact ((hrecv.modifyConn n _).modify n _).events ht
      · exact hrecv.events ht
    | abrt =>
      cases ht
      exact hrefl
    | other => exact inputAbort_within ht
  | reset => exact inputRemove_within ht
  | closed => exact inputRemove_within ht
  | sent =>
    unfold inputReturn at ht
    dsimp only at ht
    split at ht
    · cases ht
      exact hrefl
    · exact inputData_within ht
  | recv =>
    cases err with
    | ok => exact hrefl.fin ht
    | abrt =>
      cases ht
      exact hrefl
    | other => exact (hrefl.modifyConn n _).fin ht
  | gotFin =>
    unfold inputReturn at ht
    dsimp only at ht
    split at ht
    · cases ht
      exact hrefl
    · cases ht
      exact hrefl.modifyConn n _
  | aborted =>
    cases ht
    exact hrefl

/-! ### Steps -/

theorem fastTurn_within : Within t (t.fastTurn env n).1 := by
  have hwork : Within t (t.fastWork env n) := (Within.refl t).modify n _
  rw [fastTurn]
  split
  · exact .refl t
  · dsimp only
    split
    · exact (hwork.modifyConn n _).lists _ false
    · exact hwork

theorem slowTurn_within {prev : Option ℕ} {a : Activity}
    (h : t.slowTurn env prev n = some (t', a)) : Within t t' := by
  by_cases hstamp : (t.pcb n).lastTimer = t.timerCtr
  · rw [(slowTurn_stamped hstamp h).1]
    exact .refl t
  obtain ⟨_, hs, _⟩ | ⟨_, _, t₁, hs, rfl, _⟩ := slowTurn_cases hstamp h
  · exact ⟨hs.room, fun m hm => .inl (by rwa [hs.live] at hm)⟩
  · refine ⟨hs.room, fun m hm => .inl ?_⟩
    by_cases hmn : m = n
    · rw [hmn] at hm
      cases (Function.update_self ..).symm.trans hm
    · exact (Function.update_of_ne hmn ..).symm.trans hm

theorem timeWaitTurn_within {prev : Option ℕ} {a : Activity}
    (h : t.timeWaitTurn prev n = some (t', a)) : Within t t' := by
  unfold timeWaitTurn at h
  split at h
  case isFalse => cases h
  split at h
  · split at h
    case isFalse => cases h
    cases h
    exact (((Within.refl t).modify n _).lists _ t.changed).free n
  · cases h
    exact .refl t

theorem turn_within {a a' : Activity} (h : t.turn env a = some (t', a')) : Within t t' := by
  cases a with
  | fast pcb =>
    cases pcb with
    | none =>
      unfold turn fastEnd at h
      dsimp only at h
      split at h <;> cases h <;> exact ⟨rfl, fun _ hm => .inl hm⟩
    | some n =>
      obtain rfl : (t.fastTurn env n).1 = t' := congrArg Prod.fst (Option.some.inj h)
      exact fastTurn_within
  | slow prev pcb =>
    cases pcb with
    | none =>
      cases h
      exact .refl t
    | some n => exact slowTurn_within h
  | timeWait prev pcb =>
    cases pcb with
    | none =>
      cases h
      exact .refl t
    | some n => exact timeWaitTurn_within h
  | _ => cases h

theorem resume_within {a a' : Activity} (h : a.resume env err t = some (t', a')) :
    Within t t' := by
  have hmaybe : ∀ n, (t' = t ∨ ∃ f, t' = t.modifyConn n f) → Within t t' := by
    rintro n (rfl | ⟨f, rfl⟩)
    · exact .refl _
    · exact (Within.refl t).modifyConn n f
  cases a with
  | fastRecv n fin next => exact hmaybe n (fastReturn_cases (Option.some.inj h)).1
  | fastClosed next =>
    cases h
    exact .refl t
  | slowErr prev pcb =>
    cases h
    exact .refl t
  | slowPoll prev pcb => exact hmaybe prev (pollReturn_cases (Option.some.inj h)).1
  | input point n seg =>
    obtain ⟨⟨t₁, wait⟩, h₁, heq⟩ := Option.map_eq_some_iff.mp h
    cases heq
    exact inputReturn_within h₁
  | accepting lpcb prio seg =>
    obtain ⟨⟨t₁, wait⟩, h₁, heq⟩ := Option.map_eq_some_iff.mp h
    cases heq
    exact (Within.refl t).allocAgain.trans (listenAccept_within h₁)
  | _ => cases h

/-- What is in use is in the pool. -/
def Pooled (t : Stack) : Prop := ∀ n, t.live n = true → n < t.room

theorem Pooled.within (h : t.Pooled) (hw : Within t t') : t'.Pooled := by
  intro n hn
  rw [hw.room]
  exact (hw.live n hn).elim (h n) id

/-- A list is no longer than the pool. -/
theorem Pooled.length_le {l : List ℕ} (h : t.Pooled) (hw : t.On w) (hl : t.lists.At w l) :
    l.length ≤ t.room := by
  have hsub : l ⊆ List.range t.room := fun n hn =>
    List.mem_range.mpr (h n ((hw.mem hl n).mp hn).1)
  calc l.length ≤ (List.range t.room).length := (List.subperm_of_subset hl.nodup hsub).length_le
    _ = t.room := List.length_range

/-- The walk of a list that is right comes to its end. -/
theorem Pooled.walk {l : List ℕ} (h : t.Pooled) (hw : t.On w) (hl : t.lists.At w l) :
    t.walk w = some l := Links.ListAt.walk hl (h.length_le hw hl)

end Stack

theorem step_within {s s' : State} {e : Event} (hs : s.Sound) (hstep : s.Step e s') :
    s.tcp.Within s'.tcp := by
  cases hstep with
  | call _ _ hexec => exact Call.exec_within hs.shape hexec
  | aborted _ => exact .refl _
  | newed _ => exact (Stack.Within.refl _).allocAgain
  | ret _ hresume => exact Stack.resume_within hresume
  | segment _ _ hinput => exact Stack.tcpInput_within hinput
  | tmr _ _ => exact ⟨rfl, fun _ hm => .inl hm⟩
  | turn hturn => exact Stack.turn_within hturn

end QuietLwip.Tcp
