import QuietLwip.Tcp.Lists

/-!
# What segments and timers do to the lists

The pcb that a segment belongs to is in the list that it was found in. A callback may take this
pcb away; what `tcp_input` does afterwards is right as long as the pcb is still a connection.
-/

namespace QuietLwip.Tcp

variable {env : Env} {err : Err} {t t' : Stack} {w v : PcbList} {n prio : ℕ} {seg : Segment}
  {a : Await} {prev : Option ℕ} {front back : List ℕ}

namespace Stack

/-- The pcb is among the active ones. -/
def Active (t : Stack) (n : ℕ) : Prop := t.live n = true ∧ (t.pcb n).home = some .active

/-- The pcb is a connection, perhaps in `TIME_WAIT`. -/
def Connected (t : Stack) (n : ℕ) : Prop :=
  t.live n = true ∧ ((t.pcb n).home = some .active ∨ (t.pcb n).home = some .tw)

theorem Active.connected (h : t.Active n) : t.Connected n := ⟨h.1, .inl h.2⟩

theorem Connected.state_ne (h : t.Connected n) : (t.pcb n).state ≠ .closed := by
  intro hclosed
  obtain ⟨_, h | h⟩ := h
  · have hstate := state_of_home h
    rw [hclosed] at hstate
    cases hstate
  · cases hclosed.symm.trans (state_of_home_tw h)

/-! ### Finding, moving and unlinking -/

theorem find_at {l : List ℕ} {p : TcpPcb → Bool} (hl : t.lists.At w l)
    (h : t.find w p = some (some (prev, n))) :
    ∃ front back, l = front ++ n :: back ∧ front.getLast? = prev := by
  obtain ⟨front, back, rfl, hprev⟩ := Links.ListAt.of_findFrom hl h
  refine ⟨front, back, rfl, ?_⟩
  rw [hprev, Option.or_none]

/-- A pcb of one list is in no other one. -/
theorem not_mem_of_home {l : List ℕ} (hmem : ∀ m, m ∈ l ↔ t.live m = true ∧ (t.pcb m).home = some w)
    (hwv : w ≠ v) (hn : (t.pcb n).home = some v) : n ∉ l := by
  rw [hmem, hn]
  rintro ⟨_, heq⟩
  exact hwv (Option.some.inj heq).symm

theorem On.mem (h : t.On w) {l : List ℕ} (hl : t.lists.At w l) (n : ℕ) :
    n ∈ l ↔ t.live n = true ∧ (t.pcb n).home = some w := by
  obtain ⟨l', hl', hmem⟩ := h
  obtain rfl := hl.unique hl'
  exact hmem n

theorem last_mem (hprev : ∀ m ∈ front.getLast?, m ∈ front) (hv : t.On v)
    (hl : t.lists.At v (front ++ n :: back)) :
    ∀ m ∈ front.getLast?, (t.pcb m).home = some v := by
  intro m hm
  exact ((hv.mem hl m).mp (List.mem_append_left _ (hprev m hm))).2

theorem On.toFront (hv : t.On v) (h : t.On w) (hl : t.lists.At v (front ++ n :: back)) :
    (t.toFront v front.getLast? n).On w := by
  have hlast := last_mem (fun _ => List.mem_of_getLast?) hv hl
  by_cases hwv : w = v
  · subst hwv
    refine ⟨n :: (front ++ back), hl.toFront, fun m => ?_⟩
    rw [← List.perm_middle.mem_iff]
    exact h.mem hl m
  · obtain ⟨l, hl', hmem⟩ := h
    have hn := ((hv.mem hl n).mp (by simp)).2
    exact ⟨l, hl'.toFront_other (fun m hm => not_mem_of_home hmem hwv (hlast m hm))
      (not_mem_of_home hmem hwv hn) hwv, hmem⟩

/-- Unlinking a pcb behind the one in front of it. -/
theorem On.unlink (hv : t.On v) (h : t.On w) (hl : t.lists.At v (front ++ n :: back)) :
    ({ t with lists := t.lists.unlink v front.getLast? n } : Stack).OnBut w n False := by
  have hlast := last_mem (fun _ => List.mem_of_getLast?) hv hl
  have hn := (hv.mem hl n).mp (by simp)
  by_cases hwv : w = v
  · subst hwv
    refine ⟨front ++ back, hl.unlink, fun m hm => ?_,
      iff_of_false (Links.not_mem_of_nodup hl.nodup) not_false⟩
    have hperm : m ∈ front ++ n :: back ↔ m ∈ front ++ back := by
      rw [List.perm_middle.mem_iff, List.mem_cons, or_iff_right hm]
    rw [← hperm]
    exact h.mem hl m
  · obtain ⟨l, hl', hmem⟩ := h
    exact ⟨l, hl'.unlink_other (fun m hm => not_mem_of_home hmem hwv (hlast m hm)) hwv,
      fun m _ => hmem m, iff_of_false (not_mem_of_home hmem hwv hn.2) not_false⟩

/-! ### After `tcp_process` -/

theorem inputRemove_on (h : t.On w) (hn : (t.pcb n).home = some .active)
    (ht : t.inputRemove env n = some (t', a)) : t'.On w := by
  obtain ⟨t₁, h₁, heq⟩ := Option.map_eq_some_iff.mp ht
  cases heq
  refine h.remove (fun hw hmem => hw ?_) h₁
  rw [hn] at hmem
  exact (Option.some.inj hmem.2).symm

theorem inputAbort_on (h : t.On w) (hn : (t.pcb n).state ≠ .closed)
    (ht : t.inputAbort env n seg = some (t', a)) : t'.On w := by
  obtain ⟨⟨t₁, told⟩, h₁, heq⟩ := Option.map_eq_some_iff.mp ht
  cases heq
  exact tcpAbandon_on h (fun _ hclosed => absurd hclosed hn) h₁

theorem inputFin_on (h : t.On w) : (t.inputFin env n seg).1.On w := by
  rw [inputFin]
  split
  · split
    · exact (h.modifyConn n _).modifyConn n _
    · exact h.modifyConn n _
  · exact h.modifyConn n _

theorem inputData_on (h : t.On w) (hn : seg.data = true → (t.pcb n).state ≠ .closed)
    (ht : t.inputData env n seg = some (t', a)) : t'.On w := by
  unfold inputData at ht
  split at ht
  · rename_i hdata
    split at ht
    · exact inputAbort_on h (hn hdata) ht
    · cases ht
      exact h
  · obtain rfl : (t.inputFin env n seg).1 = t' := congrArg Prod.fst (Option.some.inj ht)
    exact inputFin_on h

theorem inputEvents_on (h : t.On w) (hn : seg.data = true → (t.pcb n).state ≠ .closed)
    (ht : t.inputEvents env n seg = some (t', a)) : t'.On w := by
  unfold inputEvents at ht
  split at ht
  · cases ht
    exact h
  · exact inputData_on h hn ht

theorem inputNothing_on (h : t.On w) (ht : t.inputNothing env n seg = some (t', a)) : t'.On w :=
  inputEvents_on h (fun hdata => Bool.noConfusion hdata) ht

/-! ### `tcp_process` -/

theorem tcpReceive_eq (h : t.tcpReceive n seg = some t') : t' = t.modifyConn n seg.received := by
  unfold tcpReceive at h
  split at h <;> cases h
  rfl

theorem enterTimeWait_state (ht : t.enterTimeWait n = some t') :
    (t'.pcb n).state = .timeWait := by
  obtain ⟨t₁, _, rfl⟩ := Option.map_eq_some_iff.mp ht
  exact state_setState t₁ n .timeWait

/-- The connection changes its state and the events are reported. -/
theorem setState_inputEvents_on {state : TcpState} (h : t.On w)
    (hhome : (t.pcb n).home = some .active) (hs : state.isActive = true)
    (ht : (t.setState n state).inputEvents env n seg = some (t', a)) : t'.On w := by
  refine inputEvents_on (h.setState hhome hs) (fun _ hclosed => ?_) ht
  rw [state_setState] at hclosed
  rw [hclosed] at hs
  cases hs

theorem home_modifyConn (t : Stack) (n : ℕ) (f : Conn → Conn) :
    ((t.modifyConn n f).pcb n).home = (t.pcb n).home := by
  rw [modifyConn]
  rw [pcb_modify]
  rfl

theorem timeWait_inputEvents_on (h : t.On w) (hn : t.Active n)
    (ht : (t.enterTimeWait n).bind (fun t => t.inputEvents env n seg) = some (t', a)) :
    t'.On w := by
  obtain ⟨t₁, h₁, ht⟩ := Option.bind_eq_some_iff.mp ht
  refine inputEvents_on (enterTimeWait_on h hn.1 hn.2 h₁) (fun _ => ?_) ht
  rw [enterTimeWait_state h₁]
  exact nofun

theorem Active.modifyConn (h : t.Active n) (f : Conn → Conn) : (t.modifyConn n f).Active n :=
  ⟨h.1, (home_modifyConn t n f).trans h.2⟩

theorem Active.inputEvents_on (hn : t.Active n) (h : t.On w)
    (ht : t.inputEvents env n seg = some (t', a)) : t'.On w :=
  Stack.inputEvents_on h (fun _ => hn.connected.state_ne) ht

theorem processState_on (h : t.On w) (hlive : t.live n = true)
    (ht : t.processState env n seg = some (t', a)) : t'.On w := by
  have hactive (hs : (t.pcb n).state.isActive = true) : t.Active n := ⟨hlive, home_of_state hs⟩
  unfold processState at ht
  split at ht <;> rename_i hstate
  · have hn := hactive (by rw [hstate]; rfl)
    split at ht
    · cases ht
      exact (h.setState hn.2 rfl).modifyConn n _
    · exact inputNothing_on h ht
  · have hn := hactive (by rw [hstate]; rfl)
    split at ht
    · split at ht
      · cases ht
        exact h.setState hn.2 rfl
      · exact inputNothing_on h ht
    · exact inputNothing_on (h.modifyConn n _) ht
  iterate 2
    have hn := hactive (by rw [hstate]; rfl)
    obtain ⟨t₁, h₁, ht⟩ := Option.bind_eq_some_iff.mp ht
    obtain rfl := tcpReceive_eq h₁
    have hrecv := hn.modifyConn seg.received
    split at ht
    · exact setState_inputEvents_on ((h.modifyConn n _).modifyConn n _)
        (hrecv.modifyConn _).2 rfl ht
    · exact hrecv.inputEvents_on (h.modifyConn n _) ht
  · have hn := hactive (by rw [hstate]; rfl)
    obtain ⟨t₁, h₁, ht⟩ := Option.bind_eq_some_iff.mp ht
    obtain rfl := tcpReceive_eq h₁
    have hrecv := hn.modifyConn seg.received
    split at ht
    · split at ht
      · exact timeWait_inputEvents_on ((h.modifyConn n _).modifyConn n _)
          (hrecv.modifyConn _) ht
      · exact setState_inputEvents_on ((h.modifyConn n _).modifyConn n _)
          (hrecv.modifyConn _).2 rfl ht
    · split at ht
      · exact setState_inputEvents_on (h.modifyConn n _) hrecv.2 rfl ht
      · exact hrecv.inputEvents_on (h.modifyConn n _) ht
  · have hn := hactive (by rw [hstate]; rfl)
    obtain ⟨t₁, h₁, ht⟩ := Option.bind_eq_some_iff.mp ht
    obtain rfl := tcpReceive_eq h₁
    have hrecv := hn.modifyConn seg.received
    split at ht
    · exact timeWait_inputEvents_on ((h.modifyConn n _).modifyConn n _) (hrecv.modifyConn _) ht
    · exact hrecv.inputEvents_on (h.modifyConn n _) ht
  · have hn := hactive (by rw [hstate]; rfl)
    obtain ⟨t₁, h₁, ht⟩ := Option.bind_eq_some_iff.mp ht
    obtain rfl := tcpReceive_eq h₁
    have hrecv := hn.modifyConn seg.received
    split at ht
    · exact timeWait_inputEvents_on (h.modifyConn n _) hrecv ht
    · exact hrecv.inputEvents_on (h.modifyConn n _) ht
  · have hn := hactive (by rw [hstate]; rfl)
    obtain ⟨t₁, h₁, ht⟩ := Option.bind_eq_some_iff.mp ht
    obtain rfl := tcpReceive_eq h₁
    have hrecv := hn.modifyConn seg.received
    split at ht
    · unfold inputClosed at ht
      split at ht
      · exact inputRemove_on (h.modifyConn n _) hrecv.2 ht
      · cases ht
        exact h.modifyConn n _
    · exact hrecv.inputEvents_on (h.modifyConn n _) ht
  · exact inputNothing_on h ht

theorem tcpProcess_on (h : t.On w) (hlive : t.live n = true)
    (ht : t.tcpProcess env n seg = some (t', a)) : t'.On w := by
  unfold tcpProcess at ht
  split at ht
  · split at ht
    · cases ht
      exact h.modifyConn n _
    · exact inputNothing_on h ht
  · split at ht
    · exact inputNothing_on (h.modifyConn n _) ht
    · exact processState_on (h.modifyConn n _) hlive ht

/-! ### `tcp_input` -/

theorem inputOffered_on (h : t.On w) (hlive : t.live n = true)
    (ht : t.inputOffered env n seg = some (t', a)) : t'.On w := by
  unfold inputOffered at ht
  split at ht
  · cases ht
    exact h
  · exact tcpProcess_on h hlive ht

theorem tcpTimewaitInput_on (h : t.On w) : (t.tcpTimewaitInput env n seg).On w := by
  rw [tcpTimewaitInput]
  split
  · exact h
  · split
    · exact h
    · dsimp only
      split
      · exact (h.modifyConn n _).modifyConn n _
      · exact h.modifyConn n _

/-- A fresh pcb is in use and belongs in no list. -/
def Fresh (t : Stack) (n : ℕ) : Prop := t.live n = true ∧ (t.pcb n).home = none

theorem initPcb_fresh (t : Stack) (n prio : ℕ) : (t.initPcb n prio).Fresh n := by
  refine ⟨Function.update_self .., ?_⟩
  rw [show (t.initPcb n prio).pcb n = t.newPcb prio from pcb_take ..]
  rfl

theorem tcpAllocAgain_fresh (h : (t.tcpAllocAgain env prio).2 = some n) :
    (t.tcpAllocAgain env prio).1.Fresh n := by
  unfold tcpAllocAgain at h ⊢
  split at h
  · cases h
    exact initPcb_fresh t n prio
  · cases h

theorem tcpAlloc_fresh (h : t.tcpAlloc env prio = some (t', some (some n))) : t'.Fresh n := by
  unfold tcpAlloc at h
  split at h
  · cases h
    exact initPcb_fresh t n prio
  · obtain ⟨t₁, _, h⟩ := Option.bind_eq_some_iff.mp h
    split at h
    · cases h
      exact initPcb_fresh t₁ n prio
    · obtain ⟨⟨t₂, told⟩, _, h⟩ := Option.bind_eq_some_iff.mp h
      dsimp only at h
      split at h
      · cases h
      · obtain ⟨rfl, hn⟩ := Prod.mk.inj (Option.some.inj h)
        exact tcpAllocAgain_fresh (Option.some.inj hn)

theorem acceptPcb_on {lpcb : ℕ} (h : t.On w) (hn : t.Fresh n) :
    (t.acceptPcb lpcb n seg).On w ∧ ((t.acceptPcb lpcb n seg).pcb n).state = .synRcvd := by
  have hout : t.OnBut w n False := (h.but n).iff (iff_false_intro fun hmem => by
    rw [hn.2] at hmem
    cases hmem.2)
  have hset := hout.modify fun npcb =>
    { npcb with
      state := .synRcvd
      reuseaddr := (t.pcb lpcb).reuseaddr
      localIp := seg.destIp
      localPort := (t.pcb lpcb).localPort
      remoteIp := seg.srcIp
      remotePort := seg.src
      conn := { seg.received npcb.conn with keepalive := (t.pcb lpcb).conn.keepalive } }
  have hreg := hset.reg_on (v := .active) hn.1 (by rw [pcb_modify]; rfl)
  refine ⟨hreg.congr rfl rfl fun _ => rfl, ?_⟩
  simp [acceptPcb, regActive, reg, setChanged, Stack.modify]

theorem listenAccept_on {lpcb : ℕ} {npcb : Option ℕ} (h : t.On w) (hn : ∀ n ∈ npcb, t.Fresh n)
    (ht : t.listenAccept env lpcb npcb seg = some (t', a)) : t'.On w := by
  unfold listenAccept at ht
  split at ht
  · cases ht
    exact h
  · rename_i n
    obtain ⟨hon, hstate⟩ : (t.acceptPcb lpcb n seg).On w ∧
        ((t.acceptPcb lpcb n seg).pcb n).state = .synRcvd := acceptPcb_on h (hn n rfl)
    split at ht
    · cases ht
      exact hon.modifyConn n _
    · obtain ⟨⟨t₁, told⟩, h₁, heq⟩ := Option.map_eq_some_iff.mp ht
      cases heq
      exact tcpAbandon_on hon (fun _ hclosed => by
        rw [hstate] at hclosed
        cases hclosed) h₁

theorem tcpListenInput_on {lpcb : ℕ} (hshape : t.Shape) (h : t.On w)
    (ht : t.tcpListenInput env lpcb seg = some (t', a)) : t'.On w := by
  unfold tcpListenInput at ht
  split at ht
  · cases ht
    exact h
  obtain ⟨⟨t₁, npcb⟩, h₁, ht⟩ := Option.bind_eq_some_iff.mp ht
  have hon := tcpAlloc_on hshape h h₁
  dsimp only at ht
  split at ht
  · cases ht
    exact hon
  · refine listenAccept_on hon (fun n hn => ?_) ht
    cases hn
    exact tcpAlloc_fresh h₁

theorem mem_zip {q q₀ : Option ℕ} {l : List ℕ} (h : (q, n) ∈ (q₀ :: l.map some).zip l) :
    ∃ front back, l = front ++ n :: back ∧ q = front.getLast?.or q₀ := by
  induction l generalizing q₀ with
  | nil => cases h
  | cons m l ih =>
    cases List.mem_cons.mp h with
    | inl heq =>
      cases heq
      exact ⟨[], l, rfl, rfl⟩
    | inr hmem =>
      obtain ⟨front, back, rfl, rfl⟩ := ih hmem
      refine ⟨m :: front, back, rfl, ?_⟩
      rw [List.getLast?_cons]
      cases front.getLast? <;> rfl

theorem findListen_at {l : List ℕ} (hl : t.lists.At .listen l)
    (h : t.findListen seg = some (some (prev, n))) :
    ∃ front back, l = front ++ n :: back ∧ front.getLast? = prev := by
  obtain ⟨found, hfound, h⟩ := Option.bind_eq_some_iff.mp h
  cases found with
  | some found =>
    cases h
    exact find_at hl hfound
  | none =>
    obtain ⟨l', hl', h⟩ := Option.bind_eq_some_iff.mp h
    obtain rfl : l = l' := hl.unique (Links.listAt_of_walk hl')
    have hmem := List.mem_of_find?_eq_some (Option.some.inj h)
    obtain ⟨front, back, rfl, rfl⟩ := mem_zip (List.mem_reverse.mp hmem)
    exact ⟨front, back, rfl, (Option.or_none).symm⟩

theorem tcpInput_on (hshape : t.Shape) (h : t.On w) (ht : t.tcpInput env seg = some (t', a)) :
    t'.On w := by
  obtain ⟨found, hfound, ht⟩ := Option.bind_eq_some_iff.mp ht
  have hactive := hshape .active nofun
  obtain ⟨lactive, hlactive, hmem⟩ := hactive
  split at ht
  · rename_i prev n
    obtain ⟨front, back, rfl, rfl⟩ := find_at hlactive hfound
    have hfront := On.toFront (hshape .active nofun) h hlactive
    have hlive := ((hmem n).mp (by simp)).1
    dsimp only at ht
    split at ht
    · cases ht
      exact hfront.modifyConn n _
    · exact tcpProcess_on hfront hlive ht
  · obtain ⟨found, _, ht⟩ := Option.bind_eq_some_iff.mp ht
    split at ht
    · cases ht
      exact tcpTimewaitInput_on h
    · obtain ⟨found, hlisten, ht⟩ := Option.bind_eq_some_iff.mp ht
      split at ht
      · obtain ⟨llisten, hllisten, _⟩ := hshape .listen nofun
        obtain ⟨front, back, rfl, rfl⟩ := findListen_at hllisten hlisten
        refine tcpListenInput_on (fun v hv => ?_) ?_ ht
        · exact On.toFront (hshape .listen nofun) (hshape v hv) hllisten
        · exact On.toFront (hshape .listen nofun) h hllisten
      · cases ht
        exact h

end Stack

/-- After a callback for the pcb, `tcp_input` relies on it in this way. -/
def InputPoint.Relies (t : Stack) (n : ℕ) (seg : Segment) : InputPoint → Prop
  | .refused _ | .refusedClosed => t.Connected n
  | .accept | .reset | .closed => t.Active n
  | .sent => seg.data = true → t.Connected n
  | _ => True

namespace Stack

theorem inputReturn_on {point : InputPoint} (h : t.On w)
    (hrelies : err ≠ .abrt ∨ point = .reset ∨ point = .closed → point.Relies t n seg)
    (ht : t.inputReturn env err n seg point = some (t', a)) : t'.On w := by
  cases point with
  | refused fin =>
    cases err with
    | ok =>
      have hn : t.Connected n := hrelies (.inl nofun)
      unfold inputReturn at ht
      dsimp only at ht
      split at ht
      · cases ht
        exact h.modifyConn n _
      · exact inputOffered_on h hn.1 ht
    | abrt =>
      cases ht
      exact h
    | other =>
      have hn : t.Connected n := hrelies (.inl nofun)
      exact inputOffered_on (h.modifyConn n _) hn.1 ht
  | refusedClosed =>
    unfold inputReturn at ht
    dsimp only at ht
    split at ht
    · cases ht
      exact h
    · rename_i herr
      have hn : t.Connected n := hrelies (.inl herr)
      exact inputOffered_on h hn.1 ht
  | connected =>
    unfold inputReturn at ht
    dsimp only at ht
    split at ht
    · cases ht
      exact h
    · exact inputNothing_on (h.modifyConn n _) ht
  | accept =>
    cases err with
    | ok =>
      have hn : t.Active n := hrelies (.inl nofun)
      obtain ⟨t₁, h₁, ht⟩ := Option.bind_eq_some_iff.mp ht
      obtain rfl := tcpReceive_eq h₁
      have hrecv := hn.modifyConn seg.received
      split at ht
      · exact setState_inputEvents_on ((h.modifyConn n _).modifyConn n _)
          (hrecv.modifyConn _).2 rfl ht
      · exact hrecv.inputEvents_on (h.modifyConn n _) ht
    | abrt =>
      cases ht
      exact h
    | other =>
      have hn : t.Active n := hrelies (.inl nofun)
      exact inputAbort_on h hn.connected.state_ne ht
  | reset =>
    have hn : t.Active n := hrelies (.inr (.inl rfl))
    exact inputRemove_on h hn.2 ht
  | closed =>
    have hn : t.Active n := hrelies (.inr (.inr rfl))
    exact inputRemove_on h hn.2 ht
  | sent =>
    unfold inputReturn at ht
    dsimp only at ht
    split at ht
    · cases ht
      exact h
    · rename_i herr
      have hn : seg.data = true → t.Connected n := hrelies (.inl herr)
      exact inputData_on h (fun hdata => (hn hdata).state_ne) ht
  | recv =>
    cases err with
    | ok =>
      obtain rfl : (t.inputFin env n seg).1 = t' := congrArg Prod.fst (Option.some.inj ht)
      exact inputFin_on h
    | abrt =>
      cases ht
      exact h
    | other =>
      obtain rfl : ((t.keepRefused n false).inputFin env n seg).1 = t' :=
        congrArg Prod.fst (Option.some.inj ht)
      exact inputFin_on (h.modifyConn n _)
  | gotFin =>
    unfold inputReturn at ht
    dsimp only at ht
    split at ht
    · cases ht
      exact h
    · cases ht
      exact h.modifyConn n _
  | aborted =>
    cases ht
    exact h

end Stack

end QuietLwip.Tcp
