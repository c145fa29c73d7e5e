import QuietLwip.Foundation.Selection
import QuietLwip.Tcp.Axioms

/-!
# Connections that give way to new ones

When the pool is empty, `tcp_alloc` aborts a connection in TIME-WAIT, and when that was not enough an active one.
`tcp_kill_prio` looks for the oldest one of low priority in one scan, which compares both at once: it need not find
the oldest connection nor one of the lowest priority.
-/

namespace QuietLwip.Tcp

open Selection

variable {env : Env} {t t' : Stack} {l : List ℕ} {m n prio : ℕ}

namespace Stack

/-! ### The two scans -/

/-- What a scan keeps of the pcb it has found. -/
def noted (t : Stack) (mprio : ℕ → ℕ) (found : Option ℕ) : Inactive where
  mprio := found.elim 127 mprio
  inactivity := found.elim 0 t.age
  pcb := found

/-- The pcbs that `tcp_kill_prio` may take. -/
def Killable (t : Stack) (prio n : ℕ) : Prop := (t.pcb n).prio ≤ prio ∧ (t.pcb n).prio ≤ 127

/-- A pcb takes the place of another that was found before. -/
def Precedes (t : Stack) (n m : ℕ) : Prop := (t.pcb n).prio ≤ (t.pcb m).prio ∧ t.age m ≤ t.age n

def Older (t : Stack) (n m : ℕ) : Prop := t.age m ≤ t.age n

instance (t : Stack) (prio : ℕ) : DecidablePred (t.Killable prio) := fun _ => instDecidableAnd

instance (t : Stack) : DecidableRel t.Precedes := fun _ _ => instDecidableAnd

instance (t : Stack) : DecidableRel t.Older := fun _ _ => Nat.decLe _ _

theorem killPrioStep_noted {found : Option ℕ} (hfound : ∀ b ∈ found, (t.pcb b).prio ≤ 127) (n : ℕ) :
    t.killPrioStep prio (t.noted (fun n => (t.pcb n).prio) found) n =
      t.noted (fun n => (t.pcb n).prio) (pick (t.Killable prio) t.Precedes found n) := by
  cases found with
  | none =>
    by_cases hn : t.Killable prio n
    · have hstep : t.killPrioStep prio (t.noted (fun n => (t.pcb n).prio) none) n =
          t.noted (fun n => (t.pcb n).prio) (some n) := if_pos ⟨hn.1, hn.2, Nat.zero_le _⟩
      rw [hstep, pick, if_pos hn]
    · have hstep : t.killPrioStep prio (t.noted (fun n => (t.pcb n).prio) none) n =
          t.noted (fun n => (t.pcb n).prio) none := if_neg fun h => hn ⟨h.1, h.2.1⟩
      rw [hstep, pick, if_neg hn]
  | some b =>
    have hb : (t.pcb b).prio ≤ 127 := hfound b rfl
    by_cases hn : t.Killable prio n ∧ t.Precedes n b
    · have hstep : t.killPrioStep prio (t.noted (fun n => (t.pcb n).prio) (some b)) n =
          t.noted (fun n => (t.pcb n).prio) (some n) := if_pos ⟨hn.1.1, hn.2⟩
      rw [hstep, pick, if_pos hn]
    · have hstep : t.killPrioStep prio (t.noted (fun n => (t.pcb n).prio) (some b)) n =
          t.noted (fun n => (t.pcb n).prio) (some b) :=
        if_neg fun h => hn ⟨⟨h.1, h.2.1.trans hb⟩, h.2⟩
      rw [hstep, pick, if_neg hn]

theorem killPrio_foldl (t : Stack) (prio : ℕ) (l : List ℕ) {found : Option ℕ}
    (hfound : ∀ b ∈ found, (t.pcb b).prio ≤ 127) :
    l.foldl (t.killPrioStep prio) (t.noted (fun n => (t.pcb n).prio) found) =
      t.noted (fun n => (t.pcb n).prio) (l.foldl (pick (t.Killable prio) t.Precedes) found) := by
  induction l generalizing found with
  | nil => rfl
  | cons n l ih =>
    rw [List.foldl_cons, List.foldl_cons, killPrioStep_noted hfound n]
    refine ih fun b hb => ?_
    cases found with
    | none =>
      rw [pick] at hb
      split at hb
      · next hn =>
        cases hb
        exact hn.2
      · cases hb
    | some a =>
      rw [pick] at hb
      split at hb
      · next hn =>
        cases hb
        exact hn.1.2
      · cases hb
        exact hfound b rfl

theorem killTimewaitStep_noted (found : Option ℕ) (n : ℕ) :
    t.killTimewaitStep (t.noted (fun _ => 127) found) n =
      t.noted (fun _ => 127) (pick (fun _ => True) t.Older found n) := by
  cases found with
  | none =>
    have hstep : t.killTimewaitStep (t.noted (fun _ => 127) none) n = t.noted (fun _ => 127) (some n) :=
      if_pos (Nat.zero_le _)
    rw [hstep, pick, if_pos trivial]
  | some b =>
    by_cases hn : t.Older n b
    · have hstep : t.killTimewaitStep (t.noted (fun _ => 127) (some b)) n = t.noted (fun _ => 127) (some n) :=
        if_pos hn
      rw [hstep, pick, if_pos ⟨trivial, hn⟩]
    · have hstep : t.killTimewaitStep (t.noted (fun _ => 127) (some b)) n = t.noted (fun _ => 127) (some b) :=
        if_neg hn
      rw [hstep, pick, if_neg fun h => hn h.2]

theorem killTimewait_foldl (t : Stack) (l : List ℕ) (found : Option ℕ) :
    l.foldl t.killTimewaitStep (t.noted (fun _ => 127) found) =
      t.noted (fun _ => 127) (l.foldl (pick (fun _ => True) t.Older) found) := by
  induction l generalizing found with
  | nil => rfl
  | cons n l ih => rw [List.foldl_cons, List.foldl_cons, killTimewaitStep_noted, ih]

/-- What the scan of `tcp_kill_prio` finds. -/
theorem found_killPrio (t : Stack) (prio : ℕ) (l : List ℕ) :
    Found (t.Killable prio) t.Precedes l (l.foldl (t.killPrioStep prio) {}).pcb := by
  have hnone : ∀ b ∈ (none : Option ℕ), (t.pcb b).prio ≤ 127 := by rintro _ ⟨⟩
  have hfold := killPrio_foldl t prio l hnone
  have hstart : t.noted (fun n => (t.pcb n).prio) none = {} := rfl
  rw [hstart] at hfold
  rw [hfold]
  exact found_foldl (fun _ => ⟨le_rfl, le_rfl⟩)
    (fun _ _ _ hab hbc => ⟨hab.1.trans hbc.1, hbc.2.trans hab.2⟩) l

/-- What the scan of `tcp_kill_timewait` finds. -/
theorem found_killTimewait (t : Stack) (l : List ℕ) :
    Found (fun _ => True) t.Older l (l.foldl t.killTimewaitStep {}).pcb := by
  have hfold := killTimewait_foldl t l none
  have hstart : t.noted (fun _ => 127) none = {} := rfl
  rw [hstart] at hfold
  rw [hfold]
  refine found_foldl (fun a => Nat.le_refl (t.age a)) (fun a b c hab hbc => ?_) l
  change t.age c ≤ t.age a
  change t.age b ≤ t.age a at hab
  exact Nat.le_trans hbc hab

/-! ### What is aborted, and what is not -/

/-- All pcbs but the one that is gone stay as they are. -/
structure Spares (gone : Option ℕ) (t t' : Stack) : Prop where
  ticks : t'.ticks = t.ticks
  live : ∀ m, m ∉ gone → t'.live m = t.live m
  pcb : ∀ m, m ∉ gone → t'.pcb m = t.pcb m

theorem Spares.refl (t : Stack) : Spares none t t := ⟨rfl, fun _ _ => rfl, fun _ _ => rfl⟩

theorem Spares.age {gone : Option ℕ} (h : Spares gone t t') (hm : m ∉ gone) : t'.age m = t.age m := by
  rw [Stack.age, Stack.age, h.ticks, h.pcb m hm]

theorem ne_of_not_mem (hm : m ∉ some n) : m ≠ n := fun h => hm (congrArg some h.symm)

theorem tcpPcbRemove_spares {w : PcbList} (h : t.tcpPcbRemove env w n = some t') : Spares (some n) t t' := by
  obtain ⟨lists, -, rfl⟩ := tcpPcbRemove_eq h
  exact ⟨rfl, fun _ _ => rfl, fun m hm => Function.update_of_ne (ne_of_not_mem hm) ..⟩

theorem Spares.free (h : Spares (some n) t t') : Spares (some n) t (t'.free n) :=
  ⟨h.ticks, fun m hm => (Function.update_of_ne (ne_of_not_mem hm) ..).trans (h.live m hm), h.pcb⟩

theorem Spares.setChanged {gone : Option ℕ} (h : Spares gone t t') : Spares gone t t'.setChanged :=
  ⟨h.ticks, h.live, h.pcb⟩

theorem initPcb_spares (t : Stack) (n prio : ℕ) : Spares (some n) t (t.initPcb n prio) :=
  ⟨rfl, fun _ hm => Function.update_of_ne (ne_of_not_mem hm) ..,
    fun _ hm => Function.update_of_ne (ne_of_not_mem hm) ..⟩

theorem tcpAbandon_spares {told : Bool} (h : t.tcpAbandon env n = some (t', told)) :
    Spares (some n) t t' ∧ t'.live n = false := by
  unfold tcpAbandon at h
  split at h
  · cases h
  · obtain ⟨t₁, h₁, heq⟩ := Option.map_eq_some_iff.mp h
    cases heq
    exact ⟨(tcpPcbRemove_spares h₁).free, Function.update_self ..⟩
  · obtain ⟨t₁, h₁, heq⟩ := Option.map_eq_some_iff.mp h
    cases heq
    exact ⟨(tcpPcbRemove_spares h₁).setChanged.free, Function.update_self ..⟩

/-- The application of an active connection is told. -/
theorem tcpAbandon_told {told : Bool} (hactive : (t.pcb n).state.isActive)
    (h : t.tcpAbandon env n = some (t', told)) : told = true := by
  unfold tcpAbandon at h
  split at h
  · cases h
  · next hstate =>
    rw [hstate] at hactive
    cases hactive
  · obtain ⟨t₁, -, heq⟩ := Option.map_eq_some_iff.mp h
    cases heq
    rfl

/-- The connection in TIME-WAIT that has been inactive for longest. -/
structure Oldest (t : Stack) (n : ℕ) : Prop where
  live : t.live n = true
  timeWait : (t.pcb n).state = .timeWait
  oldest : ∀ m, t.live m = true → (t.pcb m).state = .timeWait → t.age m ≤ t.age n

/-- An active connection of no higher priority, and none of those below it has been inactive for longer. -/
structure Weakest (t : Stack) (prio n : ℕ) : Prop where
  live : t.live n = true
  active : (t.pcb n).state.isActive = true
  killable : t.Killable prio n
  oldest : ∀ m, t.live m = true → (t.pcb m).state.isActive = true → (t.pcb m).prio ≤ (t.pcb n).prio →
    t.age m ≤ t.age n

theorem On.mem_walk {w : PcbList} (h : t.On w) (hl : t.walk w = some l) :
    n ∈ l ↔ t.live n = true ∧ (t.pcb n).home = some w := by
  obtain ⟨l', hl', hmem⟩ := h
  obtain rfl : l = l' := (Links.listAt_of_walk hl : t.lists.At w l).unique hl'
  exact hmem n

theorem home_of_timeWait {pcb : TcpPcb} (h : pcb.state = .timeWait) : pcb.home = some .tw := by
  rw [TcpPcb.home, h]

/-- `tcp_kill_timewait` aborts the oldest connection in TIME-WAIT, if there is one. -/
theorem tcpKillTimewait_oldest (htw : t.On .tw) (h : t.tcpKillTimewait env = some t') :
    ∃ gone, (∀ n ∈ gone, t.Oldest n ∧ t'.live n = false) ∧ Spares gone t t' ∧
      (gone = none → ∀ m, t.live m = true → (t.pcb m).state ≠ .timeWait) := by
  obtain ⟨l, hl, h⟩ := Option.bind_eq_some_iff.mp h
  have hfound := t.found_killTimewait l
  split at h
  · next hnone =>
    rw [hnone] at hfound
    cases h
    refine ⟨none, (by rintro _ ⟨⟩), .refl _, fun _ m hm hstate => ?_⟩
    exact hfound m ((htw.mem_walk hl).mpr ⟨hm, home_of_timeWait hstate⟩) trivial
  · next n hn =>
    rw [hn] at hfound
    obtain ⟨⟨t₁, told⟩, ht, rfl⟩ := Option.map_eq_some_iff.mp h
    have hbest : Best (fun _ => True) t.Older l n := hfound
    obtain ⟨hlive, hhome⟩ := (htw.mem_walk hl).mp hbest.mem
    obtain ⟨hspares, hdead⟩ := tcpAbandon_spares ht
    refine ⟨some n, ?_, hspares, (by rintro ⟨⟩)⟩
    rintro _ ⟨⟩
    refine ⟨⟨hlive, state_of_home_tw hhome, fun m hm hstate => ?_⟩, hdead⟩
    have hmem := (htw.mem_walk hl).mpr ⟨hm, home_of_timeWait hstate⟩
    rcases Nat.le_total (t.age n) (t.age m) with hle | hle
    · exact hbest.best m hmem trivial hle
    · exact hle

/-- `tcp_kill_prio` aborts a connection that no other below it has outlived, if any may be aborted. -/
theorem tcpKillPrio_weakest {told : Bool} (hactive : t.On .active)
    (h : t.tcpKillPrio env prio = some (t', told)) :
    ∃ gone, (∀ n ∈ gone, t.Weakest prio n) ∧ Spares gone t t' ∧ (gone = none ↔ told = false) ∧
      (gone = none → ∀ m, t.live m = true → (t.pcb m).state.isActive = true → ¬ t.Killable prio m) := by
  obtain ⟨l, hl, h⟩ := Option.bind_eq_some_iff.mp h
  have hfound := t.found_killPrio prio l
  split at h
  · next hnone =>
    rw [hnone] at hfound
    cases h
    refine ⟨none, (by rintro _ ⟨⟩), .refl _, iff_of_true rfl rfl, fun _ m hm hstate => ?_⟩
    exact hfound m ((hactive.mem_walk hl).mpr ⟨hm, home_of_state hstate⟩)
  · next n hn =>
    rw [hn] at hfound
    have hbest : Best (t.Killable prio) t.Precedes l n := hfound
    obtain ⟨hlive, hhome⟩ := (hactive.mem_walk hl).mp hbest.mem
    have htold := tcpAbandon_told (state_of_home hhome) h
    refine ⟨some n, ?_, (tcpAbandon_spares h).1, iff_of_false (by simp) (by simp [htold]), (by rintro ⟨⟩)⟩
    rintro _ ⟨⟩
    refine ⟨hlive, state_of_home hhome, hbest.allowed, fun m hm hstate hle => ?_⟩
    have hmem := (hactive.mem_walk hl).mpr ⟨hm, home_of_state hstate⟩
    have hkillable : t.Killable prio m := ⟨hle.trans hbest.allowed.1, hle.trans hbest.allowed.2⟩
    rcases Nat.le_total (t.age n) (t.age m) with hage | hage
    · exact (hbest.best m hmem hkillable ⟨hle, hage⟩).2
    · exact hage

/-! ### Allocation -/

/-- What `tcp_alloc` has done for a new connection: which pcbs it has aborted, and what it returns. -/
structure Allocated (t : Stack) (env : Env) (prio : ℕ) (tw active : Option ℕ) (t' : Stack)
    (npcb : Option (Option ℕ)) : Prop where
  -- who has to go
  oldest : ∀ n ∈ tw, t.Oldest n
  weakest : ∀ n ∈ active, t.Weakest prio n
  -- nobody goes while there is a pcb, and an active connection goes last, and is told
  needed : t.mempMalloc (env.malloc 0) ≠ none → tw = none ∧ active = none
  last : active = none ↔ npcb ≠ none
  noTimeWait : npcb = none ∨ npcb = some none → tw = none →
    ∀ m, t.live m = true → (t.pcb m).state ≠ .timeWait
  stronger : npcb = some none → ∀ m, t.live m = true → (t.pcb m).state.isActive = true → ¬ t.Killable prio m
  fresh : ∀ n, npcb = some (some n) → t.live n = true → n ∈ tw
  spared : ∀ m, t.live m = true → m ∉ tw → m ∉ active → t'.live m = true ∧ t'.pcb m = t.pcb m

/-- A pcb that is not in use is none of those that are. -/
theorem initPcb_keeps (prio : ℕ) (hn : t.live n = false) (hm : t.live m = true) :
    (t.initPcb n prio).live m = true ∧ (t.initPcb n prio).pcb m = t.pcb m := by
  have hne : m ∉ some n := by
    rintro ⟨⟩
    rw [hn] at hm
    cases hm
  have h := t.initPcb_spares n prio
  exact ⟨(h.live m hne).trans hm, h.pcb m hne⟩

/-- The last attempt takes a pcb that is not in use, or none. -/
theorem tcpAllocAgain_keeps (env : Env) (prio : ℕ) (hm : t.live m = true) :
    (t.tcpAllocAgain env prio).1.live m = true ∧ (t.tcpAllocAgain env prio).1.pcb m = t.pcb m := by
  rw [tcpAllocAgain]
  split
  · next n hn => exact initPcb_keeps prio (mempMalloc_eq hn).2 hm
  · exact ⟨hm, rfl⟩

theorem tcpAllocAgain_free (h : (t.tcpAllocAgain env prio).2 = some n) : t.live n = false := by
  rw [tcpAllocAgain] at h
  split at h
  · next k hk =>
    cases h
    exact (mempMalloc_eq hk).2
  · cases h

section killed

variable {t₁ : Stack} {gone : Option ℕ}

/-- An active connection is not the one in TIME-WAIT that is gone. -/
theorem not_gone (hgone : ∀ n ∈ gone, t.Oldest n ∧ t₁.live n = false) (hm : (t.pcb m).state.isActive = true) :
    m ∉ gone := by
  intro hmem
  rw [(hgone m hmem).1.timeWait] at hm
  cases hm

/-- The weakest connection is the weakest one also before the one in TIME-WAIT is gone. -/
theorem Weakest.before (hgone : ∀ n ∈ gone, t.Oldest n ∧ t₁.live n = false) (h : Spares gone t t₁)
    (hn : t₁.Weakest prio n) : t.Weakest prio n := by
  have hnot : n ∉ gone := by
    intro hmem
    have hlive := hn.live
    rw [(hgone n hmem).2] at hlive
    cases hlive
  obtain ⟨hlive, hactive, hkillable, holdest⟩ := hn
  rw [h.live n hnot] at hlive
  rw [Killable, h.pcb n hnot] at hkillable
  rw [h.pcb n hnot] at hactive
  refine ⟨hlive, hactive, hkillable, fun m hm hstate hle => ?_⟩
  have hm' := not_gone hgone hstate
  have hage := holdest m ((h.live m hm').trans hm)
  rw [h.pcb m hm', h.pcb n hnot, h.age hm', h.age hnot] at hage
  exact hage hstate hle

end killed

theorem tcpAlloc_allocated {npcb : Option (Option ℕ)} (hshape : t.Shape)
    (h : t.tcpAlloc env prio = some (t', npcb)) : ∃ tw active, t.Allocated env prio tw active t' npcb := by
  unfold tcpAlloc at h
  split at h
  · next n hn =>
    cases h
    have hfree := (mempMalloc_eq hn).2
    refine ⟨none, none, (by rintro _ ⟨⟩), (by rintro _ ⟨⟩), fun _ => ⟨rfl, rfl⟩, (by simp), (by simp), (by simp),
      ?_, fun m hm _ _ => initPcb_keeps prio hfree hm⟩
    rintro _ ⟨⟩ hlive
    rw [hfree] at hlive
    cases hlive
  · next hempty =>
    obtain ⟨t₁, h₁, h⟩ := Option.bind_eq_some_iff.mp h
    obtain ⟨tw, htw, hspares, hnoTw⟩ := tcpKillTimewait_oldest (hshape .tw (by simp)) h₁
    have hlive₁ : ∀ m, t.live m = true → m ∉ tw → t₁.live m = true :=
      fun m hm hmtw => (hspares.live m hmtw).trans hm
    split at h
    · next n hn =>
      cases h
      have hfree := (mempMalloc_eq hn).2
      refine ⟨tw, none, fun n hn => (htw n hn).1, (by rintro _ ⟨⟩), fun hne => absurd hempty hne, (by simp), (by simp),
        (by simp), ?_, fun m hm hmtw _ => ?_⟩
      · rintro _ ⟨⟩ hlive
        by_contra hntw
        rw [hlive₁ n hlive hntw] at hfree
        cases hfree
      · obtain ⟨hlive, hpcb⟩ := initPcb_keeps prio hfree (hlive₁ m hm hmtw)
        exact ⟨hlive, hpcb.trans (hspares.pcb m hmtw)⟩
    · obtain ⟨⟨t₂, told⟩, h₂, h⟩ := Option.bind_eq_some_iff.mp h
      have hactive := tcpKillTimewait_on hshape (hshape .active (by simp)) h₁
      obtain ⟨active, hweakest, hspares₂, htold, hstronger⟩ := tcpKillPrio_weakest hactive h₂
      have hspared : ∀ m, t.live m = true → m ∉ tw → m ∉ active → t₂.live m = true ∧ t₂.pcb m = t.pcb m :=
        fun m hm hmtw hmactive => ⟨(hspares₂.live m hmactive).trans (hlive₁ m hm hmtw),
          (hspares₂.pcb m hmactive).trans (hspares.pcb m hmtw)⟩
      have hbefore : ∀ n ∈ active, t.Weakest prio n := fun n hn => (hweakest n hn).before htw hspares
      dsimp only at h
      split at h
      · next htrue =>
        cases h
        have hsome : active ≠ none := by simp [htold, htrue]
        exact ⟨tw, active, fun n hn => (htw n hn).1, hbefore, fun hne => absurd hempty hne, (by simp [hsome]),
          fun _ => hnoTw, (by simp), (by simp), hspared⟩
      · next hfalse =>
        obtain ⟨rfl, rfl⟩ := Prod.mk.inj (Option.some.inj h)
        have hnone : active = none := htold.mpr (by simpa using hfalse)
        subst hnone
        have hstrong : ∀ m, t.live m = true → (t.pcb m).state.isActive = true → ¬ t.Killable prio m := by
          intro m hm hstate
          have hmtw := not_gone htw hstate
          have hkept := hstronger rfl m (hlive₁ m hm hmtw) (by rw [hspares.pcb m hmtw, hstate])
          rwa [Killable, hspares.pcb m hmtw] at hkept
        refine ⟨tw, none, fun n hn => (htw n hn).1, hbefore, fun hne => absurd hempty hne, (by simp), fun _ => hnoTw,
          fun _ => hstrong, ?_, ?_⟩
        · intro n hn hlive
          by_contra hntw
          have hkept := (hspared n hlive hntw (by simp)).1
          rw [tcpAllocAgain_free (Option.some.inj hn)] at hkept
          cases hkept
        · intro m hm hmtw hmactive
          obtain ⟨hlive, hpcb⟩ := hspared m hm hmtw hmactive
          obtain ⟨hlive', hpcb'⟩ := tcpAllocAgain_keeps env prio hlive
          exact ⟨hlive', hpcb'.trans hpcb⟩

end Stack

theorem shape_of_run {as : List Event} {s : State} (hr : tcpSystem.Run (fun s e => e.Orderly s) as s) :
    s.tcp.Shape := by
  have hsound : s.Sound := hr.invariant (I := fun _ s => s.Sound) (fun _ (h : State.Start _) => h.sound)
    fun _ _ _ _ _ hs he hstep => step_sound hs he hstep
  exact hsound.shape

/-- There is a way to the peer, and memory. -/
def routed : Env := { poolGives 0 with route := some 1, enqueue := true }

def poolEmpty : Env := { poolGives 0 with malloc := fun _ => none }

end QuietLwip.Tcp
