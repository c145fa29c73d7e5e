import QuietLwip.Foundation.Lock
import QuietLwip.Sockets.Select

/-!
# `select_waiting`

A call of `lwip_select` is counted in for each of its descriptors and looks all of them up again to
be counted out. This balances where the descriptors stay open meanwhile.
-/

namespace QuietLwip.Sockets

open Transition Lock

variable {τ κ δ : Type*} [DecidableEq τ] {t u : τ} {m m' : Mem τ κ δ} {pc pc' : Pc τ κ δ}
  {s s' : State τ κ δ} {i j : ℕ} {f : Sock κ δ → Sock κ δ}

section Table

omit [DecidableEq τ]

theorem Mem.onSock_self : (m.onSock i f).sockets i = f (m.sockets i) := Function.update_self _ _ _

theorem Mem.onSock_of_ne (hij : i ≠ j) : (m.onSock j f).sockets i = m.sockets i :=
  Function.update_of_ne hij _ _

/-- What an update of a socket does to one of its fields. -/
theorem Mem.onSock_field {α : Type*} {g : Sock κ δ → α} (hf : ∀ sock, g (f sock) = g sock) (i j : ℕ) :
    g ((m.onSock j f).sockets i) = g (m.sockets i) := by
  by_cases hij : i = j
  · rw [hij, Mem.onSock_self]
    exact hf _
  · rw [Mem.onSock_of_ne hij]

end Table

@[simp] theorem Mem.signal_sockets : (m.signal u j).sockets = m.sockets := by
  rw [Mem.signal]
  split <;> rfl

@[simp] theorem Mem.visit_sockets (p : Option τ) : (m.visit j p).1.sockets = m.sockets := by
  cases p with
  | none => rfl
  | some u => exact Mem.signal_sockets

theorem Mem.unlink_sockets (h : m.unlink t = some m') : m'.sockets = m.sockets := by
  unfold Mem.unlink at h
  dsimp only at h
  split at h
  · split at h
    · cases h
      rfl
    · cases h
  · split at h
    · cases h
    · cases h
      rfl

/-- What `event_callback` goes on with. -/
theorem Mem.visit_pc (p : Option τ) :
    (m.visit j p).2 = .idle ∨ ∃ scb, p = some scb ∧ (m.visit j p).2 = .walk j scb m.selectCbCtr := by
  cases p with
  | none => exact .inl rfl
  | some u => exact .inr ⟨u, rfl, rfl⟩

omit [DecidableEq τ] in
theorem Sock.event_selectWaiting {sock : Sock κ δ} {evt : Evt} :
    (sock.event evt).selectWaiting = sock.selectWaiting := by
  cases evt <;> rfl

omit [DecidableEq τ] in
theorem Sock.event_conn {sock : Sock κ δ} {evt : Evt} : (sock.event evt).conn = sock.conn := by
  cases evt <;> rfl

/-! ### One step -/

/-- The share of a thread in `select_waiting`. -/
def Pc.share (i : ℕ) (pc : Pc τ κ δ) : ℤ := if pc.counted i = true then 1 else 0

/-- The descriptor that is about to be counted is one of the call's. -/
def Pc.InTurn : Pc τ κ δ → Prop
  | count c i | uncount c i _ => c.Asks i
  | _ => True

/-- One of the assertions on `sock` or `select_waiting` has failed. -/
def Pc.Failed (pc : Pc τ κ δ) : Prop := pc = .aborted .sock ∨ pc = .aborted .selectWaiting

section

omit [DecidableEq τ]

theorem Pc.share_congr (h : pc.counted i = pc'.counted i) : pc.share i = pc'.share i := by
  unfold Pc.share
  rw [h]

theorem Pc.share_of_counted (h : pc.counted i = true) : pc.share i = 1 := if_pos h

theorem Pc.share_of_not_counted (h : pc.counted i = false) : pc.share i = 0 :=
  if_neg (Bool.eq_false_iff.mp h)

theorem Pc.scan_counted {c : Call} {round : Round} {j j' : ℕ} {found found' : Found} :
    (Pc.scan c round j found : Pc τ κ δ).counted i =
      (Pc.scan c round j' found' : Pc τ κ δ).counted i := by
  cases round <;> rfl

theorem Call.afterScan_inTurn {c : Call} {round : Round} {found : Found} :
    (c.afterScan round found : Pc τ κ δ).InTurn := by
  cases round with
  | last => trivial
  | _ =>
    unfold Call.afterScan
    dsimp only
    split <;> trivial

theorem Call.afterScan_counted {c : Call} {round : Round} {found found' : Found} :
    (c.afterScan round found : Pc τ κ δ).counted i =
      (Pc.scan c round j found' : Pc τ κ δ).counted i := by
  cases round with
  | first =>
    unfold Call.afterScan
    dsimp only
    split <;> rfl
  | second =>
    unfold Call.afterScan
    dsimp only
    split
    · exact decide_eq_decide.mpr ⟨And.right, fun h => ⟨Nat.zero_le i, h⟩⟩
    · rfl
  | last => rfl

end

omit [DecidableEq τ] in
theorem Call.afterScan_clears {c : Call} {round : Round} {found : Found} :
    ¬(c.afterScan round found : Pc τ κ δ).Clears i := by
  cases round with
  | last => exact id
  | _ =>
    unfold Call.afterScan
    dsimp only
    split <;> exact id

omit [DecidableEq τ] in
theorem Call.afterScan_not_failed {c : Call} {round : Round} {found : Found} :
    ¬(c.afterScan round found : Pc τ κ δ).Failed := by
  unfold Call.afterScan
  split
  · split <;> rintro (h | h) <;> cases h
  · split <;> rintro (h | h) <;> cases h
  · rintro (h | h) <;> cases h

theorem Mem.visit_inTurn {p : Option τ} : (m.visit j p).2.InTurn := by
  cases p <;> trivial

theorem Mem.visit_uses (p : Option τ) : ¬(m.visit j p).2.Uses i := by
  cases p <;> exact id

theorem Mem.visit_clears (p : Option τ) : ¬(m.visit j p).2.Clears i := by
  cases p <;> exact id

theorem Mem.visit_not_failed (p : Option τ) : ¬(m.visit j p).2.Failed := by
  cases p <;> rintro (h | h) <;> cases h

theorem Mem.visit_counted {p : Option τ} : (m.visit j p).2.counted i = false := by
  cases p <;> rfl

theorem Step.inTurn (h : Step t m pc m' pc') : pc'.InTurn := by
  cases h with
  | register h => exact h
  | unregister h => exact h
  | scanned => exact Call.afterScan_inTurn
  | mark => exact Mem.visit_inTurn
  | walk => exact Mem.visit_inTurn
  | again => exact Mem.visit_inTurn
  | unlink => split <;> trivial
  | _ => trivial

/-- A step changes `select_waiting` of a socket by the change of the thread's share. -/
theorem Step.share (h : Step t m pc m' pc') (hturn : pc.InTurn) (hgood : ¬pc'.Failed)
    (hclear : ∀ j, pc = .clearWaiting j → (m.sockets j).selectWaiting = 0) (i : ℕ) :
    (m'.sockets i).selectWaiting + pc.share i = (m.sockets i).selectWaiting + pc'.share i := by
  -- most steps change neither of the two
  have hkeep : (m'.sockets i).selectWaiting = (m.sockets i).selectWaiting →
      pc.counted i = pc'.counted i →
        (m'.sockets i).selectWaiting + pc.share i = (m.sockets i).selectWaiting + pc'.share i :=
    fun hwaiting hcounted => congrArg₂ _ hwaiting (Pc.share_congr hcounted)
  cases h with
  | selscan => exact hkeep rfl Pc.scan_counted
  | scanned => exact hkeep rfl Call.afterScan_counted.symm
  | @registerSkip c j h hw =>
    refine hkeep rfl (decide_eq_decide.mpr ⟨?_, ?_⟩)
    · rintro ⟨hlt, hasks⟩
      exact ⟨Nat.lt_succ_of_lt hlt, hasks⟩
    · rintro ⟨hlt, hasks⟩
      refine ⟨lt_of_le_of_ne (Nat.lt_succ_iff.mp hlt) ?_, hasks⟩
      rintro rfl
      rw [hasks.2] at hw
      cases hw
  | registerNull => exact absurd (.inl rfl) hgood
  | @registered c j h =>
    refine hkeep rfl (decide_eq_decide.mpr ⟨And.right, fun hasks => ⟨?_, hasks⟩⟩)
    exact lt_of_lt_of_le hasks.1 (Nat.le_of_not_lt h)
  | @count c j h =>
    by_cases hij : i = j
    · subst hij
      have hbefore : (Pc.count c i : Pc τ κ δ).counted i = false :=
        decide_eq_false fun h => lt_irrefl i h.1
      have hafter : (Pc.register c (i + 1) : Pc τ κ δ).counted i = true :=
        decide_eq_true ⟨Nat.lt_succ_self i, hturn⟩
      rw [Mem.onSock_self, Pc.share_of_not_counted hbefore, Pc.share_of_counted hafter]
      exact Int.add_zero _
    · refine hkeep (by rw [Mem.onSock_of_ne hij]) (decide_eq_decide.mpr ?_)
      rw [Nat.lt_succ_iff_lt_or_eq, or_iff_left hij]
  | countFails => exact absurd (.inr rfl) hgood
  | woken => exact hkeep rfl (decide_eq_decide.mpr ⟨fun h => ⟨Nat.zero_le i, h⟩, And.right⟩)
  | timedOut => exact hkeep rfl (decide_eq_decide.mpr ⟨fun h => ⟨Nat.zero_le i, h⟩, And.right⟩)
  | @unregisterSkip c j timedOut h hw =>
    refine hkeep rfl (decide_eq_decide.mpr ⟨?_, ?_⟩)
    · rintro ⟨hle, hasks⟩
      refine ⟨Nat.succ_le_of_lt (lt_of_le_of_ne hle ?_), hasks⟩
      rintro rfl
      rw [hasks.2] at hw
      cases hw
    · rintro ⟨hle, hasks⟩
      exact ⟨Nat.le_of_succ_le hle, hasks⟩
  | unregisterNull => exact absurd (.inl rfl) hgood
  | @unregistered c j timedOut h =>
    refine hkeep rfl (decide_eq_false ?_)
    rintro ⟨hle, hasks⟩
    exact h (lt_of_le_of_lt hle hasks.1)
  | @uncount c j timedOut h =>
    by_cases hij : i = j
    · subst hij
      have hbefore : (Pc.uncount c i timedOut : Pc τ κ δ).counted i = true :=
        decide_eq_true ⟨le_rfl, hturn⟩
      have hafter : (Pc.unregister c (i + 1) timedOut : Pc τ κ δ).counted i = false :=
        decide_eq_false fun h => Nat.not_succ_le_self i h.1
      rw [Mem.onSock_self, Pc.share_of_counted hbefore, Pc.share_of_not_counted hafter]
      show (m.sockets i).selectWaiting - 1 + 1 = (m.sockets i).selectWaiting + 0
      omega
    · refine hkeep (by rw [Mem.onSock_of_ne hij]) (decide_eq_decide.mpr ?_)
      rw [Nat.succ_le_iff, le_iff_lt_or_eq, or_iff_left (Ne.symm hij)]
  | uncountFails => exact absurd (.inr rfl) hgood
  | unlink h => exact hkeep (by rw [Mem.unlink_sockets h]) (by split <;> rfl)
  | markAlone => exact hkeep (Mem.onSock_field (fun _ => Sock.event_selectWaiting) i _) rfl
  | mark =>
    refine hkeep ?_ Mem.visit_counted.symm
    rw [Mem.visit_sockets]
    exact Mem.onSock_field (fun _ => Sock.event_selectWaiting) i _
  | walk => exact hkeep (by rw [Mem.visit_sockets]) Mem.visit_counted.symm
  | again => exact hkeep (by rw [Mem.visit_sockets]) Mem.visit_counted.symm
  | leave | delete | free | alloc | clear =>
    refine hkeep (Mem.onSock_field (g := Sock.selectWaiting) ?_ i _) rfl
    intro sock
    rfl
  | @clearWaiting j =>
    refine hkeep ?_ rfl
    by_cases hij : i = j
    · subst hij
      rw [Mem.onSock_self, hclear i rfl]
    · rw [Mem.onSock_of_ne hij]
  | _ => rfl

/-- A thread begins to use a descriptor when it goes on the list. -/
theorem Step.uses (h : Step t m pc m' pc') (huses : pc'.Uses i) :
    pc.Uses i ∨ ∃ c, pc = .link c ∧ c.Asks i := by
  cases h with
  | @selscan c round j found =>
    cases round with
    | second => exact .inl huses
    | _ => cases huses
  | @scanned c round j found =>
    cases round with
    | second =>
      unfold Call.afterScan at huses
      dsimp only at huses
      split at huses
      · exact .inl huses.2
      · exact .inl huses
    | first =>
      unfold Call.afterScan at huses
      dsimp only at huses
      split at huses <;> cases huses
    | last => cases huses
  | link => exact .inr ⟨_, rfl, huses⟩
  | registerSkip | register | registered | count | unregister => exact .inl huses
  | woken | timedOut => exact .inl huses.2
  | unregisterSkip | uncount => exact .inl ⟨Nat.le_of_succ_le huses.1, huses.2⟩
  | unlink => split at huses <;> cases huses
  | mark => exact absurd huses (Mem.visit_uses _)
  | walk => exact absurd huses (Mem.visit_uses _)
  | again => exact absurd huses (Mem.visit_uses _)
  | _ => cases huses

/-- The slot that a thread clears is one that it has found free. -/
theorem Step.clears (h : Step t m pc m' pc') (hclears : pc'.Clears i) :
    pc.Clears i ∨ m.trygetSocket i = none := by
  cases h with
  | clear => exact .inl hclears
  | alloc hi hconn =>
    cases hclears
    refine .inr (if_neg fun hopen => ?_)
    rw [hconn] at hopen
    cases hopen.2
  | scanned => exact absurd hclears Call.afterScan_clears
  | mark => exact absurd hclears (Mem.visit_clears _)
  | walk => exact absurd hclears (Mem.visit_clears _)
  | again => exact absurd hclears (Mem.visit_clears _)
  | unlink => split at hclears <;> cases hclears
  | _ => cases hclears

omit [DecidableEq τ] in
theorem Mem.trygetSocket_isSome :
    (m.trygetSocket i).isSome ↔ i < numSockets ∧ (m.sockets i).conn.isSome := by
  rw [Mem.trygetSocket]
  split
  · next h => exact ⟨fun _ => h, fun _ => rfl⟩
  · next h => exact ⟨nofun, fun h' => absurd h' h⟩

/-- A socket stays open until its slot is freed. -/
theorem Step.open (h : Step t m pc m' pc') (hopen : (m.trygetSocket i).isSome) :
    (m'.trygetSocket i).isSome ∨ pc = .free i := by
  obtain ⟨hi, hconn⟩ := Mem.trygetSocket_isSome.mp hopen
  have hkeep : (m'.sockets i).conn = (m.sockets i).conn →
      (m'.trygetSocket i).isSome ∨ pc = .free i := by
    intro hsame
    exact .inl (Mem.trygetSocket_isSome.mpr ⟨hi, hsame ▸ hconn⟩)
  cases h with
  | count | uncount | leave | delete | clear | clearWaiting =>
    refine hkeep (Mem.onSock_field (g := Sock.conn) ?_ i _)
    intro sock
    rfl
  | markAlone => exact hkeep (Mem.onSock_field (fun _ => Sock.event_conn) i _)
  | mark =>
    refine hkeep ?_
    rw [Mem.visit_sockets]
    exact Mem.onSock_field (fun _ => Sock.event_conn) i _
  | walk => exact hkeep (by rw [Mem.visit_sockets])
  | again => exact hkeep (by rw [Mem.visit_sockets])
  | unlink h => exact hkeep (by rw [Mem.unlink_sockets h])
  | @free j =>
    by_cases hij : i = j
    · exact .inr (by rw [hij])
    · exact hkeep (by rw [Mem.onSock_of_ne hij])
  | @alloc conn isTcp accepted j =>
    by_cases hij : i = j
    · subst hij
      refine .inl (Mem.trygetSocket_isSome.mpr ⟨hi, ?_⟩)
      rw [Mem.onSock_self]
      rfl
    · exact hkeep (by rw [Mem.onSock_of_ne hij])
  | _ => exact hkeep rfl

/-- The assertions hold where what the thread uses is open and counted. -/
theorem Step.not_failed (h : Step t m pc m' pc')
    (huses : ∀ i, pc.Uses i → (m.trygetSocket i).isSome)
    (hnonneg : ∀ i, 0 ≤ (m.sockets i).selectWaiting)
    (hcounted : ∀ i, pc.counted i = true → 0 < (m.sockets i).selectWaiting) (hturn : pc.InTurn) :
    ¬pc'.Failed := by
  cases h with
  | scanned => exact Call.afterScan_not_failed
  | mark => exact Mem.visit_not_failed _
  | walk => exact Mem.visit_not_failed _
  | again => exact Mem.visit_not_failed _
  | unlink =>
    split
    · rintro (h | h) <;> cases h
    · rintro (h | h) <;> cases h
  | @registerNull c i h hs =>
    have hopen := huses i h
    rw [hs] at hopen
    cases hopen
  | @countFails c i h => exact absurd (Int.lt_add_one_of_le (hnonneg i)) h
  | @unregisterNull c i timedOut h hs =>
    have hopen := huses i ⟨le_rfl, h⟩
    rw [hs] at hopen
    cases hopen
  | @uncountFails c i timedOut h =>
    have hpos := hcounted i (decide_eq_true ⟨le_rfl, hturn⟩)
    exact absurd (Int.sub_nonneg_of_le hpos) h
  | _ => rintro (h | h) <;> cases h

/-! ### Runs -/

omit [DecidableEq τ] in
theorem Disciplined.link {c : Call} (h : Disciplined s t) (hpc : s.pc t = .link c) :
    ∀ i, c.Asks i → (s.mem.trygetSocket i).isSome ∧ ∀ u, ¬(s.pc u).Clears i := by
  unfold Disciplined at h
  rw [hpc] at h
  exact h

omit [DecidableEq τ] in
theorem Disciplined.free (h : Disciplined s t) (hpc : s.pc t = .free i) :
    ∀ u, ¬(s.pc u).Uses i := by
  unfold Disciplined at h
  rw [hpc] at h
  exact h

variable [Fintype τ]

/-- How many threads are counted in for the socket. -/
def State.waiters (s : State τ κ δ) (i : ℕ) : ℕ := tally (fun pc => pc.counted i = true) s.pc

/-- No assertion on `sock` or `select_waiting` has failed, and `select_waiting` of an open socket is
the number of the calls of `lwip_select` that are counted in for it. -/
structure State.Balanced (s : State τ κ δ) : Prop where
  asserted : ∀ t, ¬(s.pc t).Failed
  counted : ∀ i, (s.mem.trygetSocket i).isSome → (s.mem.sockets i).selectWaiting = s.waiters i

/-- The invariant: the counters of all slots are right, and what is used is open. -/
structure State.Counts (s : State τ κ δ) : Prop where
  counted : ∀ i, (s.mem.sockets i).selectWaiting = s.waiters i
  asserted : ∀ t, ¬(s.pc t).Failed
  inTurn : ∀ t, (s.pc t).InTurn
  used : ∀ t i, (s.pc t).Uses i → (s.mem.trygetSocket i).isSome
  unused : ∀ t i, (s.pc t).Clears i → ∀ u, ¬(s.pc u).Uses i

theorem State.Counts.exec (hs : s.Counts) (hok : Disciplined s t) (h : Step t s.mem (s.pc t) m pc) :
    State.Counts ⟨m, Function.update s.pc t pc⟩ := by
  have hpc : ∀ u, u ≠ t → Function.update s.pc t pc u = s.pc u :=
    fun u hu => Function.update_of_ne hu _ _
  have hself : Function.update s.pc t pc t = pc := Function.update_self _ _ _
  have hpos : ∀ i, (s.pc t).counted i = true → 0 < (s.mem.sockets i).selectWaiting := by
    intro i hcounted
    rw [hs.counted i]
    exact_mod_cast tally_pos (p := fun pc : Pc τ κ δ => pc.counted i = true) hcounted
  have hgood : ¬pc.Failed := by
    refine h.not_failed (hs.used t) (fun i => ?_) hpos (hs.inTurn t)
    rw [hs.counted i]
    exact Int.natCast_nonneg _
  -- who uses a socket after the step
  have huses : ∀ u i, (Function.update s.pc t pc u).Uses i →
      (s.pc u).Uses i ∨ u = t ∧ ∃ c, s.pc t = .link c ∧ c.Asks i := by
    intro u i hu
    by_cases hut : u = t
    · rw [hut, hself] at hu
      rcases h.uses hu with hold | hlink
      · exact .inl (hut ▸ hold)
      · exact .inr ⟨hut, hlink⟩
    · rw [hpc u hut] at hu
      exact .inl hu
  have hused : ∀ u i, (Function.update s.pc t pc u).Uses i → (s.mem.trygetSocket i).isSome := by
    intro u i hu
    rcases huses u i hu with hold | ⟨-, c, hlink, hasks⟩
    · exact hs.used u i hold
    · exact (hok.link hlink i hasks).1
  refine ⟨fun i => ?_, fun u => ?_, fun u => ?_, fun u i hu => ?_, fun u i hu v hv => ?_⟩
  · have hshare := h.share (hs.inTurn t) hgood (fun j hj => ?_) i
    · have htally := tally_update (p := fun pc : Pc τ κ δ => pc.counted i = true) (f := s.pc)
        (a := t) (b := pc)
      have hcounted := hs.counted i
      unfold State.waiters at hcounted ⊢
      unfold Pc.share at hshare
      rw [htally]
      dsimp only at hshare ⊢
      omega
    · rw [hs.counted j]
      have hnone : s.waiters j = 0 := tally_eq_zero fun u hu =>
        hs.unused t j (by rw [hj]; rfl) u (Pc.uses_of_counted hu)
      rw [hnone]
      rfl
  · by_cases hut : u = t
    · rw [hut]
      show ¬(Function.update s.pc t pc t).Failed
      rw [hself]
      exact hgood
    · show ¬(Function.update s.pc t pc u).Failed
      rw [hpc u hut]
      exact hs.asserted u
  · by_cases hut : u = t
    · rw [hut]
      show (Function.update s.pc t pc t).InTurn
      rw [hself]
      exact h.inTurn
    · show (Function.update s.pc t pc u).InTurn
      rw [hpc u hut]
      exact hs.inTurn u
  · rcases h.open (hused u i hu) with hopen | hfree
    · exact hopen
    · rcases huses u i hu with hold | ⟨-, c, hlink, -⟩
      · exact absurd hold (hok.free hfree u)
      · cases hfree.symm.trans hlink
  · have hclears : (s.pc u).Clears i ∨ s.mem.trygetSocket i = none := by
      by_cases hut : u = t
      · rw [hut]
        refine h.clears ?_
        have hu : (Function.update s.pc t pc u).Clears i := hu
        rwa [hut, hself] at hu
      · refine .inl ?_
        have hu : (Function.update s.pc t pc u).Clears i := hu
        rwa [hpc u hut] at hu
    rcases hclears with hclears | hnone
    · rcases huses v i hv with hold | ⟨-, c, hlink, hasks⟩
      · exact hs.unused u i hclears v hold
      · exact (hok.link hlink i hasks).2 u hclears
    · have hopen := hused v i hv
      rw [hnone] at hopen
      cases hopen

omit [Fintype τ] in
/-- A run goes on with a step of the thread `t`. -/
theorem run_step {ok : State τ κ δ → τ → Prop} {ts : List τ}
    (hrun : (selecting τ κ δ).Run ok ts s) (hpc : s.pc t = pc) (hok : ok s t)
    (h : Step t s.mem pc m pc') :
    (selecting τ κ δ).Run ok (ts ++ [t]) ⟨m, Function.update s.pc t pc'⟩ :=
  hrun.snoc hok ⟨m, pc', hpc ▸ h, rfl⟩

theorem counts_of_run {ts : List τ} (h : (selecting τ κ δ).Run Disciplined ts s) : s.Counts := by
  refine h.invariant (I := fun _ s => s.Counts) (fun s hstart => ?_) fun ts s t s' _ hs hok hstep => ?_
  · obtain ⟨hidle, -, hzero⟩ := hstart
    refine ⟨fun i => ?_, fun t => ?_, fun t => ?_, fun t i ht => ?_, fun t i ht => ?_⟩
    · have hnone : s.waiters i = 0 := tally_eq_zero fun t ht => by
        rw [hidle t] at ht
        cases ht
      rw [hzero i, hnone]
      rfl
    · rw [hidle t]
      rintro (h | h) <;> cases h
    · rw [hidle t]
      trivial
    · rw [hidle t] at ht
      cases ht
    · rw [hidle t] at ht
      cases ht
  · obtain ⟨m, pc, hstep, rfl⟩ := hstep
    exact hs.exec hok hstep

/-- `select_waiting` is balanced in every run in which the descriptors of a call stay open. -/
theorem waiting_balanced {ts : List τ} (h : (selecting τ κ δ).Run Disciplined ts s) :
    s.Balanced := by
  have hcounts := counts_of_run h
  exact ⟨hcounts.asserted, fun i _ => hcounts.counted i⟩

/-! ### Runs with three threads and one socket -/

/-- A call that waits for something to read on the first socket. -/
def waitCall : Call where
  maxfdp1 := 1
  readset := some {0}
  writeset := none
  exceptset := none
  timeout := some ⟨1, 0⟩

/-- The first socket is open. -/
def oneSocket : State (Fin 3) Unit Unit where
  mem :=
    { sockets := fun i => if i = 0 then { conn := some () } else {}
      cbs := fun _ => ⟨none, none, none, false, 0⟩
      next := fun _ => none
      prev := fun _ => none
      selectCbList := none
      selectCbCtr := 0 }
  pc := fun _ => .idle

theorem oneSocket_start : (selecting (Fin 3) Unit Unit).start oneSocket := by
  refine ⟨fun _ => rfl, rfl, fun i => ?_⟩
  show (if i = 0 then _ else _ : Sock Unit Unit).selectWaiting = 0
  split <;> rfl

theorem asks_waitCall : waitCall.Asks i ↔ i = 0 := by
  constructor
  · rintro ⟨hlt, -⟩
    exact Nat.lt_one_iff.mp hlt
  · rintro rfl
    decide

/-- The first thread waits on the first socket. -/
structure Asleep (sock : Sock Unit Unit) (s : State (Fin 3) Unit Unit) : Prop where
  blocked : s.pc 0 = .block waitCall
  idle : ∀ u, u ≠ 0 → s.pc u = .idle
  socket : s.mem.sockets 0 = sock
  cb : s.mem.cbs 0 = ⟨some {0}, none, none, false, 0⟩
  list : s.mem.selectCbList = some 0
  next : s.mem.next 0 = none
  prev : s.mem.prev 0 = none
  ctr : s.mem.selectCbCtr = 1

theorem asleep_run : ∃ ts s, (selecting (Fin 3) Unit Unit).Run Attended ts s ∧
    Asleep { conn := some (), selectWaiting := 1 } s := by
  have hstart : (selecting (Fin 3) Unit Unit).Run Attended [] oneSocket := .start oneSocket_start
  have hscanned := run_step (run_step (run_step hstart (t := 0) rfl (attended_of rfl trivial)
    (.select (c := waitCall))) (t := 0) rfl (attended_of rfl trivial) (.selscan (by decide))) (t := 0) rfl
      (attended_of rfl trivial) (.scanned (by decide))
  have hlinked := run_step (run_step hscanned (t := 0) rfl (attended_of rfl trivial) .newSem) (t := 0) rfl
    ⟨?_, ?_, trivial⟩ .link
  · have hcounted := run_step (run_step (run_step (run_step hlinked (t := 0) rfl (attended_of rfl trivial)
      (.register (by decide) (by decide))) (t := 0) rfl (attended_of rfl trivial) (.count (by decide)))
        (t := 0) rfl (attended_of rfl trivial) (.registered (by decide))) (t := 0) rfl (attended_of rfl trivial)
          (.selscan (by decide))
    refine ⟨_, _, run_step hcounted (t := 0) rfl (attended_of rfl trivial) (.scanned (by decide)),
      ⟨rfl, fun u hu => ?_, rfl, rfl, rfl, rfl, rfl, rfl⟩⟩
    fin_cases u
    · exact absurd rfl hu
    · rfl
    · rfl
  · intro i hi
    obtain rfl := asks_waitCall.mp hi
    refine ⟨rfl, fun u => ?_⟩
    fin_cases u <;> exact id
  · intro e i scb k he
    fin_cases e <;> cases he

theorem waiting_balanced_asleep : ∃ ts s, (selecting (Fin 3) Unit Unit).Run Disciplined ts s ∧
    (s.mem.sockets 0).selectWaiting = 1 ∧ s.Balanced := by
  obtain ⟨ts, s, hrun, hs⟩ := asleep_run
  have hrun : (selecting (Fin 3) Unit Unit).Run Disciplined ts s := hrun.mono fun _ _ h => h.1
  exact ⟨ts, s, hrun, congrArg Sock.selectWaiting hs.socket, waiting_balanced hrun⟩

/-- The assertion on `sock` fails when the descriptor is closed while a call waits on it. -/
theorem waiting_fails :
    ¬∀ (ts : List (Fin 3)) (s : State (Fin 3) Unit Unit),
      (selecting (Fin 3) Unit Unit).Run (fun _ _ => True) ts s → s.Balanced := by
  intro hall
  obtain ⟨ts, s, hrun, hs⟩ := asleep_run
  have hrun : (selecting (Fin 3) Unit Unit).Run (fun _ _ => True) ts s :=
    hrun.mono fun _ _ _ => trivial
  have hopen : (s.mem.trygetSocket 0).isSome := by
    rw [Mem.trygetSocket_isSome, hs.socket]
    exact ⟨by decide, rfl⟩
  have hfreed := run_step (run_step (run_step (run_step hrun (hs.idle 1 (by decide)) trivial (.closeCall (s := 0)))
    (t := 1) rfl trivial (.close hopen)) (t := 1) rfl trivial .delete) (t := 1) rfl trivial .free
  have hwoken := run_step hfreed (t := 0) hs.blocked trivial (.timedOut (by decide))
  have hnull := run_step hwoken (t := 0) rfl trivial (.unregisterNull (by decide) rfl)
  exact (hall _ _ hnull).asserted 0 (.inl rfl)

end QuietLwip.Sockets
