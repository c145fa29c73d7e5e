import QuietLwip.Sockets.Waiting

/-!
# `lwip_select` loses no wake-up

A call that has gone on the list scans its sockets once more before it waits, so that an event comes
either before that scan or finds the call counted in; `event_callback` then goes through the list
until it has met every call that was on it.
-/

namespace QuietLwip.Sockets

open Transition Lock Links

variable {τ κ δ : Type*} [DecidableEq τ] {t u : τ} {m m' : Mem τ κ δ} {pc pc' : Pc τ κ δ}
  {s s' : State τ κ δ} {c : Call} {i j k : ℕ} {l front back : List τ} {scb : τ}

/-! ### What is asked of a socket -/

/-- The sets that the `select_cb` points to are those of the call. -/
structure SelectCb.Of (cb : SelectCb) (c : Call) : Prop where
  readset : cb.readset = c.readset
  writeset : cb.writeset = c.writeset
  exceptset : cb.exceptset = c.exceptset

section

omit [DecidableEq τ]

variable {cb : SelectCb} {sock sock' : Sock κ δ} {found : Found}

/-- `event_callback` signals where `lwip_selscan` finds something, but for data left by a read. -/
theorem SelectCb.Of.doSignal (hcb : cb.Of c) (hready : c.Ready i sock)
    (hdata : fdIsset i c.readset = true → sock.lastdata = none) : cb.doSignal i sock = true := by
  unfold SelectCb.doSignal
  rw [hcb.readset, hcb.writeset, hcb.exceptset, Bool.or_eq_true, Bool.or_eq_true]
  rcases hready with ⟨hset, hread⟩ | ⟨hset, hwrite⟩ | ⟨hset, herror⟩
  · unfold Sock.readable at hread
    rw [hdata hset] at hread
    exact .inl (.inl (Bool.and_eq_true_iff.mpr ⟨hread, hset⟩))
  · exact .inl (.inr (Bool.and_eq_true_iff.mpr ⟨decide_eq_true hwrite, hset⟩))
  · exact .inr (Bool.and_eq_true_iff.mpr ⟨decide_eq_true herror, hset⟩)

theorem SelectCb.Of.ready (hcb : cb.Of c) (hsignal : cb.doSignal i sock = true) :
    c.Ready i sock := by
  unfold SelectCb.doSignal at hsignal
  rw [hcb.readset, hcb.writeset, hcb.exceptset, Bool.or_eq_true, Bool.or_eq_true] at hsignal
  rcases hsignal with (hread | hwrite) | herror
  · obtain ⟨hevent, hset⟩ := Bool.and_eq_true_iff.mp hread
    exact .inl ⟨hset, Bool.or_eq_true_iff.mpr (.inr hevent)⟩
  · obtain ⟨hevent, hset⟩ := Bool.and_eq_true_iff.mp hwrite
    exact .inr (.inl ⟨hset, of_decide_eq_true hevent⟩)
  · obtain ⟨hevent, hset⟩ := Bool.and_eq_true_iff.mp herror
    exact .inr (.inr ⟨hset, of_decide_eq_true hevent⟩)

/-- A scan that finds nothing up to a descriptor has found nothing there. -/
theorem Call.selscan_nready (h : (c.selscan i (some sock) found).nready = 0) :
    found.nready = 0 ∧ ¬c.Ready i sock := by
  unfold Call.selscan at h
  dsimp only at h
  split at h
  · cases h
  next hexcept =>
  split at h
  · cases h
  next hwrite =>
  split at h
  · cases h
  next hread =>
  refine ⟨h, ?_⟩
  rintro (⟨hset, hready⟩ | ⟨hset, hready⟩ | ⟨hset, hready⟩)
  · exact hread (Bool.and_eq_true_iff.mpr ⟨hset, hready⟩)
  · exact hwrite (Bool.and_eq_true_iff.mpr ⟨hset, decide_eq_true hready⟩)
  · exact hexcept (Bool.and_eq_true_iff.mpr ⟨hset, decide_eq_true hready⟩)

/-- Nothing is to be signalled now that was not to be signalled before. -/
structure Sock.Calmer (sock' sock : Sock κ δ) : Prop where
  lastdata : sock'.lastdata = sock.lastdata ∨ sock'.lastdata = none
  rcvevent : sock'.rcvevent = sock.rcvevent
  sendevent : sock'.sendevent = sock.sendevent
  errevent : sock'.errevent = sock.errevent

theorem Sock.Calmer.refl : sock.Calmer sock := ⟨.inl rfl, rfl, rfl, rfl⟩

theorem Sock.Calmer.doSignal (h : sock'.Calmer sock) : cb.doSignal i sock' = cb.doSignal i sock := by
  unfold SelectCb.doSignal
  rw [h.rcvevent, h.sendevent, h.errevent]

end

/-! ### The list of the calls -/

section

/-- Taking a call off the list. -/
theorem Mem.unlink_spec (hl : DoublyAt m.next m.prev m.selectCbList l) (ht : t ∈ l) :
    ∃ m', m.unlink t = some m' ∧ DoublyAt m'.next m'.prev m'.selectCbList (l.erase t) ∧
      m'.selectCbCtr = m.selectCbCtr + 1 ∧ m'.cbs = m.cbs ∧ m'.sockets = m.sockets ∧
        ∀ u ∉ l, m'.prev u = m.prev u := by
  obtain ⟨front, back, rfl⟩ := List.append_of_mem ht
  have hnext := hl.forth.from
  -- who is not on the list is not the one behind `t` on it
  have hprev : ∀ u ∉ front ++ t :: back, pointBack m.prev (m.next t) (m.prev t) u = m.prev u := by
    intro u hu
    refine pointBack_of_ne (fun hut => hu ?_) _
    rw [hut] at hnext
    refine List.mem_append_right _ (List.mem_cons_of_mem _ ?_)
    exact List.mem_of_mem_head? (hnext.head.symm ▸ rfl)
  rw [erase_of_nodup hl.forth.nodup]
  rcases List.eq_nil_or_concat' front with rfl | ⟨front, p, rfl⟩
  · have hhead : m.selectCbList = some t := hl.forth.1
    have hnone : m.prev t = none := hl.back.1
    have hunlink : m.unlink t = some { m with
        prev := pointBack m.prev (m.next t) (m.prev t)
        selectCbList := m.next t
        selectCbCtr := m.selectCbCtr + 1 } := by
      unfold Mem.unlink
      dsimp only
      rw [if_pos hhead, if_pos hnone]
    exact ⟨_, hunlink, hl.unlink_head, rfl, rfl, rfl, hprev⟩
  · rw [List.append_assoc, List.singleton_append] at hl
    have hp : m.prev t = some p := hl.prev_eq
    have hhead : m.selectCbList ≠ some t := by
      intro hhead
      have hnodup := hl.forth.nodup
      have hmem : t ∈ front ++ [p] := by
        rw [← hl.forth.head] at hhead
        cases front with
        | nil =>
          cases hhead
          exact List.mem_singleton.mpr rfl
        | cons a front =>
          cases hhead
          exact List.mem_cons_self
      rw [show front ++ p :: t :: back = (front ++ [p]) ++ t :: back by simp] at hnodup
      exact not_mem_of_nodup hnodup (List.mem_append_left _ hmem)
    have hunlink : m.unlink t = some { m with
        prev := pointBack m.prev (m.next t) (m.prev t)
        next := Function.update m.next p (m.next t)
        selectCbCtr := m.selectCbCtr + 1 } := by
      unfold Mem.unlink
      dsimp only
      rw [if_neg hhead, hp]
    refine ⟨_, hunlink, ?_, rfl, rfl, rfl, hprev⟩
    rw [List.append_assoc]
    exact hl.unlink

end

/-- `u` comes behind `scb` on the list. -/
def After (l : List τ) (scb u : τ) : Prop := ∃ front back, l = front ++ scb :: back ∧ u ∈ back

omit [DecidableEq τ] in
/-- The call has its `select_cb` set up and has not waited yet. -/
def Pc.Runs (c : Call) : Pc τ κ δ → Prop
  | link c' | register c' _ | count c' _ | block c' => c' = c
  | scan c' .second _ _ => c' = c
  | _ => False

/-- The call has been counted in for the descriptor and has found it not ready in its second
scan. -/
def Pc.Scanned (c : Call) (i : ℕ) : Pc τ κ δ → Prop
  | scan c' .second j found => c' = c ∧ c.Asks i ∧ i < j ∧ found.nready = 0
  | block c' => c' = c ∧ c.Asks i
  | _ => False

section

omit [DecidableEq τ]

theorem Pc.Scanned.runs (h : pc.Scanned c i) : pc.Runs c := by
  cases pc with
  | scan c' round j found =>
    cases round with
    | second => exact h.1
    | _ => cases h
  | block c' => exact h.1
  | _ => cases h

theorem Pc.Scanned.listed (h : pc.Scanned c i) : pc.Listed := by
  cases pc with
  | scan c' round j found =>
    cases round with
    | second => trivial
    | _ => cases h
  | block c' => trivial
  | _ => cases h

theorem Pc.Scanned.counted (h : pc.Scanned c i) : pc.counted i = true := by
  cases pc with
  | scan c' round j found =>
    cases round with
    | second =>
      obtain ⟨rfl, hasks, -⟩ := h
      exact decide_eq_true hasks
    | _ => cases h
  | block c' =>
    obtain ⟨rfl, hasks⟩ := h
    exact decide_eq_true hasks
  | _ => cases h

end

/-- The invariant, less the part on who is to be woken: the calls on the list are the registered
ones, a walk that need not start again is on the list, and a signal is given with its mark. -/
structure State.Kept (l : List τ) (s : State τ κ δ) : Prop where
  doubly : DoublyAt s.mem.next s.mem.prev s.mem.selectCbList l
  listed : ∀ u, u ∈ l ↔ (s.pc u).Listed
  fresh : ∀ u c, s.pc u = .link c → s.mem.prev u = none
  sets : ∀ u c, (s.pc u).Runs c → (s.mem.cbs u).Of c
  sem : ∀ u c, (s.pc u).Runs c → (s.mem.cbs u).semSignalled = true → 0 < (s.mem.cbs u).sem
  walks : ∀ e i scb k, s.pc e = .walk i scb k → k ≤ s.mem.selectCbCtr ∧
    s.mem.selectCbCtr < k + 2 ^ 32 ∧ (k = s.mem.selectCbCtr → scb ∈ l)
  data : ∀ u c i, (s.pc u).Scanned c i → fdIsset i c.readset = true →
    (s.mem.sockets i).lastdata = none

/-- A run of `event_callback` by one of the threads `E` is still going to meet `u`. -/
def State.Coming (l : List τ) (s : State τ κ δ) (E : τ → Prop) (i : ℕ) (u : τ) : Prop :=
  ∃ e scb k, E e ∧ s.pc e = .walk i scb k ∧ (k ≠ s.mem.selectCbCtr ∨ After l scb u)

/-- Every call with a socket that has become ready is signalled, or is going to be met. -/
def State.Awake (l : List τ) (s : State τ κ δ) : Prop :=
  ∀ u c i, (s.pc u).Scanned c i → (s.mem.cbs u).semSignalled = false →
    (s.mem.cbs u).doSignal i (s.mem.sockets i) = true → s.Coming l (fun _ => True) i u

structure State.Watched (l : List τ) (s : State τ κ δ) : Prop where
  kept : s.Kept l
  awake : s.Awake l

/-! ### What the steps do to it -/

omit [DecidableEq τ] in
theorem Pc.Runs.listed (h : pc.Runs c) : pc.Listed ∨ pc = .link c := by
  cases pc with
  | link c' => exact .inr (congrArg _ h)
  | scan c' round j found =>
    cases round with
    | second => exact .inl trivial
    | _ => cases h
  | register c' j => exact .inl trivial
  | count c' j => exact .inl trivial
  | block c' => exact .inl trivial
  | _ => cases h

/-- A step that leaves the list alone, and makes no socket ready that a call has scanned. -/
theorem State.Watched.quiet (hs : s.Watched l)
    (hm : m = { s.mem with sockets := m.sockets, cbs := m.cbs })
    (hcbs : ∀ u, u ≠ t ∨ (∃ c, pc.Runs c) → m.cbs u = s.mem.cbs u)
    (hwalk : ∀ i scb k, s.pc t ≠ .walk i scb k) (hwalk' : ∀ i scb k, pc ≠ .walk i scb k)
    (hlink : ∀ c, pc ≠ .link c) (hlisted : pc.Listed ↔ (s.pc t).Listed)
    (hruns : ∀ c, pc.Runs c → (s.pc t).Runs c)
    (hscanned : ∀ c i, pc.Scanned c i → (s.pc t).Scanned c i ∨ ¬c.Ready i (m.sockets i))
    (hsock : ∀ u c i, (s.pc u).Scanned c i → (m.sockets i).Calmer (s.mem.sockets i)) :
    State.Watched l ⟨m, Function.update s.pc t pc⟩ := by
  have hself : Function.update s.pc t pc t = pc := Function.update_self _ _ _
  have hpc : ∀ u, u ≠ t → Function.update s.pc t pc u = s.pc u :=
    fun u hu => Function.update_of_ne hu _ _
  have hctr : m.selectCbCtr = s.mem.selectCbCtr := by rw [hm]
  have hruns' : ∀ u c, (Function.update s.pc t pc u).Runs c → (s.pc u).Runs c := by
    intro u c hu
    by_cases hut : u = t
    · rw [hut, hself] at hu
      exact hut ▸ hruns c hu
    · rwa [hpc u hut] at hu
  have hcbs : ∀ u c, (Function.update s.pc t pc u).Runs c → m.cbs u = s.mem.cbs u := by
    intro u c hu
    by_cases hut : u = t
    · rw [hut, hself] at hu
      exact hcbs u (.inr ⟨c, hu⟩)
    · exact hcbs u (.inl hut)
  have hscanned' : ∀ u c i, (Function.update s.pc t pc u).Scanned c i →
      (s.pc u).Scanned c i ∨ ¬c.Ready i (m.sockets i) := by
    intro u c i hu
    by_cases hut : u = t
    · rw [hut, hself] at hu
      exact hut ▸ hscanned c i hu
    · rw [hpc u hut] at hu
      exact .inl hu
  refine ⟨⟨?_, fun u => ?_, fun u c hu => ?_, fun u c hu => ?_, fun u c hu => ?_,
    fun e i scb k he => ?_, fun u c i hu hset => ?_⟩, fun u c i hu hsem hsignal => ?_⟩
  · rw [hm]
    exact hs.kept.doubly
  · show u ∈ l ↔ (Function.update s.pc t pc u).Listed
    by_cases hut : u = t
    · rw [hut, hself, hlisted]
      exact hs.kept.listed t
    · rw [hpc u hut]
      exact hs.kept.listed u
  · have hu : Function.update s.pc t pc u = .link c := hu
    by_cases hut : u = t
    · rw [hut, hself] at hu
      exact absurd hu (hlink c)
    · rw [hpc u hut] at hu
      rw [hm]
      exact hs.kept.fresh u c hu
  · show (m.cbs u).Of c
    rw [hcbs u c hu]
    exact hs.kept.sets u c (hruns' u c hu)
  · show (m.cbs u).semSignalled = true → 0 < (m.cbs u).sem
    rw [hcbs u c hu]
    exact hs.kept.sem u c (hruns' u c hu)
  · have he : Function.update s.pc t pc e = .walk i scb k := he
    show k ≤ m.selectCbCtr ∧ m.selectCbCtr < k + 2 ^ 32 ∧ (k = m.selectCbCtr → scb ∈ l)
    by_cases het : e = t
    · rw [het, hself] at he
      exact absurd he (hwalk' i scb k)
    · rw [hpc e het] at he
      rw [hctr]
      exact hs.kept.walks e i scb k he
  · show (m.sockets i).lastdata = none
    rcases hscanned' u c i hu with hold | hnot
    · rcases (hsock u c i hold).lastdata with hsame | hnone
      · exact hsame.trans (hs.kept.data u c i hold hset)
      · exact hnone
    · by_contra hdata
      refine hnot (.inl ⟨hset, ?_⟩)
      exact Bool.or_eq_true_iff.mpr (.inl (Option.isSome_iff_ne_none.mpr hdata))
  · have hsem : (m.cbs u).semSignalled = false := hsem
    have hsignal : (m.cbs u).doSignal i (m.sockets i) = true := hsignal
    have hruns := hruns' u c hu.runs
    rw [hcbs u c hu.runs] at hsem hsignal
    rcases hscanned' u c i hu with hold | hnot
    · rw [(hsock u c i hold).doSignal] at hsignal
      obtain ⟨e, scb, k, -, he, hmeets⟩ := hs.awake u c i hold hsem hsignal
      have het : e ≠ t := by
        rintro rfl
        exact hwalk i scb k he
      refine ⟨e, scb, k, trivial, (hpc e het).trans he, ?_⟩
      rw [← hctr] at hmeets
      exact hmeets
    · exact absurd ((hs.kept.sets u c hruns).ready hsignal) hnot

/-- A signal is given once, with its mark. -/
theorem Mem.signal_cbs : (m.signal scb i).cbs u = m.cbs u ∨
    u = scb ∧ ((m.signal scb i).cbs u).semSignalled = true ∧ 0 < ((m.signal scb i).cbs u).sem ∧
      ((m.signal scb i).cbs u).readset = (m.cbs u).readset ∧
        ((m.signal scb i).cbs u).writeset = (m.cbs u).writeset ∧
          ((m.signal scb i).cbs u).exceptset = (m.cbs u).exceptset := by
  by_cases hu : u = scb
  · subst hu
    rw [Mem.signal]
    split
    · dsimp only
      rw [Function.update_self, Mailbox.sysSemSignal_eq]
      exact .inr ⟨rfl, rfl, Nat.one_pos, rfl, rfl, rfl⟩
    · exact .inl rfl
  · left
    rw [Mem.signal]
    split
    · exact Function.update_of_ne hu _ _
    · rfl

theorem Mem.signal_of_not (h : (m.cbs scb).doSignal i (m.sockets i) = false) :
    m.signal scb i = m := by
  rw [Mem.signal]
  rw [h]
  exact if_neg fun hand => Bool.false_ne_true hand.2

theorem Mem.signal_of_doSignal (h : (m.cbs scb).doSignal i (m.sockets i) = true) :
    ((m.signal scb i).cbs scb).semSignalled = true := by
  rw [Mem.signal]
  split
  · dsimp only
    rw [Function.update_self]
  · next hnot =>
    by_contra hfalse
    exact hnot ⟨Bool.not_eq_true _ ▸ hfalse, h⟩

/-- Going through the list changes only what a signal does. -/
theorem Mem.visit_eq (p : Option τ) :
    (m.visit i p).1 = { m with cbs := (m.visit i p).1.cbs } := by
  cases p with
  | none => rfl
  | some v =>
    show m.signal v i = { m with cbs := (m.signal v i).cbs }
    rw [Mem.signal]
    split <;> rfl

theorem Mem.visit_cbs (p : Option τ) : (m.visit i p).1.cbs u = m.cbs u ∨
    ((m.visit i p).1.cbs u).semSignalled = true ∧ 0 < ((m.visit i p).1.cbs u).sem ∧
      ((m.visit i p).1.cbs u).readset = (m.cbs u).readset ∧
        ((m.visit i p).1.cbs u).writeset = (m.cbs u).writeset ∧
          ((m.visit i p).1.cbs u).exceptset = (m.cbs u).exceptset := by
  cases p with
  | none => exact .inl rfl
  | some v =>
    rcases (Mem.signal_cbs : (m.signal v i).cbs u = m.cbs u ∨ _) with hsame | ⟨-, hsignalled⟩
    · exact .inl hsame
    · exact .inr hsignalled

theorem Mem.visit_not_prev (p : Option τ) : (m.visit i p).2 ≠ .aborted .prev := by
  cases p <;> exact nofun

/-- A call that is still to be met and is ready is signalled now, or is met later. -/
theorem Mem.visit_meets {p : Option τ} (hback : ListAt m.next p back) (hl : l = front ++ back)
    (hu : u ∈ back) (hsignal : (m.cbs u).doSignal i (m.sockets i) = true) :
    ((m.visit i p).1.cbs u).semSignalled = true ∨
      ∃ scb, (m.visit i p).2 = .walk i scb m.selectCbCtr ∧ After l scb u := by
  cases back with
  | nil => cases hu
  | cons v back =>
    obtain rfl : p = some v := hback.1
    rcases List.mem_cons.mp hu with rfl | hu
    · exact .inl (Mem.signal_of_doSignal hsignal)
    · exact .inr ⟨v, rfl, front, back, hl, hu⟩

/-- A thread in `event_callback` goes on through the list from `p`, where it has all calls still
before it that no other thread is going to meet. -/
theorem State.Kept.visit {p : Option τ} (hs : s.Kept l) (hback : ListAt s.mem.next p back)
    (hl : ∃ front, l = front ++ back) (hpc : ¬(s.pc t).Listed)
    (hcover : ∀ u c j, (s.pc u).Scanned c j → (s.mem.cbs u).semSignalled = false →
      (s.mem.cbs u).doSignal j (s.mem.sockets j) = true →
        s.Coming l (· ≠ t) j u ∨ j = i ∧ u ∈ back) :
    State.Watched l ⟨(s.mem.visit i p).1, Function.update s.pc t (s.mem.visit i p).2⟩ := by
  obtain ⟨front, hl⟩ := hl
  have hself : Function.update s.pc t (s.mem.visit i p).2 t = (s.mem.visit i p).2 :=
    Function.update_self _ _ _
  have hother : ∀ u, u ≠ t → Function.update s.pc t (s.mem.visit i p).2 u = s.pc u :=
    fun u hu => Function.update_of_ne hu _ _
  have hidle : ∀ P : Pc τ κ δ → Prop, (¬P .idle ∧ ∀ scb, ¬P (.walk i scb s.mem.selectCbCtr)) →
      ∀ u, P (Function.update s.pc t (s.mem.visit i p).2 u) → u ≠ t ∧ P (s.pc u) := by
    rintro P ⟨hnot, hnot'⟩ u hu
    by_cases hut : u = t
    · rw [hut, hself] at hu
      rcases Mem.visit_pc (m := s.mem) (j := i) p with hvisit | ⟨scb, -, hvisit⟩
      · rw [hvisit] at hu
        exact absurd hu hnot
      · rw [hvisit] at hu
        exact absurd hu (hnot' scb)
    · rw [hother u hut] at hu
      exact ⟨hut, hu⟩
  have hruns : ∀ u c, (Function.update s.pc t (s.mem.visit i p).2 u).Runs c → (s.pc u).Runs c :=
    fun u c hu => (hidle (·.Runs c) ⟨id, fun _ => id⟩ u hu).2
  have hscanned : ∀ u c j, (Function.update s.pc t (s.mem.visit i p).2 u).Scanned c j →
      (s.pc u).Scanned c j := fun u c j hu => (hidle (·.Scanned c j) ⟨id, fun _ => id⟩ u hu).2
  have hmem := Mem.visit_eq (m := s.mem) (i := i) p
  have hctr : (s.mem.visit i p).1.selectCbCtr = s.mem.selectCbCtr := by rw [hmem]
  refine ⟨⟨?_, fun u => ?_, fun u c hu => ?_, fun u c hu => ?_, fun u c hu => ?_,
    fun e j scb k he => ?_, fun u c j hu hset => ?_⟩, fun u c j hu hsem hsignal => ?_⟩
  · rw [hmem]
    exact hs.doubly
  · show u ∈ l ↔ (Function.update s.pc t (s.mem.visit i p).2 u).Listed
    by_cases hut : u = t
    · rw [hs.listed u, hut, hself]
      refine ⟨fun h => absurd h hpc, fun h => ?_⟩
      rcases Mem.visit_pc (m := s.mem) (j := i) p with hvisit | ⟨scb, -, hvisit⟩
      · rw [hvisit] at h
        cases h
      · rw [hvisit] at h
        cases h
    · rw [hother u hut]
      exact hs.listed u
  · rw [hmem]
    exact hs.fresh u c (hidle (· = .link c) ⟨nofun, fun _ => nofun⟩ u hu).2
  · have hof := hs.sets u c (hruns u c hu)
    rcases Mem.visit_cbs (m := s.mem) (i := i) (u := u) p with hsame | ⟨-, -, hread, hwrite, hexcept⟩
    · show ((s.mem.visit i p).1.cbs u).Of c
      rw [hsame]
      exact hof
    · exact ⟨hread.trans hof.readset, hwrite.trans hof.writeset, hexcept.trans hof.exceptset⟩
  · rcases Mem.visit_cbs (m := s.mem) (i := i) (u := u) p with hsame | ⟨-, hsem, -⟩
    · show ((s.mem.visit i p).1.cbs u).semSignalled = true → 0 < ((s.mem.visit i p).1.cbs u).sem
      rw [hsame]
      exact hs.sem u c (hruns u c hu)
    · exact fun _ => hsem
  · have he : Function.update s.pc t (s.mem.visit i p).2 e = .walk j scb k := he
    show k ≤ (s.mem.visit i p).1.selectCbCtr ∧ (s.mem.visit i p).1.selectCbCtr < k + 2 ^ 32 ∧
      (k = (s.mem.visit i p).1.selectCbCtr → scb ∈ l)
    rw [hctr]
    by_cases het : e = t
    · rw [het, hself] at he
      rcases Mem.visit_pc (m := s.mem) (j := i) p with hvisit | ⟨v, hv, hvisit⟩
      · cases hvisit.symm.trans he
      · cases hvisit.symm.trans he
        refine ⟨le_rfl, by omega, fun _ => ?_⟩
        rw [hl]
        exact List.mem_append_right _ (List.mem_of_mem_head? (hback.head.trans hv))
    · rw [hother e het] at he
      exact hs.walks e j scb k he
  · show ((s.mem.visit i p).1.sockets j).lastdata = none
    rw [Mem.visit_sockets]
    exact hs.data u c j (hscanned u c j hu) hset
  · have hsem : ((s.mem.visit i p).1.cbs u).semSignalled = false := hsem
    have hready : ((s.mem.visit i p).1.cbs u).doSignal j ((s.mem.visit i p).1.sockets j) = true :=
      hsignal
    have hsame : (s.mem.visit i p).1.cbs u = s.mem.cbs u := by
      rcases Mem.visit_cbs (m := s.mem) (i := i) (u := u) p with hsame | ⟨htrue, -⟩
      · exact hsame
      · rw [htrue] at hsem
        cases hsem
    rw [hsame, Mem.visit_sockets] at hready
    rcases hcover u c j (hscanned u c j hu) (hsame ▸ hsem) hready with
      ⟨e, scb, k, het, he, hmeets⟩ | ⟨rfl, hu'⟩
    · rw [← hctr] at hmeets
      exact ⟨e, scb, k, trivial, (hother e het).trans he, hmeets⟩
    · rcases Mem.visit_meets hback hl hu' hready with htrue | ⟨scb, hvisit, hafter⟩
      · rw [htrue] at hsem
        cases hsem
      · exact ⟨t, scb, _, trivial, hself.trans hvisit, .inr hafter⟩

/-- A change of the list makes every walk start again. -/
theorem State.Watched.relist {l' : List τ} (hs : s.Watched l) (hroom : s.Room)
    (hctr : m.selectCbCtr = s.mem.selectCbCtr + 1) (hcbs : m.cbs = s.mem.cbs)
    (hsockets : m.sockets = s.mem.sockets) (hdoubly : DoublyAt m.next m.prev m.selectCbList l')
    (hprev : ∀ u ∉ l, m.prev u = s.mem.prev u)
    (hlisted : ∀ u, u ∈ l' ↔ (Function.update s.pc t pc u).Listed)
    (hwalk : ∀ i scb k, s.pc t ≠ .walk i scb k) (hwalk' : ∀ i scb k, pc ≠ .walk i scb k)
    (hlink : ∀ c, pc ≠ .link c) (hruns : ∀ c, pc.Runs c → (s.pc t).Runs c)
    (hscanned : ∀ c i, ¬pc.Scanned c i) :
    State.Watched l' ⟨m, Function.update s.pc t pc⟩ := by
  have hself : Function.update s.pc t pc t = pc := Function.update_self _ _ _
  have hpc : ∀ u, u ≠ t → Function.update s.pc t pc u = s.pc u :=
    fun u hu => Function.update_of_ne hu _ _
  have hruns' : ∀ u c, (Function.update s.pc t pc u).Runs c → (s.pc u).Runs c := by
    intro u c hu
    by_cases hut : u = t
    · rw [hut, hself] at hu
      exact hut ▸ hruns c hu
    · rwa [hpc u hut] at hu
  have hscanned' : ∀ u c i, (Function.update s.pc t pc u).Scanned c i → (s.pc u).Scanned c i := by
    intro u c i hu
    by_cases hut : u = t
    · rw [hut, hself] at hu
      exact absurd hu (hscanned c i)
    · rwa [hpc u hut] at hu
  refine ⟨⟨hdoubly, hlisted, fun u c hu => ?_, fun u c hu => ?_, fun u c hu => ?_,
    fun e i scb k he => ?_, fun u c i hu hset => ?_⟩, fun u c i hu hsem hsignal => ?_⟩
  · have hu : Function.update s.pc t pc u = .link c := hu
    by_cases hut : u = t
    · rw [hut, hself] at hu
      exact absurd hu (hlink c)
    · rw [hpc u hut] at hu
      refine (hprev u fun hmem => ?_).trans (hs.kept.fresh u c hu)
      have hlisted := (hs.kept.listed u).mp hmem
      rw [hu] at hlisted
      exact hlisted
  · show (m.cbs u).Of c
    rw [hcbs]
    exact hs.kept.sets u c (hruns' u c hu)
  · show (m.cbs u).semSignalled = true → 0 < (m.cbs u).sem
    rw [hcbs]
    exact hs.kept.sem u c (hruns' u c hu)
  · have he : Function.update s.pc t pc e = .walk i scb k := he
    show k ≤ m.selectCbCtr ∧ m.selectCbCtr < k + 2 ^ 32 ∧ (k = m.selectCbCtr → scb ∈ l')
    by_cases het : e = t
    · rw [het, hself] at he
      exact absurd he (hwalk' i scb k)
    · rw [hpc e het] at he
      have hle := (hs.kept.walks e i scb k he).1
      have hlt := hroom e i scb k he
      rw [hctr]
      exact ⟨Nat.le_succ_of_le hle, hlt, fun h => by omega⟩
  · show (m.sockets i).lastdata = none
    rw [hsockets]
    exact hs.kept.data u c i (hscanned' u c i hu) hset
  · have hsem : (m.cbs u).semSignalled = false := hsem
    have hready : (m.cbs u).doSignal i (m.sockets i) = true := hsignal
    rw [hcbs] at hsem hready
    rw [hsockets] at hready
    obtain ⟨e, scb, k, -, he, -⟩ := hs.awake u c i (hscanned' u c i hu) hsem hready
    have het : e ≠ t := by
      rintro rfl
      exact hwalk i scb k he
    refine ⟨e, scb, k, trivial, (hpc e het).trans he, .inl ?_⟩
    show k ≠ m.selectCbCtr
    have hle := (hs.kept.walks e i scb k he).1
    omega

theorem State.Watched.link (hs : s.Watched l) (hroom : s.Room) (hpc : s.pc t = .link c) :
    State.Watched (t :: l) ⟨s.mem.link t, Function.update s.pc t (.register c 0)⟩ := by
  have ht : t ∉ l := by
    intro ht
    have hlisted := (hs.kept.listed t).mp ht
    rw [hpc] at hlisted
    exact hlisted
  refine hs.relist hroom rfl rfl rfl (hs.kept.doubly.push ht (hs.kept.fresh t c hpc)) ?_ ?_ ?_ nofun
    nofun ?_ fun _ _ => id
  · intro u hu
    refine pointBack_of_ne (fun hhead => hu ?_) _
    rw [← hs.kept.doubly.forth.head] at hhead
    exact List.mem_of_mem_head? hhead
  · intro u
    by_cases hut : u = t
    · rw [hut, Function.update_self]
      exact ⟨fun _ => trivial, fun _ => List.mem_cons_self⟩
    · rw [Function.update_of_ne hut, ← hs.kept.listed u, List.mem_cons, or_iff_right hut]
  · rw [hpc]
    exact nofun
  · rw [hpc]
    exact fun _ => id

theorem State.Watched.unlink {timedOut : Bool} (hs : s.Watched l) (hroom : s.Room)
    (hpc : s.pc t = .unlink c timedOut) (hm : s.mem.unlink t = some m) :
    State.Watched (l.erase t) ⟨m, Function.update s.pc t
      (if timedOut = true then .returned {} else .scan c .last 0 {})⟩ := by
  have ht : t ∈ l := by
    rw [hs.kept.listed t, hpc]
    trivial
  obtain ⟨m', hm', hdoubly, hctr, hcbs, hsockets, hprev⟩ := Mem.unlink_spec hs.kept.doubly ht
  obtain rfl : m' = m := Option.some.inj (hm'.symm.trans hm)
  refine hs.relist hroom hctr hcbs hsockets hdoubly hprev ?_ ?_ ?_ ?_ ?_ ?_
  · intro u
    rw [hs.kept.doubly.forth.nodup.mem_erase_iff]
    by_cases hut : u = t
    · rw [hut, Function.update_self]
      refine ⟨fun h => absurd rfl h.1, fun h => ?_⟩
      split at h <;> cases h
    · rw [Function.update_of_ne hut, ← hs.kept.listed u, and_iff_right hut]
  · rw [hpc]
    exact nofun
  · split <;> exact nofun
  · split <;> exact nofun
  · split <;> exact nofun
  · split <;> exact fun _ _ => id

/-- A call sets up its `select_cb` before it goes on the list. -/
theorem State.Watched.newSem (hs : s.Watched l) (hpc : s.pc t = .newSem c) :
    State.Watched l ⟨s.mem.initCb t c, Function.update s.pc t (.link c)⟩ := by
  have hself : Function.update s.pc t (.link c) t = .link c := Function.update_self _ _ _
  have hother : ∀ u, u ≠ t → Function.update s.pc t (.link c) u = s.pc u :=
    fun u hu => Function.update_of_ne hu _ _
  have ht : t ∉ l := by
    intro ht
    have hlisted := (hs.kept.listed t).mp ht
    rw [hpc] at hlisted
    exact hlisted
  have hne : ∀ u ∈ l, u ≠ t := by
    rintro u hu rfl
    exact ht hu
  have hcb : (s.mem.initCb t c).cbs t = ⟨c.readset, c.writeset, c.exceptset, false, 0⟩ :=
    Function.update_self _ _ _
  have hcbs : ∀ u, u ≠ t → (s.mem.initCb t c).cbs u = s.mem.cbs u :=
    fun u hu => Function.update_of_ne hu _ _
  have hscanned : ∀ u c' i, (Function.update s.pc t (.link c) u).Scanned c' i →
      u ≠ t ∧ (s.pc u).Scanned c' i := by
    intro u c' i hu
    by_cases hut : u = t
    · rw [hut, hself] at hu
      cases hu
    · rw [hother u hut] at hu
      exact ⟨hut, hu⟩
  refine ⟨⟨⟨?_, ?_⟩, fun u => ?_, fun u c' hu => ?_, fun u c' hu => ?_, fun u c' hu => ?_,
    fun e i scb k he => ?_, fun u c' i hu hset => ?_⟩, fun u c' i hu hsem hsignal => ?_⟩
  · exact hs.kept.doubly.forth.update ht none
  · exact hs.kept.doubly.back.congr fun u hu => Function.update_of_ne (hne u hu) _ _
  · show u ∈ l ↔ (Function.update s.pc t (.link c) u).Listed
    by_cases hut : u = t
    · rw [hut, hself]
      exact ⟨fun h => absurd h ht, fun h => h.elim⟩
    · rw [hother u hut]
      exact hs.kept.listed u
  · by_cases hut : u = t
    · rw [hut]
      exact Function.update_self _ _ _
    · have hu : Function.update s.pc t (.link c) u = .link c' := hu
      rw [hother u hut] at hu
      exact (Function.update_of_ne hut _ _).trans (hs.kept.fresh u c' hu)
  · show ((s.mem.initCb t c).cbs u).Of c'
    have hu : (Function.update s.pc t (.link c) u).Runs c' := hu
    by_cases hut : u = t
    · rw [hut, hself] at hu
      obtain rfl : c = c' := hu
      rw [hut, hcb]
      exact ⟨rfl, rfl, rfl⟩
    · rw [hother u hut] at hu
      rw [hcbs u hut]
      exact hs.kept.sets u c' hu
  · show ((s.mem.initCb t c).cbs u).semSignalled = true → 0 < ((s.mem.initCb t c).cbs u).sem
    have hu : (Function.update s.pc t (.link c) u).Runs c' := hu
    by_cases hut : u = t
    · rw [hut, hcb]
      exact nofun
    · rw [hother u hut] at hu
      rw [hcbs u hut]
      exact hs.kept.sem u c' hu
  · have he : Function.update s.pc t (.link c) e = .walk i scb k := he
    by_cases het : e = t
    · rw [het, hself] at he
      cases he
    · rw [hother e het] at he
      exact hs.kept.walks e i scb k he
  · exact hs.kept.data u c' i (hscanned u c' i hu).2 hset
  · obtain ⟨hut, hold⟩ := hscanned u c' i hu
    have hsem : ((s.mem.initCb t c).cbs u).semSignalled = false := hsem
    have hready : ((s.mem.initCb t c).cbs u).doSignal i (s.mem.sockets i) = true := hsignal
    rw [hcbs u hut] at hsem hready
    obtain ⟨e, scb, k, -, he, hmeets⟩ := hs.awake u c' i hold hsem hready
    have het : e ≠ t := by
      rintro rfl
      rw [hpc] at he
      cases he
    exact ⟨e, scb, k, trivial, (hother e het).trans he, hmeets⟩

/-! ### Runs -/

/-- What a thread of `event_callback` reads of the `select_cb`s in its next step. -/
def State.touched (s : State τ κ δ) (e : τ) : List τ :=
  match s.pc e with
  | .mark i _ => if (s.mem.sockets i).selectWaiting = 0 then [] else s.mem.selectCbList.toList
  | .walk _ scb k =>
    if k % 2 ^ 32 = s.mem.selectCbCtr % 2 ^ 32 then scb :: (s.mem.next scb).toList
    else s.mem.selectCbList.toList
  | _ => []

/-- No wake-up is lost, the list is well formed and holds exactly the registered calls, and
`event_callback` does not touch any other. -/
structure State.Alert (s : State τ κ δ) : Prop where
  awake : ∀ u c, s.pc u = .block c → (∀ e, ¬(s.pc e).InCallback) →
    (∃ i, c.Asks i ∧ c.Ready i (s.mem.sockets i)) → 0 < (s.mem.cbs u).sem
  list : ∃ l, DoublyAt s.mem.next s.mem.prev s.mem.selectCbList l ∧ l.Nodup ∧
    ∀ u, u ∈ l ↔ (s.pc u).Listed
  touched : ∀ e, ∀ u ∈ s.touched e, (s.pc u).Listed
  asserted : ∀ u, s.pc u ≠ .aborted .prev

section

omit [DecidableEq τ]

theorem Attended.link (h : Attended s t) (hpc : s.pc t = .link c) : s.Room := by
  have hroom := h.2.1
  unfold Roomy at hroom
  rw [hpc] at hroom
  exact hroom

theorem Attended.unlink {timedOut : Bool} (h : Attended s t) (hpc : s.pc t = .unlink c timedOut) :
    s.Room := by
  have hroom := h.2.1
  unfold Roomy at hroom
  rw [hpc] at hroom
  exact hroom

theorem Attended.leave {lastdata : Option δ} {lastoffset : ℕ} (h : Attended s t)
    (hpc : s.pc t = .leave i lastdata lastoffset) (hdata : lastdata.isSome) :
    ∀ u, ¬(s.pc u).Uses i := by
  have hunused := h.2.2
  unfold Unread at hunused
  rw [hpc] at hunused
  exact hunused hdata

theorem Mem.onSock_calmer {f : Sock κ δ → Sock κ δ} (hf : ∀ sock, (f sock).Calmer sock) (i j : ℕ) :
    ((m.onSock j f).sockets i).Calmer (m.sockets i) := by
  by_cases hij : i = j
  · rw [hij, Mem.onSock_self]
    exact hf _
  · rw [Mem.onSock_of_ne hij]
    exact Sock.Calmer.refl

end

/-- A step that leaves the list alone as far as the program point goes. -/
structure Pc.Goes (pc pc' : Pc τ κ δ) : Prop where
  walk : ∀ i scb k, pc ≠ .walk i scb k
  walk' : ∀ i scb k, pc' ≠ .walk i scb k
  link' : ∀ c, pc' ≠ .link c
  listed : pc'.Listed ↔ pc.Listed
  runs : ∀ c, pc'.Runs c → pc.Runs c

/-- Neither in the walk through the list nor about to link into it -/
def Pc.outside : Pc τ κ δ → Bool
  | .walk _ _ _ | .link _ => false
  | _ => true

omit [DecidableEq τ] in
theorem Pc.Goes.of_outside (h : pc.outside = true) (h' : pc'.outside = true)
    (hlisted : pc'.Listed ↔ pc.Listed) (hruns : ∀ c, pc'.Runs c → pc.Runs c) : pc.Goes pc' := by
  refine ⟨fun i scb k heq => ?_, fun i scb k heq => ?_, fun c heq => ?_, hlisted, hruns⟩
  · rw [heq] at h
    cases h
  · rw [heq] at h'
    cases h'
  · rw [heq] at h'
    cases h'

theorem State.Watched.goes (hs : s.Watched l) (hpc : s.pc t = pc) (hgoes : pc.Goes pc')
    (hscanned : ∀ c i, pc'.Scanned c i → pc.Scanned c i ∨ ¬c.Ready i (s.mem.sockets i)) :
    State.Watched l ⟨s.mem, Function.update s.pc t pc'⟩ := by
  subst hpc
  exact hs.quiet rfl (fun _ _ => rfl) hgoes.walk hgoes.walk' hgoes.link' hgoes.listed hgoes.runs
    hscanned fun _ _ _ _ => Sock.Calmer.refl

theorem State.Watched.onSock {f : Sock κ δ → Sock κ δ} (hs : s.Watched l) (hpc : s.pc t = pc)
    (hgoes : pc.Goes pc') (hscanned : ∀ c i, ¬pc'.Scanned c i)
    (hsock : ∀ u c j, (s.pc u).Scanned c j →
      ((s.mem.onSock i f).sockets j).Calmer (s.mem.sockets j)) :
    State.Watched l ⟨s.mem.onSock i f, Function.update s.pc t pc'⟩ := by
  subst hpc
  exact hs.quiet rfl (fun _ _ => rfl) hgoes.walk hgoes.walk' hgoes.link' hgoes.listed hgoes.runs
    (fun c j h => absurd h (hscanned c j)) hsock

/-- `event_callback` sets an event, and begins to go through the list. -/
theorem State.Watched.mark {evt : Evt} (hs : s.Watched l) (hpc : s.pc t = .mark i evt) :
    State.Watched l ⟨((s.mem.onSock i (Sock.event evt)).visit i s.mem.selectCbList).1,
      Function.update s.pc t ((s.mem.onSock i (Sock.event evt)).visit i s.mem.selectCbList).2⟩ := by
  have hdata : ∀ j, ((s.mem.onSock i (Sock.event evt)).sockets j).lastdata =
      (s.mem.sockets j).lastdata :=
    fun j => Mem.onSock_field (fun sock => by cases evt <;> rfl) j i
  have hkept : State.Kept l ⟨s.mem.onSock i (Sock.event evt), s.pc⟩ := by
    refine ⟨hs.kept.doubly, hs.kept.listed, hs.kept.fresh, hs.kept.sets, hs.kept.sem, hs.kept.walks,
      fun u c j hu hset => ?_⟩
    exact (hdata j).trans (hs.kept.data u c j hu hset)
  refine hkept.visit hs.kept.doubly.forth ⟨[], rfl⟩ ?_ fun u c j hu hsem hready => ?_
  · show ¬(s.pc t).Listed
    rw [hpc]
    exact id
  · by_cases hji : j = i
    · exact .inr ⟨hji, (hs.kept.listed u).mpr hu.listed⟩
    · have hready : (s.mem.cbs u).doSignal j ((s.mem.onSock i (Sock.event evt)).sockets j) = true :=
        hready
      rw [Mem.onSock_of_ne hji] at hready
      obtain ⟨e, scb, k, -, he, hmeets⟩ := hs.awake u c j hu hsem hready
      refine .inl ⟨e, scb, k, ?_, he, hmeets⟩
      rintro rfl
      rw [hpc] at he
      cases he

/-- `event_callback` goes on behind the `select_cb` it has been at. -/
theorem State.Watched.walk (hs : s.Watched l) (hpc : s.pc t = .walk i scb k)
    (hsame : k % 2 ^ 32 = s.mem.selectCbCtr % 2 ^ 32) :
    State.Watched l ⟨(s.mem.visit i (s.mem.next scb)).1,
      Function.update s.pc t (s.mem.visit i (s.mem.next scb)).2⟩ := by
  obtain ⟨hle, hlt, hmem⟩ := hs.kept.walks t i scb k hpc
  have hk : k = s.mem.selectCbCtr := by omega
  obtain ⟨front, back, rfl⟩ := List.append_of_mem (hmem hk)
  have hnext := hs.kept.doubly.forth.from
  refine hs.kept.visit hnext ⟨front ++ [scb], by simp⟩ ?_ fun u c j hu hsem hready => ?_
  · rw [hpc]
    exact id
  · obtain ⟨e, v, k', -, he, hmeets⟩ := hs.awake u c j hu hsem hready
    by_cases het : e = t
    · subst het
      cases hpc.symm.trans he
      obtain ⟨front', back', hl, hu'⟩ := hmeets.resolve_left (not_not.mpr hk)
      -- the links behind the `select_cb` lead to one list only
      have hforth := hs.kept.doubly.forth
      rw [hl] at hforth
      exact .inr ⟨rfl, hnext.unique hforth.from ▸ hu'⟩
    · exact .inl ⟨e, v, k', het, he, hmeets⟩

/-- `event_callback` starts again. -/
theorem State.Watched.again (hs : s.Watched l) (hpc : s.pc t = .walk i scb k) :
    State.Watched l ⟨(s.mem.visit i s.mem.selectCbList).1,
      Function.update s.pc t (s.mem.visit i s.mem.selectCbList).2⟩ := by
  refine hs.kept.visit hs.kept.doubly.forth ⟨[], rfl⟩ ?_ fun u c j hu hsem hready => ?_
  · rw [hpc]
    exact id
  · obtain ⟨e, v, k', -, he, hmeets⟩ := hs.awake u c j hu hsem hready
    by_cases het : e = t
    · subst het
      cases hpc.symm.trans he
      exact .inr ⟨rfl, (hs.kept.listed u).mpr hu.listed⟩
    · exact .inl ⟨e, v, k', het, he, hmeets⟩

variable [Fintype τ]

theorem State.Watched.exec (hc : s.Counts) (hs : s.Watched l) (hok : Attended s t)
    (h : Step t s.mem (s.pc t) m pc) :
    ∃ l', State.Watched l' ⟨m, Function.update s.pc t pc⟩ := by
  have hgood : ¬pc.Failed := by
    have hnot : ¬(Function.update s.pc t pc t).Failed := (hc.exec hok.1 h).asserted t
    rwa [Function.update_self] at hnot
  generalize hpc : s.pc t = p at h
  cases h with
  | newSem => exact ⟨l, hs.newSem hpc⟩
  | link => exact ⟨t :: l, hs.link (hok.link hpc) hpc⟩
  | unlink h => exact ⟨l.erase t, hs.unlink (hok.unlink hpc) hpc h⟩
  | mark => exact ⟨l, hs.mark hpc⟩
  | walk h => exact ⟨l, hs.walk hpc h⟩
  | again => exact ⟨l, hs.again hpc⟩
  | registerNull => exact absurd (.inl rfl) hgood
  | unregisterNull => exact absurd (.inl rfl) hgood
  | countFails => exact absurd (.inr rfl) hgood
  | uncountFails => exact absurd (.inr rfl) hgood
  | unlinkFails h =>
    have ht : t ∈ l := by
      rw [hs.kept.listed t, hpc]
      trivial
    obtain ⟨m', hm', -⟩ := Mem.unlink_spec hs.kept.doubly ht
    cases h.symm.trans hm'
  | @selscan c round j found h =>
    refine ⟨l, hs.goes hpc ?_ fun c' i hi => ?_⟩
    · cases round <;> exact .of_outside rfl rfl Iff.rfl fun _ => id
    · cases round with
      | first => cases hi
      | last => cases hi
      | second =>
        obtain ⟨rfl, hasks, hlt, hnone⟩ := hi
        -- what the call asks for is open, and so the scan has looked at it
        have hopen : ∀ i, c.Asks i → s.mem.trygetSocket i = some (s.mem.sockets i) := by
          intro i hi
          refine if_pos (Mem.trygetSocket_isSome.mp (hc.used t i ?_))
          rw [hpc]
          exact hi
        rcases Nat.lt_succ_iff_lt_or_eq.mp hlt with hlt | rfl
        · refine .inl ⟨rfl, hasks, hlt, ?_⟩
          cases hget : s.mem.trygetSocket j with
          | none =>
            rw [hget] at hnone
            exact hnone
          | some sock =>
            rw [hget] at hnone
            exact (Call.selscan_nready hnone).1
        · rw [hopen i hasks] at hnone
          exact .inr (Call.selscan_nready hnone).2
  | @scanned c round j found h =>
    refine ⟨l, hs.goes hpc ?_ fun c' i hi => .inl ?_⟩
    · cases round with
      | last => exact .of_outside rfl rfl Iff.rfl fun _ => id
      | _ =>
        unfold Call.afterScan
        dsimp only
        split
        · exact .of_outside rfl rfl Iff.rfl fun _ h => h.elim
        · exact .of_outside rfl rfl Iff.rfl fun _ => id
    · cases round with
      | last => cases hi
      | first =>
        unfold Call.afterScan at hi
        dsimp only at hi
        split at hi <;> cases hi
      | second =>
        unfold Call.afterScan at hi
        dsimp only at hi
        split at hi
        · cases hi
        · next hnone =>
          obtain ⟨rfl, hasks⟩ := hi
          exact ⟨rfl, hasks, lt_of_lt_of_le hasks.1 (Nat.le_of_not_lt h), not_not.mp hnone⟩
  | registered =>
    refine ⟨l, hs.goes hpc (.of_outside rfl rfl Iff.rfl fun _ => id) fun c' i hi => ?_⟩
    exact absurd hi.2.2.1 (Nat.not_lt_zero i)
  | timedOut => exact ⟨l, hs.goes hpc (.of_outside rfl rfl Iff.rfl fun _ h => h.elim) fun _ _ h => h.elim⟩
  | woken =>
    refine ⟨l, hs.quiet rfl (fun u hu => ?_) ?_ nofun nofun ?_ nofun nofun
      fun _ _ _ _ => Sock.Calmer.refl⟩
    · rcases hu with hut | ⟨c, hruns⟩
      · exact Function.update_of_ne hut _ _
      · cases hruns
    · rw [hpc]
      exact nofun
    · rw [hpc]
      exact Iff.rfl
  | select | noSem | registerSkip | register | unregisterSkip | unregister | unregistered
  | take | callback | noSocket | getSocket | read | closeCall | closeBad | close | allocCall
  | allocNext | allocFull =>
    exact ⟨l, hs.goes hpc (.of_outside rfl rfl Iff.rfl fun _ => id) fun _ _ => .inl⟩
  | @markAlone j evt h =>
    refine ⟨l, hs.onSock hpc (.of_outside rfl rfl Iff.rfl fun _ => id) (fun _ _ => id)
      fun u c i hu => ?_⟩
    by_cases hij : i = j
    · -- nobody is counted in
      subst hij
      have hpos : (0 : ℤ) < s.waiters i := by
        exact_mod_cast tally_pos (p := fun pc : Pc τ κ δ => pc.counted i = true) hu.counted
      rw [← hc.counted i, h] at hpos
      exact absurd hpos (lt_irrefl 0)
    · rw [Mem.onSock_of_ne hij]
      exact Sock.Calmer.refl
  | count | uncount =>
    refine ⟨l, hs.onSock hpc (.of_outside rfl rfl Iff.rfl fun _ => id) (fun _ _ => id)
      fun u c i hu => ?_⟩
    refine Mem.onSock_calmer (fun sock => ?_) _ _
    exact ⟨.inl rfl, rfl, rfl, rfl⟩
  | @leave j lastdata lastoffset =>
    refine ⟨l, hs.onSock hpc (.of_outside rfl rfl Iff.rfl fun _ => id) (fun _ _ => id)
      fun u c i hu => ?_⟩
    by_cases hij : i = j
    · subst hij
      cases lastdata with
      | none =>
        refine Mem.onSock_calmer (fun sock => ?_) _ _
        exact ⟨.inr rfl, rfl, rfl, rfl⟩
      | some data => exact absurd (Pc.uses_of_counted hu.counted) (hok.leave hpc rfl u)
    · rw [Mem.onSock_of_ne hij]
      exact Sock.Calmer.refl
  | delete =>
    refine ⟨l, hs.onSock hpc (.of_outside rfl rfl Iff.rfl fun _ => id) (fun _ _ => id)
      fun u c i hu => ?_⟩
    refine Mem.onSock_calmer (fun sock => ?_) _ _
    exact ⟨.inr rfl, rfl, rfl, rfl⟩
  | free | alloc | clearWaiting =>
    refine ⟨l, hs.onSock hpc (.of_outside rfl rfl Iff.rfl fun _ => id) (fun _ _ => id)
      fun u c i hu => ?_⟩
    refine Mem.onSock_calmer (fun sock => ?_) _ _
    exact ⟨.inl rfl, rfl, rfl, rfl⟩
  | @clear isTcp accepted j =>
    refine ⟨l, hs.onSock hpc (.of_outside rfl rfl Iff.rfl fun _ => id) (fun _ _ => id)
      fun u c i hu => ?_⟩
    by_cases hij : i = j
    · subst hij
      refine absurd (Pc.uses_of_counted hu.counted) (hc.unused t i ?_ u)
      rw [hpc]
      rfl
    · rw [Mem.onSock_of_ne hij]
      exact Sock.Calmer.refl

omit [DecidableEq τ] [Fintype τ] in
/-- What the invariant says about the threads. -/
theorem State.Watched.alert (hs : s.Watched l) (hnot : ∀ u, s.pc u ≠ .aborted .prev) : s.Alert := by
  refine ⟨fun u c hu hquiet ⟨i, hasks, hready⟩ => ?_, ⟨l, hs.kept.doubly, hs.kept.doubly.forth.nodup,
    hs.kept.listed⟩, fun e u hu => ?_, hnot⟩
  · have hruns : (s.pc u).Runs c := by
      rw [hu]
      rfl
    have hscanned : (s.pc u).Scanned c i := by
      rw [hu]
      exact ⟨rfl, hasks⟩
    refine hs.kept.sem u c hruns (Bool.eq_false_imp_eq_true.mp fun hsem => ?_)
    have hsignal := (hs.kept.sets u c hruns).doSignal hready (hs.kept.data u c i hscanned)
    obtain ⟨e, scb, k, -, he, -⟩ := hs.awake u c i hscanned hsem hsignal
    refine absurd ?_ (hquiet e)
    rw [he]
    trivial
  · -- the head of the list, and what comes behind a registered call
    have hhead : u ∈ s.mem.selectCbList.toList → (s.pc u).Listed := by
      intro hu
      rw [← hs.kept.listed u]
      rw [← hs.kept.doubly.forth.head] at hu
      exact List.mem_of_mem_head? (Option.mem_toList.mp hu)
    unfold State.touched at hu
    split at hu
    · split at hu
      · cases hu
      · exact hhead hu
    · next scb k he =>
      split at hu
      · next hsame =>
        obtain ⟨hle, hlt, hmem⟩ := hs.kept.walks e _ scb k he
        have hscb := hmem (by omega)
        rw [← hs.kept.listed u]
        rcases List.mem_cons.mp hu with rfl | hu
        · exact hscb
        · obtain ⟨front, back, rfl⟩ := List.append_of_mem hscb
          rw [← hs.kept.doubly.forth.from.head] at hu
          refine List.mem_append_right _ (List.mem_cons_of_mem _ ?_)
          exact List.mem_of_mem_head? (Option.mem_toList.mp hu)
      · exact hhead hu
    · cases hu

omit [DecidableEq τ] [Fintype τ] in
theorem State.watched_of_idle (hidle : ∀ u, s.pc u = .idle) (hlist : s.mem.selectCbList = none) :
    s.Watched [] := by
  refine ⟨⟨⟨hlist, trivial⟩, fun u => ?_, fun u c hu => ?_, fun u c hu => ?_, fun u c hu => ?_,
    fun e i scb k he => ?_, fun u c i hu => ?_⟩, fun u c i hu => ?_⟩
  · rw [hidle u]
    exact ⟨nofun, nofun⟩
  · cases (hidle u).symm.trans hu
  · rw [hidle u] at hu
    cases hu
  · rw [hidle u] at hu
    cases hu
  · cases (hidle e).symm.trans he
  · rw [hidle u] at hu
    cases hu
  · rw [hidle u] at hu
    cases hu

omit [Fintype τ] in
theorem Step.not_prev (h : Step t m pc m' pc')
    (hunlink : ∀ c timedOut, pc = .unlink c timedOut → ∃ m', m.unlink t = some m') :
    pc' ≠ .aborted .prev := by
  cases h with
  | @scanned c round i found =>
    unfold Call.afterScan
    split
    · split <;> exact nofun
    · split <;> exact nofun
    · exact nofun
  | unlink => split <;> exact nofun
  | unlinkFails h =>
    obtain ⟨m', hm'⟩ := hunlink _ _ rfl
    cases h.symm.trans hm'
  | mark => exact Mem.visit_not_prev _
  | walk => exact Mem.visit_not_prev _
  | again => exact Mem.visit_not_prev _
  | _ => exact nofun

/-- `lwip_select` loses no wake-up in a run in which what it relies on holds. -/
theorem select_alert {ts : List τ} (h : (selecting τ κ δ).Run Attended ts s) : s.Alert := by
  have hwatched : (∃ l, s.Watched l) ∧ ∀ u, s.pc u ≠ .aborted .prev := by
    refine h.invariant (I := fun _ s => (∃ l, s.Watched l) ∧ ∀ u, s.pc u ≠ .aborted .prev)
      (fun s hstart => ?_) fun ts s t s' hr hs hok hstep => ?_
    · obtain ⟨hidle, hlist, -⟩ := hstart
      refine ⟨⟨[], State.watched_of_idle hidle hlist⟩, fun u => ?_⟩
      rw [hidle u]
      exact nofun
    · obtain ⟨⟨l, hl⟩, hnot⟩ := hs
      obtain ⟨m, pc, hstep, rfl⟩ := hstep
      refine ⟨hl.exec (counts_of_run (hr.mono fun _ _ h => h.1)) hok hstep, fun u => ?_⟩
      by_cases hut : u = t
      · show Function.update s.pc t pc u ≠ _
        rw [hut, Function.update_self]
        refine hstep.not_prev fun c timedOut hpc => ?_
        have ht : t ∈ l := by
          rw [hl.kept.listed t, hpc]
          trivial
        obtain ⟨m', hm', -⟩ := Mem.unlink_spec hl.kept.doubly ht
        exact ⟨m', hm'⟩
      · show Function.update s.pc t pc u ≠ _
        rw [Function.update_of_ne hut]
        exact hnot u
  obtain ⟨⟨l, hl⟩, hnot⟩ := hwatched
  exact hl.alert hnot

theorem select_alert_asleep : ∃ ts s, (selecting (Fin 3) Unit Unit).Run Attended ts s ∧
    s.pc 0 = .block waitCall ∧ s.Alert := by
  obtain ⟨ts, s, hrun, hs⟩ := asleep_run
  exact ⟨ts, s, hrun, hs.blocked, select_alert hrun⟩

/-! ### What goes wrong otherwise -/

section

variable {s : State (Fin 3) Unit Unit} {t : Fin 3} {ts : List (Fin 3)} {sock : Sock Unit Unit}
  {ok : State (Fin 3) Unit Unit → Fin 3 → Prop} {e : Evt}

/-- The first section of `event_callback` for an event that the sleeping call does not wait for. -/
theorem Asleep.mark (hs : Asleep sock s) (hrun : (selecting (Fin 3) Unit Unit).Run ok ts s)
    (hok : ∀ s t, Attended s t → ok s t) (ht : t ≠ 0) (hopen : sock.conn.isSome)
    (hwaiting : sock.selectWaiting ≠ 0)
    (hnot : (⟨some {0}, none, none, false, 0⟩ : SelectCb).doSignal 0 (sock.event e) = false) :
    ∃ ts' s', (selecting (Fin 3) Unit Unit).Run ok ts' s' ∧
      s'.mem = s.mem.onSock 0 (Sock.event e) ∧ s'.pc t = .walk 0 0 1 ∧
        ∀ u, u ≠ t → s'.pc u = s.pc u := by
  have hget : (s.mem.trygetSocket 0).isSome := by
    rw [Mem.trygetSocket_isSome, hs.socket]
    exact ⟨by decide, hopen⟩
  have hsignal : (s.mem.onSock 0 (Sock.event e)).signal 0 0 = s.mem.onSock 0 (Sock.event e) := by
    refine Mem.signal_of_not ?_
    rw [Mem.onSock_self, hs.socket]
    show (s.mem.cbs 0).doSignal 0 (sock.event e) = false
    rw [hs.cb]
    exact hnot
  have hvisit : (s.mem.onSock 0 (Sock.event e)).visit 0 s.mem.selectCbList =
      (s.mem.onSock 0 (Sock.event e), .walk 0 0 1) := by
    rw [hs.list]
    show ((s.mem.onSock 0 (Sock.event e)).signal 0 0, Pc.walk 0 0 s.mem.selectCbCtr) = _
    rw [hsignal, hs.ctr]
  have hmark : Step t s.mem (.mark 0 e) (s.mem.onSock 0 (Sock.event e)) (.walk 0 0 1) := by
    have hstep : Step t s.mem (.mark 0 e)
        ((s.mem.onSock 0 (Sock.event e)).visit 0 s.mem.selectCbList).1
        ((s.mem.onSock 0 (Sock.event e)).visit 0 s.mem.selectCbList).2 := by
      refine .mark ?_
      rw [hs.socket]
      exact hwaiting
    rwa [hvisit] at hstep
  have hself : ∀ (f : Fin 3 → Pc (Fin 3) Unit Unit) pc, Function.update f t pc t = pc :=
    fun _ _ => Function.update_self _ _ _
  have hcalled := run_step hrun (hs.idle t ht) (hok _ _ (attended_of (hs.idle t ht) trivial))
    (.callback : Step t s.mem .idle s.mem (.getSocket 0 e))
  have hgot := run_step hcalled (hself _ _) (hok _ _ (attended_of (hself _ _) trivial))
    (.getSocket hget)
  refine ⟨_, _, run_step hgot (hself _ _) (hok _ _ (attended_of (hself _ _) trivial)) hmark, rfl,
    hself _ _, fun u hu => ?_⟩
  show Function.update (Function.update (Function.update s.pc t _) t _) t _ u = s.pc u
  rw [Function.update_of_ne hu, Function.update_of_ne hu, Function.update_of_ne hu]

/-- The whole of `event_callback` for such an event. -/
theorem Asleep.event (hs : Asleep sock s) (hrun : (selecting (Fin 3) Unit Unit).Run ok ts s)
    (hok : ∀ s t, Attended s t → ok s t) (ht : t ≠ 0) (hopen : sock.conn.isSome)
    (hwaiting : sock.selectWaiting ≠ 0)
    (hnot : (⟨some {0}, none, none, false, 0⟩ : SelectCb).doSignal 0 (sock.event e) = false) :
    ∃ ts' s', (selecting (Fin 3) Unit Unit).Run ok ts' s' ∧ Asleep (sock.event e) s' := by
  obtain ⟨ts', s', hrun', hmem, hpc, hother⟩ := hs.mark hrun hok ht hopen hwaiting hnot
  have hwalk : Step t s'.mem (.walk 0 0 1) s'.mem .idle := by
    have hstep : Step t s'.mem (.walk 0 0 1) (s'.mem.visit 0 (s'.mem.next 0)).1
        (s'.mem.visit 0 (s'.mem.next 0)).2 := by
      refine .walk ?_
      rw [hmem]
      exact congrArg (· % 2 ^ 32) hs.ctr.symm
    have hnext : s'.mem.next 0 = none := by
      rw [hmem]
      exact hs.next
    rwa [hnext] at hstep
  refine ⟨_, _, run_step hrun' hpc (hok _ _ (attended_of hpc trivial)) hwalk, ⟨?_, fun u hu => ?_,
    ?_, ?_, ?_, ?_, ?_, ?_⟩⟩
  · show Function.update s'.pc t .idle 0 = _
    rw [Function.update_of_ne ht.symm, hother 0 ht.symm]
    exact hs.blocked
  · show Function.update s'.pc t .idle u = _
    by_cases hut : u = t
    · rw [hut, Function.update_self]
    · rw [Function.update_of_ne hut, hother u hut]
      exact hs.idle u hu
  · show s'.mem.sockets 0 = _
    rw [hmem, Mem.onSock_self, hs.socket]
  · show s'.mem.cbs 0 = _
    rw [hmem]
    exact hs.cb
  · show s'.mem.selectCbList = _
    rw [hmem]
    exact hs.list
  · show s'.mem.next 0 = _
    rw [hmem]
    exact hs.next
  · show s'.mem.prev 0 = _
    rw [hmem]
    exact hs.prev
  · show s'.mem.selectCbCtr = _
    rw [hmem]
    exact hs.ctr

/-- A reader takes a message before its event has been given, and leaves data behind. -/
theorem Asleep.read (hs : Asleep { conn := some (), selectWaiting := 1 } s)
    (hrun : (selecting (Fin 3) Unit Unit).Run ok ts s)
    (hok : ∀ s t, Disciplined s t ∧ Roomy s t → ok s t) :
    ∃ ts' s', (selecting (Fin 3) Unit Unit).Run ok ts' s' ∧ ¬s'.Alert := by
  have hattended : ∀ s t, Attended s t → ok s t := fun s t h => hok s t ⟨h.1, h.2.1⟩
  obtain ⟨ts1, s1, hrun1, hs1⟩ := hs.event (t := 1) (e := .rcvMinus) hrun hattended (by decide) rfl
    (by decide) rfl
  obtain ⟨ts2, s2, hrun2, hs2⟩ := hs1.event (t := 2) (e := .rcvPlus) hrun1 hattended (by decide) rfl
    (by decide) rfl
  have hidle := hs2.idle 1 (by decide)
  have hread := run_step hrun2 hidle (hattended _ _ (attended_of hidle trivial))
    (.read : Step 1 s2.mem .idle s2.mem (.leave 0 (some ()) 1))
  have hleft := run_step hread (t := 1) rfl (hok _ _ ⟨trivial, trivial⟩) .leave
  refine ⟨_, _, hleft, fun halert => ?_⟩
  have hpos : 0 < (s2.mem.cbs 0).sem := by
    refine halert.awake 0 waitCall hs2.blocked (fun u => ?_) ⟨0, by decide, .inl ⟨by decide, rfl⟩⟩
    fin_cases u
    · show ¬(s2.pc 0).InCallback
      rw [hs2.blocked]
      exact id
    · exact id
    · show ¬(s2.pc 2).InCallback
      rw [hs2.idle 2 (by decide)]
      exact id
  rw [hs2.cb] at hpos
  cases hpos

/-- A call that waits for nothing. -/
def idleCall : Call where
  maxfdp1 := 0
  readset := none
  writeset := none
  exceptset := none
  timeout := some ⟨1, 0⟩

/-- The walk of the second thread rests on the `select_cb` of the first one, which has returned. -/
structure Stale (n : ℕ) (s : State (Fin 3) Unit Unit) : Prop where
  walk : s.pc 1 = .walk 0 0 1
  returned : s.pc 0 = .returned {}
  list : s.mem.selectCbList = none
  ctr : s.mem.selectCbCtr = n

/-- The third thread goes on the list. -/
theorem Stale.link {n : ℕ} (hs : Stale n s) (hidle : s.pc 2 = .idle)
    (hrun : (selecting (Fin 3) Unit Unit).Run ok ts s)
    (hok : ∀ s t, Disciplined s t ∧ Unread s t → ok s t) :
    ∃ ts' s', (selecting (Fin 3) Unit Unit).Run ok ts' s' ∧ s'.pc 2 = .block idleCall ∧
      s'.pc 1 = .walk 0 0 1 ∧ s'.pc 0 = .returned {} ∧ s'.mem.selectCbList = some 2 ∧
        s'.mem.prev 2 = none ∧ s'.mem.next 2 = none ∧ s'.mem.selectCbCtr = n + 1 := by
  have hattended : ∀ s t, Attended s t → ok s t := fun s t h => hok s t ⟨h.1, h.2.2⟩
  have hscanned := run_step (run_step hrun hidle (hattended _ _ (attended_of hidle trivial))
    (.select (c := idleCall))) (t := 2) rfl (hattended _ _ (attended_of rfl trivial))
      (.scanned (by decide))
  have hnew := run_step hscanned (t := 2) rfl (hattended _ _ (attended_of rfl trivial)) .newSem
  have hlinked := run_step hnew (t := 2) rfl (hok _ _ ⟨fun i hi => absurd hi.1 (Nat.not_lt_zero i),
    trivial⟩) .link
  have hregistered := run_step hlinked (t := 2) rfl (hattended _ _ (attended_of rfl trivial))
    (.registered (by decide))
  refine ⟨_, _, run_step hregistered (t := 2) rfl (hattended _ _ (attended_of rfl trivial))
    (.scanned (by decide)), rfl, hs.walk, hs.returned, rfl, ?_, ?_, ?_⟩
  · show pointBack _ s.mem.selectCbList _ 2 = none
    rw [hs.list]
    rfl
  · exact hs.list
  · exact congrArg (· + 1) hs.ctr

/-- Taking the only call off the list. -/
theorem Mem.unlink_only {m : Mem (Fin 3) Unit Unit} (hlist : m.selectCbList = some t)
    (hprev : m.prev t = none) (hnext : m.next t = none) :
    m.unlink t = some { m with selectCbList := none, selectCbCtr := m.selectCbCtr + 1 } := by
  unfold Mem.unlink
  dsimp only
  rw [if_pos hlist, if_pos hprev, hnext]
  rfl

/-- The third thread goes on the list and leaves it again. -/
theorem Stale.cycle {n : ℕ} (hs : Stale n s) (hidle : s.pc 2 = .idle)
    (hrun : (selecting (Fin 3) Unit Unit).Run ok ts s)
    (hok : ∀ s t, Disciplined s t ∧ Unread s t → ok s t) :
    ∃ ts' s', (selecting (Fin 3) Unit Unit).Run ok ts' s' ∧ Stale (n + 2) s' ∧ s'.pc 2 = .idle := by
  have hattended : ∀ s t, Attended s t → ok s t := fun s t h => hok s t ⟨h.1, h.2.2⟩
  obtain ⟨ts', s', hrun', hblock, hwalk, hreturned, hlist, hprev, hnext, hctr⟩ :=
    hs.link hidle hrun hok
  have hwoken := run_step hrun' hblock (hattended _ _ (attended_of hblock trivial))
    (.timedOut (by decide))
  have hunregistered := run_step hwoken (t := 2) rfl (hattended _ _ (attended_of rfl trivial))
    (.unregistered (by decide))
  have hunlinked := run_step hunregistered (t := 2) rfl (hok _ _ ⟨trivial, trivial⟩)
    (.unlink (Mem.unlink_only hlist hprev hnext))
  refine ⟨_, _, run_step hunlinked (t := 2) rfl (hattended _ _ (attended_of rfl trivial)) .take,
    ⟨hwalk, hreturned, rfl, ?_⟩, rfl⟩
  exact congrArg (· + 1) hctr

/-- The first call times out while the walk rests on its `select_cb`. -/
theorem Asleep.stale (hs : Asleep { conn := some (), selectWaiting := 1 } s)
    (hrun : (selecting (Fin 3) Unit Unit).Run ok ts s)
    (hok : ∀ s t, Disciplined s t ∧ Unread s t → ok s t) :
    ∃ ts' s', (selecting (Fin 3) Unit Unit).Run ok ts' s' ∧ Stale 2 s' ∧ s'.pc 2 = .idle := by
  have hattended : ∀ s t, Attended s t → ok s t := fun s t h => hok s t ⟨h.1, h.2.2⟩
  obtain ⟨ts1, s1, hrun1, hmem, hwalk, hother⟩ := hs.mark (t := 1) (e := .sendPlus) hrun hattended
    (by decide) rfl (by decide) rfl
  have hblock : s1.pc 0 = .block waitCall := (hother 0 (by decide)).trans hs.blocked
  have hidle : s1.pc 2 = .idle := (hother 2 (by decide)).trans (hs.idle 2 (by decide))
  have hsock : s1.mem.sockets 0 = { conn := some (), selectWaiting := 1, sendevent := 1 } := by
    rw [hmem, Mem.onSock_self, hs.socket]
    rfl
  have hget : (s1.mem.trygetSocket 0).isSome := by
    rw [Mem.trygetSocket_isSome, hsock]
    exact ⟨by decide, rfl⟩
  have hwoken := run_step hrun1 hblock (hattended _ _ (attended_of hblock trivial))
    (.timedOut (by decide))
  have hlooked := run_step hwoken (t := 0) rfl (hattended _ _ (attended_of rfl trivial))
    (.unregister (by decide) hget)
  have huncounted := run_step hlooked (t := 0) rfl (hattended _ _ (attended_of rfl trivial))
    (.uncount (by rw [hsock]; decide))
  have hunregistered := run_step huncounted (t := 0) rfl (hattended _ _ (attended_of rfl trivial))
    (.unregistered (by decide))
  have hlist : s1.mem.selectCbList = some 0 ∧ s1.mem.prev 0 = none ∧ s1.mem.next 0 = none ∧
      s1.mem.selectCbCtr = 1 := by
    rw [hmem]
    exact ⟨hs.list, hs.prev, hs.next, hs.ctr⟩
  refine ⟨_, _, run_step hunregistered (t := 0) rfl (hok _ _ ⟨trivial, trivial⟩)
    (.unlink (Mem.unlink_only hlist.1 hlist.2.1 hlist.2.2.1)), ⟨hwalk, rfl, rfl, ?_⟩, hidle⟩
  exact congrArg (· + 1) hlist.2.2.2

theorem Asleep.stale_run (hs : Asleep { conn := some (), selectWaiting := 1 } s)
    (hrun : (selecting (Fin 3) Unit Unit).Run ok ts s)
    (hok : ∀ s t, Disciplined s t ∧ Unread s t → ok s t) (n : ℕ) :
    ∃ ts' s', (selecting (Fin 3) Unit Unit).Run ok ts' s' ∧ Stale (2 + 2 * n) s' ∧
      s'.pc 2 = .idle := by
  induction n with
  | zero => exact hs.stale hrun hok
  | succ n ih =>
    obtain ⟨ts', s', hrun', hs', hidle⟩ := ih
    exact hs'.cycle hidle hrun' hok

/-- After `2 ^ 32` changes of the list the walk takes it for the old one, and reads the `select_cb`
of a call that has returned. -/
theorem Asleep.wrap (hs : Asleep { conn := some (), selectWaiting := 1 } s)
    (hrun : (selecting (Fin 3) Unit Unit).Run ok ts s)
    (hok : ∀ s t, Disciplined s t ∧ Unread s t → ok s t) :
    ∃ ts' s', (selecting (Fin 3) Unit Unit).Run ok ts' s' ∧ ¬s'.Alert := by
  obtain ⟨ts1, s1, hrun1, hs1, hidle⟩ := hs.stale_run hrun hok (2 ^ 31 - 1)
  obtain ⟨ts', s', hrun', -, hwalk, hreturned, -, -, -, hctr⟩ := hs1.link hidle hrun1 hok
  refine ⟨ts', s', hrun', fun halert => ?_⟩
  have htouched : 0 ∈ s'.touched 1 := by
    rw [State.touched]
    rw [hwalk]
    dsimp only
    rw [if_pos (by rw [hctr]; decide)]
    exact List.mem_cons_self
  have hlisted := halert.touched 1 0 htouched
  rw [hreturned] at hlisted
  exact hlisted

/-- A wake-up can be lost where a reader leaves data in the socket, and where the counter of the
changes comes round. -/
theorem select_alert_fails :
    (¬∀ (ts : List (Fin 3)) (s : State (Fin 3) Unit Unit),
      (selecting (Fin 3) Unit Unit).Run (fun s t => Disciplined s t ∧ Roomy s t) ts s → s.Alert) ∧
    ¬∀ (ts : List (Fin 3)) (s : State (Fin 3) Unit Unit),
      (selecting (Fin 3) Unit Unit).Run (fun s t => Disciplined s t ∧ Unread s t) ts s → s.Alert := by
  obtain ⟨ts, s, hrun, hs⟩ := asleep_run
  constructor
  · intro hall
    have hroomy := hrun.mono fun _ _ (h : Attended _ _) => (⟨h.1, h.2.1⟩ : _ ∧ _)
    obtain ⟨ts', s', hrun', hnot⟩ := hs.read hroomy fun _ _ => id
    exact hnot (hall ts' s' hrun')
  · intro hall
    have hunread := hrun.mono fun _ _ (h : Attended _ _) => (⟨h.1, h.2.2⟩ : _ ∧ _)
    obtain ⟨ts', s', hrun', hnot⟩ := hs.wrap hunread fun _ _ => id
    exact hnot (hall ts' s' hrun')

end

end QuietLwip.Sockets
