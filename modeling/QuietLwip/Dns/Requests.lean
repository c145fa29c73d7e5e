import QuietLwip.Dns.Bounds
import Mathlib.Data.List.Nodup

/-!
# Requests

Each request that was taken is answered once, or still owns an entry. The invariant says so for the
table without the entry whose callback runs.
-/

namespace QuietLwip.Dns

open Fallible Ip Transition

variable {s s' : Resolver} {i j : Index} {c : Call} {x x' : Option Index} {ev : Event}

/-! ### The law -/

/-- The callback of the request is called. -/
def Event.answers (t : ℕ) : Event → Bool
  | .found t' _ _ => t' = t
  | _ => false

def Event.request : Event → Option ℕ
  | .enqueued t _ => some t
  | _ => none

/-- A request in the table that is not answered yet, with its name, callback and argument. -/
def Resolver.Pending (s : Resolver) (t : ℕ) (c : Call) : Prop :=
  ∃ i, (s.table i).state.isPending ∧ (s.table i).ticket = t ∧ (s.table i).call = c

/-- Every request is answered at most once, with its own name and argument; it is answered, or it owns
an entry. -/
structure LifeCycle (s : Resolver) : Prop where
  distinct : (s.log.filterMap Event.request).Nodup
  once : ∀ t, (s.log.filter (Event.answers t)).length ≤ 1
  own : ∀ t c a, .found t c a ∈ s.log → .enqueued t c ∈ s.log
  kept : ∀ t c, .enqueued t c ∈ s.log → c.found ≠ none → (∃ a, .found t c a ∈ s.log) ∨ s.Pending t c

/-! ### The invariant -/

/-- The entry owes an answer. -/
def Owes (x : Option Index) (s : Resolver) (i : Index) : Prop :=
  (s.table i).state.isPending ∧ x ≠ some i

/-- `x` is an entry whose callback has been called, and that still asks. -/
structure Owed (x : Option Index) (s : Resolver) : Prop where
  busy : ∀ i, x = some i → (s.table i).state.isPending
  fresh : ∀ t c, .enqueued t c ∈ s.log → t < s.tickets
  distinct : (s.log.filterMap Event.request).Nodup
  own : ∀ t c a, .found t c a ∈ s.log → .enqueued t c ∈ s.log
  once : ∀ t, (s.log.filter (Event.answers t)).length ≤ 1
  mine : ∀ i, Owes x s i → .enqueued (s.table i).ticket (s.table i).call ∈ s.log
  open_ : ∀ i, Owes x s i → ∀ c a, .found (s.table i).ticket c a ∉ s.log
  apart : ∀ i j, Owes x s i → Owes x s j → (s.table i).ticket = (s.table j).ticket → i = j
  kept : ∀ t c, .enqueued t c ∈ s.log → c.found ≠ none →
    (∃ a, .found t c a ∈ s.log) ∨ ∃ i, Owes x s i ∧ (s.table i).ticket = t ∧ (s.table i).call = c

/-- Neither a request nor an answer. -/
def Event.Plain (ev : Event) : Prop := (∀ t, ev.answers t = false) ∧ ev.request = none

theorem Owed.lifeCycle (h : Owed none s) : LifeCycle s where
  distinct := h.distinct
  once := h.once
  own := h.own
  kept t c ht hc := by
    refine (h.kept t c ht hc).imp_right ?_
    rintro ⟨i, howes, hticket, hcall⟩
    exact ⟨i, howes.1, hticket, hcall⟩

theorem mem_plain {evs : List Event} {log : List Event} (hevs : ∀ ev ∈ evs, ev.Plain) (hev : ¬ ev.Plain) :
    ev ∈ log ++ evs ↔ ev ∈ log := by
  rw [List.mem_append, or_iff_left]
  exact fun hmem => hev (hevs ev hmem)

theorem found_not_plain (t : ℕ) (c : Call) (a : Option IpAddr) : ¬ (Event.found t c a).Plain := by
  intro h
  have ht := h.1 t
  simp [Event.answers] at ht

theorem enqueued_not_plain (t : ℕ) (c : Call) : ¬ (Event.enqueued t c).Plain := by
  intro h
  cases h.2

/-- Nothing changes for the requests. -/
theorem Owed.congr {evs : List Event} (h : Owed x s) (hevs : ∀ ev ∈ evs, ev.Plain)
    (hlog : s'.log = s.log ++ evs) (htickets : s'.tickets = s.tickets)
    (howes : ∀ i, Owes x' s' i ↔ Owes x s i)
    (hsame : ∀ i, Owes x s i → (s'.table i).ticket = (s.table i).ticket ∧
      (s'.table i).call = (s.table i).call)
    (hbusy : ∀ i, x' = some i → (s'.table i).state.isPending) : Owed x' s' := by
  have hfound : ∀ {t c a}, .found t c a ∈ s'.log ↔ .found t c a ∈ s.log := by
    intro t c a
    rw [hlog]
    exact mem_plain hevs (found_not_plain t c a)
  have henq : ∀ {t c}, .enqueued t c ∈ s'.log ↔ .enqueued t c ∈ s.log := by
    intro t c
    rw [hlog]
    exact mem_plain hevs (enqueued_not_plain t c)
  have hrequests : evs.filterMap Event.request = [] := by
    rw [List.filterMap_eq_nil_iff]
    exact fun ev hev => (hevs ev hev).2
  have hanswers : ∀ t, evs.filter (Event.answers t) = [] := by
    intro t
    rw [List.filter_eq_nil_iff]
    intro ev hev
    rw [(hevs ev hev).1 t]
    exact Bool.false_ne_true
  refine ⟨hbusy, ?_, ?_, ?_, ?_, ?_, ?_, ?_, ?_⟩
  · intro t c ht
    rw [htickets]
    exact h.fresh t c (henq.mp ht)
  · rw [hlog, List.filterMap_append, hrequests, List.append_nil]
    exact h.distinct
  · intro t c a ht
    exact henq.mpr (h.own t c a (hfound.mp ht))
  · intro t
    rw [hlog, List.filter_append, hanswers, List.append_nil]
    exact h.once t
  · intro i hi
    have ho := (howes i).mp hi
    rw [(hsame i ho).1, (hsame i ho).2]
    exact henq.mpr (h.mine i ho)
  · intro i hi c a
    have ho := (howes i).mp hi
    rw [(hsame i ho).1, hfound]
    exact h.open_ i ho c a
  · intro i j hi hj hticket
    have ho := (howes i).mp hi
    have ho' := (howes j).mp hj
    rw [(hsame i ho).1, (hsame j ho').1] at hticket
    exact h.apart i j ho ho' hticket
  · intro t c ht hc
    refine (h.kept t c (henq.mp ht) hc).imp ?_ ?_
    · rintro ⟨a, ha⟩
      exact ⟨a, hfound.mpr ha⟩
    · rintro ⟨i, ho, hticket, hcall⟩
      exact ⟨i, (howes i).mpr ho, (hsame i ho).1.trans hticket, (hsame i ho).2.trans hcall⟩

theorem Owed.emit (h : Owed x s) (hev : ev.Plain) : Owed x (s.emit ev) := by
  have hevs : ∀ ev' ∈ [ev], ev'.Plain := by simpa using hev
  exact h.congr hevs rfl rfl (fun _ => .rfl) (fun _ _ => ⟨rfl, rfl⟩) h.busy

/-- The entry that does not owe anything any more is written. -/
theorem Owed.setEntry {e : Entry} (h : Owed x s)
    (hx : x = some i ∨ x = none ∧ (s.table i).state.isPending = false)
    (he : e.state.isPending = false) : Owed none (s.setEntry i e) := by
  have hevs : ∀ ev ∈ ([] : List Event), ev.Plain := by simp
  have hnot : ¬ Owes x s i := by
    rintro ⟨hpend, hne⟩
    obtain hx | ⟨-, hfree⟩ := hx
    · exact hne hx
    · rw [hfree] at hpend
      cases hpend
  refine h.congr hevs (List.append_nil _).symm rfl ?_ ?_ (fun j hj => nomatch hj)
  · intro j
    by_cases hj : j = i
    · subst hj
      refine iff_of_false ?_ hnot
      rintro ⟨hpend, -⟩
      rw [Resolver.setEntry_self, he] at hpend
      cases hpend
    · rw [Owes, Owes, Resolver.setEntry_of_ne _ _ hj]
      refine and_congr_right fun _ => iff_of_true (by simp) ?_
      rintro rfl
      obtain hx | ⟨hx, -⟩ := hx
      · exact hj (Option.some.inj hx)
      · cases hx
  · intro j hj
    have hne : j ≠ i := by
      rintro rfl
      exact hnot hj
    rw [Resolver.setEntry_of_ne _ _ hne]
    exact ⟨rfl, rfl⟩

/-- The entry keeps its request. -/
theorem Owed.keep {e : Entry} (h : Owed x s) (he : (s.table i).Same e) : Owed x (s.setEntry i e) := by
  have hsame : ∀ j, ((s.setEntry i e).table j).state.isPending = (s.table j).state.isPending ∧
      ((s.setEntry i e).table j).ticket = (s.table j).ticket ∧
        ((s.setEntry i e).table j).call = (s.table j).call := by
    intro j
    by_cases hj : j = i
    · subst hj
      rw [Resolver.setEntry_self]
      exact ⟨he.pending, he.ticket, he.call⟩
    · rw [Resolver.setEntry_of_ne _ _ hj]
      exact ⟨rfl, rfl, rfl⟩
  have hevs : ∀ ev ∈ ([] : List Event), ev.Plain := by simp
  refine h.congr hevs (List.append_nil _).symm rfl ?_ (fun j _ => (hsame j).2) ?_
  · intro j
    rw [Owes, Owes, (hsame j).1]
  · intro j hj
    rw [(hsame j).1]
    exact h.busy j hj

/-- The callback is called. -/
theorem Owed.answer (h : Owed none s) (hi : (s.table i).state.isPending) (a : Option IpAddr) :
    Owed (some i) (s.emit (.found (s.table i).ticket (s.table i).call a)) := by
  have hself : Owes none s i := ⟨hi, by simp⟩
  have howes : ∀ {j}, Owes (some i) s j → Owes none s j ∧ (s.table j).ticket ≠ (s.table i).ticket := by
    rintro j ⟨hpend, hne⟩
    have hj : Owes none s j := ⟨hpend, by simp⟩
    refine ⟨hj, fun hticket => hne ?_⟩
    rw [h.apart j i hj hself hticket]
  have henq : ∀ {t c'}, .enqueued t c' ∈ (s.emit (.found (s.table i).ticket (s.table i).call a)).log ↔
      .enqueued t c' ∈ s.log := by simp [Resolver.emit]
  have hfound : ∀ {t c' a'},
      .found t c' a' ∈ (s.emit (.found (s.table i).ticket (s.table i).call a)).log ↔
        .found t c' a' ∈ s.log ∨ t = (s.table i).ticket ∧ c' = (s.table i).call ∧ a' = a := by
    simp [Resolver.emit]
  refine ⟨?_, ?_, ?_, ?_, ?_, ?_, ?_, ?_, ?_⟩
  · rintro j hj
    cases hj
    exact hi
  · exact fun t c' ht => h.fresh t c' (henq.mp ht)
  · rw [Resolver.emit, List.filterMap_append]
    exact (List.append_nil _).symm ▸ h.distinct
  · intro t c' a' ht
    obtain ht | ⟨rfl, rfl, -⟩ := hfound.mp ht
    · exact henq.mpr (h.own t c' a' ht)
    · exact henq.mpr (h.mine i hself)
  · intro t
    rw [Resolver.emit, List.filter_append, List.length_append]
    by_cases ht : (s.table i).ticket = t
    · subst ht
      have hnone : s.log.filter (Event.answers (s.table i).ticket) = [] := by
        rw [List.filter_eq_nil_iff]
        intro ev hev hanswers
        cases ev with
        | found t c' a' =>
          rw [of_decide_eq_true hanswers] at hev
          exact h.open_ i hself c' a' hev
        | _ => cases hanswers
      rw [hnone, List.length_nil, Nat.zero_add]
      exact List.length_filter_le _ _
    · simpa [Event.answers, ht] using h.once t
  · exact fun j hj => henq.mpr (h.mine j (howes hj).1)
  · intro j hj c' a' hmem
    obtain hmem | ⟨hticket, -⟩ := hfound.mp hmem
    · exact h.open_ j (howes hj).1 c' a' hmem
    · exact (howes hj).2 hticket
  · exact fun j k hj hk => h.apart j k (howes hj).1 (howes hk).1
  · intro t c' ht hc
    obtain ⟨a', ha'⟩ | ⟨j, hj, rfl, rfl⟩ := h.kept t c' (henq.mp ht) hc
    · exact .inl ⟨a', hfound.mpr (.inl ha')⟩
    · by_cases hij : j = i
      · subst hij
        exact .inl ⟨a, hfound.mpr (.inr ⟨rfl, rfl, rfl⟩)⟩
      · refine .inr ⟨j, ⟨hj.1, fun hij' => hij ?_⟩, rfl, rfl⟩
        exact (Option.some.inj hij').symm

/-- There is no callback. -/
theorem Owed.silent (h : Owed none s) (hi : (s.table i).state.isPending)
    (hfound : (s.table i).call.found = none) : Owed (some i) s := by
  have howes : ∀ {j}, Owes (some i) s j → Owes none s j := fun hj => ⟨hj.1, by simp⟩
  refine ⟨?_, h.fresh, h.distinct, h.own, h.once, fun j hj => h.mine j (howes hj),
    fun j hj => h.open_ j (howes hj), fun j k hj hk => h.apart j k (howes hj) (howes hk), ?_⟩
  · rintro j hj
    cases hj
    exact hi
  · intro t c' ht hc
    refine (h.kept t c' ht hc).imp_right ?_
    rintro ⟨j, hj, hticket, hcall⟩
    refine ⟨j, ⟨hj.1, ?_⟩, hticket, hcall⟩
    intro hij
    cases hij
    rw [← hcall] at hc
    exact hc hfound

/-- A request is taken. -/
theorem Owed.enqueue (h : Owed x s) (hfree : (s.table i).state.isPending = false)
    (henq : Enqueued s i c s') : Owed x s' := by
  have hx : x ≠ some i := by
    intro hx
    have hbusy := h.busy i hx
    rw [hfree] at hbusy
    cases hbusy
  have hold : ∀ {j}, j ≠ i → (Owes x s' j ↔ Owes x s j) := by
    intro j hj
    rw [Owes, Owes, henq.others j hj]
  have hfound : ∀ {t c' a}, .found t c' a ∈ s'.log ↔ .found t c' a ∈ s.log := by
    simp [henq.log]
  have hmem : ∀ {t c'}, .enqueued t c' ∈ s'.log ↔
      .enqueued t c' ∈ s.log ∨ t = s.tickets ∧ c' = c := by simp [henq.log]
  have hfresh : ∀ {c'}, .enqueued s.tickets c' ∉ s.log := fun hin => lt_irrefl _ (h.fresh _ _ hin)
  have hnew : ∀ {j}, j ≠ i → Owes x s' j → (s'.table j).ticket ≠ s.tickets := by
    intro j hj ho hticket
    have hmine := h.mine j ((hold hj).mp ho)
    rw [henq.others j hj] at hticket
    rw [hticket] at hmine
    exact hfresh hmine
  refine ⟨?_, ?_, ?_, ?_, ?_, ?_, ?_, ?_, ?_⟩
  · intro j hj
    have hne : j ≠ i := by
      rintro rfl
      exact hx hj
    rw [henq.others j hne]
    exact h.busy j hj
  · intro t c' ht
    rw [henq.tickets]
    obtain ht | ⟨rfl, -⟩ := hmem.mp ht
    · exact Nat.lt_succ_of_lt (h.fresh t c' ht)
    · exact Nat.lt_succ_self _
  · rw [henq.log, List.filterMap_append]
    refine h.distinct.append (List.nodup_singleton _) ?_
    intro t ht ht'
    obtain rfl := List.mem_singleton.mp ht'
    obtain ⟨ev, hev, hrequest⟩ := List.mem_filterMap.mp ht
    cases ev with
    | enqueued t' c' =>
      cases hrequest
      exact hfresh hev
    | _ => cases hrequest
  · exact fun t c' a ha => hmem.mpr (.inl (h.own t c' a (hfound.mp ha)))
  · intro t
    rw [henq.log]
    simpa [Event.answers] using h.once t
  · intro j hj
    by_cases hij : j = i
    · subst hij
      rw [henq.ticket, henq.call]
      exact hmem.mpr (.inr ⟨rfl, rfl⟩)
    · have hmine := h.mine j ((hold hij).mp hj)
      rw [henq.others j hij]
      exact hmem.mpr (.inl hmine)
  · intro j hj c' a ha
    rw [hfound] at ha
    by_cases hij : j = i
    · subst hij
      rw [henq.ticket] at ha
      exact hfresh (h.own _ _ _ ha)
    · rw [henq.others j hij] at ha
      exact h.open_ j ((hold hij).mp hj) c' a ha
  · intro j k hj hk hticket
    by_cases hji : j = i
    · by_cases hki : k = i
      · rw [hji, hki]
      · rw [hji, henq.ticket] at hticket
        exact absurd hticket.symm (hnew hki hk)
    · by_cases hki : k = i
      · rw [hki, henq.ticket] at hticket
        exact absurd hticket (hnew hji hj)
      · rw [henq.others j hji, henq.others k hki] at hticket
        exact h.apart j k ((hold hji).mp hj) ((hold hki).mp hk) hticket
  · intro t c' ht hc
    obtain ht | ⟨rfl, rfl⟩ := hmem.mp ht
    · obtain ⟨a, ha⟩ | ⟨j, hj, hticket, hcall⟩ := h.kept t c' ht hc
      · exact .inl ⟨a, hfound.mpr ha⟩
      · have hij : j ≠ i := by
          rintro rfl
          have hpend := hj.1
          rw [hfree] at hpend
          cases hpend
        refine .inr ⟨j, (hold hij).mpr hj, ?_⟩
        rw [henq.others j hij]
        exact ⟨hticket, hcall⟩
    · exact .inr ⟨i, ⟨by rw [henq.state]; rfl, hx⟩, henq.ticket, henq.call⟩

theorem Owed.call (h : Owed x s) (hstep : CallStep s c s') : Owed x s' := by
  cases hstep with
  | rejected => exact h
  | numeric | known => exact h.emit ⟨fun _ => rfl, rfl⟩
  | enqueued hask hchoose henq => exact h.enqueue (chooseEntry_free hchoose) henq

theorem Owed.calls {calls : List Call} (h : Owed x s) (hcalls : runCalls s calls = .ok s') :
    Owed x s' := by
  refine foldlM_ok (I := Owed x) ?_ (Along.of_forall (fun _ _ _ => trivial) s) h hcalls
  intro s₁ c s₂ h₁ _ hc
  exact h₁.call (runCall_step hc)

/-- A callback and its calls, for an entry that still asks. -/
theorem Owed.callFound {a : Option IpAddr} {calls : List Call} (h : Owed none s)
    (hi : (s.table i).state.isPending) (hcalls : callFound s i a calls = .ok s') :
    Owed (some i) s' := by
  rw [Dns.callFound] at hcalls
  split at hcalls
  · next hfound =>
    cases hcalls
    exact h.silent hi hfound
  · exact (h.answer hi a).calls hcalls

/-! ### The timer -/

theorem Owed.check {calls : List Call} (h : Owed none s) (hstep : CheckStep s i calls s') :
    Owed none s' := by
  cases hstep with
  | keep he => exact h.keep he
  | expired hdone he =>
    apply h.setEntry (.inr ⟨rfl, _⟩) _
    · rw [hdone]
      rfl
    · rw [he]
      rfl
  | @timeout e s₁ hask he hsame hcalls =>
    have hpend : ((s.setEntry i e).table i).state.isPending := by
      rw [Resolver.setEntry_self, he]
      rfl
    exact ((h.keep hsame).callFound hpend hcalls).setEntry (.inl rfl) rfl

theorem Owed.tmr {calls : Index → List Call} (h : Owed none s) (htmr : dnsTmr s calls = .ok s') :
    Owed none s' := by
  refine foldlM_ok (I := Owed none) ?_ (Along.of_forall (fun _ _ _ => trivial) s) h htmr
  intro s₁ i s₂ h₁ _ hcheck
  exact h₁.check (dnsCheckEntry_step hcheck)

/-! ### Responses -/

/-- The entry is the completed one that was enqueued first. -/
def Oldest (s : Resolver) (i : Index) : Prop :=
  0 < age s i ∧ (∀ j, (s.table j).state = .done → age s j ≤ age s i ∧ (j < i → age s j < age s i)) ∨
    i.1 = 0 ∧ ∀ j, (s.table j).state = .done → age s j ≤ 0

/-- The call needs an entry, and this one is all that is left. -/
structure Taken (i : Index) (s : Resolver) (c : Call) : Prop where
  asks : Asks s c
  full : ∀ j, (s.table j).state ≠ .unused
  oldest : Oldest s i

theorem searchEntry_inr {is : List Index} {lseq : ℤ} {lseqi k : Index}
    (hsorted : is.Pairwise (· < ·)) (h : searchEntry s is lseq lseqi = .inr k) :
    (∀ j ∈ is, (s.table j).state ≠ .unused) ∧
      ((k = lseqi ∧ ∀ j ∈ is, (s.table j).state = .done → age s j ≤ lseq) ∨
        (lseq < age s k ∧ (s.table k).state = .done ∧ ∀ j ∈ is, (s.table j).state = .done →
          age s j ≤ age s k ∧ (j < k → age s j < age s k))) := by
  induction is generalizing lseq lseqi with
  | nil =>
    cases h
    exact ⟨by simp, .inl ⟨rfl, by simp⟩⟩
  | cons i is ih =>
    obtain ⟨hlt, hsorted⟩ := List.pairwise_cons.mp hsorted
    rw [searchEntry] at h
    split at h
    · cases h
    · next hused =>
      split at h
      · next hnext =>
        obtain ⟨hfull, hold⟩ := ih hsorted h
        refine ⟨List.forall_mem_cons.mpr ⟨hused, hfull⟩, .inr ?_⟩
        obtain ⟨rfl, hall⟩ | ⟨hpos, hdone, hall⟩ := hold
        · refine ⟨hnext.2, hnext.1, List.forall_mem_cons.mpr ⟨fun _ => ⟨le_rfl, fun hk => ?_⟩, ?_⟩⟩
          · exact absurd hk (lt_irrefl _)
          · exact fun j hj hdone => ⟨hall j hj hdone, fun hk => absurd hk (hlt j hj).not_gt⟩
        · refine ⟨hnext.2.trans hpos, hdone, List.forall_mem_cons.mpr ⟨fun _ => ?_, hall⟩⟩
          exact ⟨hpos.le, fun _ => hpos⟩
      · next hnext =>
        obtain ⟨hfull, hold⟩ := ih hsorted h
        have hle : (s.table i).state = .done → age s i ≤ lseq := by
          intro hdone
          exact not_lt.mp fun hpos => hnext ⟨hdone, hpos⟩
        refine ⟨List.forall_mem_cons.mpr ⟨hused, hfull⟩, hold.imp ?_ ?_⟩
        · rintro ⟨rfl, hall⟩
          exact ⟨rfl, List.forall_mem_cons.mpr ⟨hle, hall⟩⟩
        · rintro ⟨hpos, hk, hall⟩
          refine ⟨hpos, hk, List.forall_mem_cons.mpr ⟨fun hdone => ?_, hall⟩⟩
          have hage := (hle hdone).trans_lt hpos
          exact ⟨hage.le, fun _ => hage⟩

theorem chooseEntry_oldest (h : chooseEntry s = some i) (hdone : (s.table i).state = .done) :
    (∀ j, (s.table j).state ≠ .unused) ∧ Oldest s i := by
  rw [chooseEntry] at h
  split at h
  · next k hk =>
    cases h
    rw [searchEntry_inl hk] at hdone
    cases hdone
  · next k hk =>
    obtain rfl : k = i := by
      split at h
      · exact Option.some.inj h
      · cases h
    obtain ⟨hfull, hold⟩ := searchEntry_inr (List.pairwise_lt_finRange _) hk
    refine ⟨fun j => hfull j (List.mem_finRange j), ?_⟩
    obtain ⟨rfl, hall⟩ | ⟨hpos, -, hall⟩ := hold
    · exact .inr ⟨rfl, fun j => hall j (List.mem_finRange j)⟩
    · exact .inl ⟨hpos, fun j => hall j (List.mem_finRange j)⟩

/-- A call that does not take the entry leaves it alone. -/
theorem CallStep.done (hstep : CallStep s c s') (hdone : (s.table i).state = .done)
    (hspare : ¬ Taken i s c) : (s'.table i).state = .done := by
  cases hstep with
  | rejected | numeric | known => exact hdone
  | @enqueued k s' hask hchoose henq =>
    have hne : i ≠ k := by
      rintro rfl
      obtain ⟨hfull, hold⟩ := chooseEntry_oldest hchoose hdone
      exact hspare ⟨hask, hfull, hold⟩
    rw [henq.others i hne]
    exact hdone

/-- The state in which a callback is called after a response without an address. -/
def failing (s : Resolver) (i : Index) (msg : List UInt8) : Resolver :=
  (complete s i msg).emit (.found (s.table i).ticket (s.table i).call none)

/-- While a callback learns of a failure its entry is not used again. -/
def Op.Spares (s : Resolver) : Op → Prop
  | .recv msg behind calls => ∀ i, Processed s i msg → (s.table i).found ≠ none →
      (∀ ttl ipaddr, ¬ HasAddr (s.table i).name msg behind ttl ipaddr) →
        Along runCall (fun s' c => ¬ Taken i s' c) calls (failing s i msg)
  | _ => True

section response

variable {e : Entry} {a : Option IpAddr} {calls : List Call}

/-- A request is answered, and its entry completed. -/
theorem Owed.completed (h : Owed none s) (hi : (s.table i).state.isPending) (he : e.state = .done) :
    Owed none ((s.setEntry i e).emit (.found (s.table i).ticket (s.table i).call a)) := by
  have hset : Owed none ((s.emit (.found (s.table i).ticket (s.table i).call a)).setEntry i e) := by
    apply (h.answer hi a).setEntry (.inl rfl)
    rw [he]
    rfl
  exact hset

theorem Owed.completedSilent (h : Owed none s) (hi : (s.table i).state.isPending) (he : e.state = .done)
    (hfound : (s.table i).found = none) : Owed none (s.setEntry i e) := by
  apply (h.silent hi hfound).setEntry (.inl rfl)
  rw [he]
  rfl

/-- The callback is called for an entry that has just been completed. -/
theorem callFound_setEntry (hcall : e.call = (s.table i).call) (hticket : e.ticket = (s.table i).ticket) :
    Dns.callFound (s.setEntry i e) i a calls =
      match (s.table i).found with
      | none => .ok (s.setEntry i e)
      | some _ => runCalls
        ((s.setEntry i e).emit (.found (s.table i).ticket (s.table i).call a)) calls := by
  have hfound : e.found = (s.table i).found := congrArg Call.found hcall
  cases h : (s.table i).found with
  | none => simp only [Dns.callFound, Resolver.setEntry_self, hfound, h]
  | some f => simp only [Dns.callFound, Resolver.setEntry_self, hfound, h, hcall, hticket]

/-- The answer is handed over. -/
theorem Owed.success (h : Owed none s) (hi : (s.table i).state.isPending) (he : e.state = .done)
    (hcall : e.call = (s.table i).call) (hticket : e.ticket = (s.table i).ticket)
    (hcalls : Dns.callFound (s.setEntry i e) i a calls = .ok s') : Owed none s' := by
  rw [callFound_setEntry hcall hticket] at hcalls
  split at hcalls
  · next hfound =>
    cases hcalls
    exact h.completedSilent hi he hfound
  · exact (h.completed hi he).calls hcalls

/-- The failure is reported, by calls that leave the entry alone. -/
theorem Owed.failure (h : Owed none s) (hi : (s.table i).state.isPending) (he : e.state = .done)
    (hcall : e.call = (s.table i).call) (hticket : e.ticket = (s.table i).ticket)
    (hspare : (s.table i).found ≠ none → Along runCall (fun s' c => ¬ Taken i s' c) calls
      ((s.setEntry i e).emit (.found (s.table i).ticket (s.table i).call a)))
    (hcalls : Dns.callFound (s.setEntry i e) i a calls = .ok s') : Owed none (flush s' i) := by
  have hdone : Owed none s' ∧ (s'.table i).state = .done := by
    rw [callFound_setEntry hcall hticket] at hcalls
    split at hcalls
    · next hfound =>
      cases hcalls
      refine ⟨h.completedSilent hi he hfound, ?_⟩
      rw [Resolver.setEntry_self, he]
    · next f hfound =>
      have halong := hspare (by rw [hfound]; exact Option.some_ne_none f)
      refine foldlM_ok (I := fun s' => Owed none s' ∧ (s'.table i).state = .done) ?_ halong
        ⟨h.completed hi he, ?_⟩ hcalls
      · rintro s₁ c s₂ ⟨h₁, hdone₁⟩ hspare₁ hc
        exact ⟨h₁.call (runCall_step hc), (runCall_step hc).done hdone₁ hspare₁⟩
      · rw [Resolver.emit, Resolver.setEntry_self, he]
  apply hdone.1.setEntry (.inr ⟨rfl, _⟩) rfl
  rw [hdone.2]
  rfl

theorem Owed.finish {msg : List UInt8} {behind : Behind} (h : Owed none s)
    (hproc : Processed s i msg) (hspare : (Op.recv msg behind calls).Spares s)
    (hfinish : Dns.finish (complete s i msg) i calls (dnsAnswer (s.table i).name msg behind) = .ok s') :
    Owed none s' := by
  have hev : (Event.accepted (s.table i).name msg).Plain := ⟨fun _ => rfl, rfl⟩
  have hacc := h.emit hev
  have hi : ((s.emit (.accepted (s.table i).name msg)).table i).state.isPending := by
    rw [Resolver.emit, hproc.asking]
    rfl
  generalize hr : dnsAnswer (s.table i).name msg behind = r at hfinish
  cases r with
  | none => cases hfinish
  | some r =>
    cases r with
    | none =>
      obtain ⟨s₁, hcalls, hflush⟩ := bind_ok hfinish
      cases hflush
      refine hacc.failure (e := { s.table i with
        state := .done, err := (dnsHdr msg).flags2 &&& DNS_FLAG2_ERR_MASK }) hi rfl rfl rfl
        (fun hfound => hspare i hproc hfound ?_) hcalls
      intro ttl ipaddr haddr
      rw [dnsAnswer_eq_some.mpr haddr] at hr
      cases hr
    | some r =>
      rw [finish_addr] at hfinish
      exact hacc.success (e := { s.table i with
        state := .done, err := (dnsHdr msg).flags2 &&& DNS_FLAG2_ERR_MASK,
        ttl := min r.1 DNS_MAX_TTL, ipaddr := r.2 }) hi rfl rfl rfl hfinish

end response

theorem Owed.recv {msg : List UInt8} {behind : Behind} {calls : List Call} (h : Owed none s)
    (hspare : (Op.recv msg behind calls).Spares s) (hrecv : dnsRecv s msg behind calls = .ok s') :
    Owed none s' := by
  by_cases hproc : ∃ i, Processed s i msg
  · obtain ⟨i, hproc⟩ := hproc
    rw [hproc.exec] at hrecv
    exact h.finish hproc hspare hrecv
  · rw [dnsRecv_dropped fun i hi => hproc ⟨i, hi⟩] at hrecv
    cases hrecv
    exact h

theorem Owed.exec {op : Op} (h : Owed none s) (hspare : op.Spares s) (hexec : op.exec s = .ok s') :
    Owed none s' := by
  cases op with
  | gethostbyname c => exact h.call (runCall_step hexec)
  | recv msg behind calls => exact h.recv hspare hexec
  | tmr calls => exact h.tmr hexec
  | setserver numdns dnsserver =>
    cases hexec
    rw [dnsSetserver]
    split
    · exact ⟨h.busy, h.fresh, h.distinct, h.own, h.once, h.mine, h.open_, h.apart, h.kept⟩
    · exact h

theorem Resolver.Start.owed (h : s.Start) : Owed none s := by
  have hnot : ∀ i, ¬ Owes none s i := by
    rintro i ⟨hpend, -⟩
    rw [h.table i] at hpend
    cases hpend
  refine ⟨fun i hi => (nomatch hi), ?_, ?_, ?_, ?_, fun i hi => absurd hi (hnot i),
    fun i hi => absurd hi (hnot i), fun i j hi => absurd hi (hnot i), ?_⟩
  · simp [h.log]
  · simp [h.log]
  · simp [h.log]
  · simp [h.log]
  · simp [h.log]

/-- Every request is answered once, or it is still in the table. -/
theorem requests_answered (h : dns.ReachableWhile (fun s op => op.Spares s) s) : LifeCycle s := by
  have howed : Owed none s := by
    apply h.invariant (I := Owed none)
    · exact fun s hs => hs.owed
    · exact fun s op s' hs hop hexec => hs.exec hop hexec
  exact howed.lifeCycle

/-! ### A request that is lost -/

/-- One letter. -/
def letter (n : Fin 20) : CString := ⟨[.ofNat (0x61 + n)], by revert n; decide⟩

def callLetter (n : Fin 20) : Call := ⟨letter n, some 1, n⟩

/-- The request for the first letter -/
abbrev firstCall : Call := callLetter 0

/-- "No such name", for the request 0. -/
def noSuchName : List UInt8 :=
  [0, 0, 0x80, 3, 0, 1, 0, 0, 0, 0, 0, 0] ++ [1, 0x61, 0, 0, 1, 0, 1] ++ List.replicate 7 0

/-- The table is full, and the callback of the first request asks for one name more. -/
def fullTable : List Op :=
  (((List.finRange 20).take 16).map fun n => .gethostbyname (callLetter n)) ++
    [.recv noSuchName nothing [callLetter 16]]

/-- The request is in the log, but neither is its answer there nor is it in the table. -/
def lost (t : ℕ) (c : Call) (s : Resolver) : Bool :=
  .enqueued t c ∈ s.log ∧ !s.log.any (Event.answers t) ∧
    ∀ i, (s.table i).ticket = t → (s.table i).state.isPending = false

set_option maxRecDepth 20000 in
theorem fullTable_lost :
    ((fullTable.foldlM Op.exec emptyResolver).toOption.map (lost 16 (callLetter 16))) = some true := by
  decide

theorem requests_lost : ∃ s, dns.Reachable s ∧ ¬ LifeCycle s := by
  obtain ⟨s, hs, hlost⟩ := Option.map_eq_some_iff.mp fullTable_lost
  refine ⟨s, ?_, fun h => ?_⟩
  · exact reachable_foldlM (f := Op.exec) (fun _ _ _ h => h) (.of_forall (fun _ _ _ => trivial) _)
      (System.Reachable.of_start emptyResolver_start) (toOption_eq_some hs)
  · obtain ⟨hmem, hnone, hfree⟩ := of_decide_eq_true hlost
    obtain ⟨a, ha⟩ | ⟨i, hpend, hticket, -⟩ := h.kept 16 (callLetter 16) hmem (by decide)
    · have hany : s.log.any (Event.answers 16) := List.any_eq_true.mpr ⟨_, ha, rfl⟩
      rw [hany] at hnone
      cases hnone
    · rw [hfree i hticket] at hpend
      cases hpend

/-- A callback that asks again while there is an unused entry. -/
def askAgain : List Op :=
  [.gethostbyname (callLetter 0), .recv noSuchName nothing [callLetter 1]]

theorem askAgain_pending : (askAgain.foldlM Op.exec emptyResolver).toOption.map (fun s =>
    decide ((s.table ⟨0, by decide⟩).state = .unused ∧ (s.table ⟨1, by decide⟩).state = .asking ∧
      (s.table ⟨1, by decide⟩).call = callLetter 1)) = some true := by
  decide

theorem requests_answered_askAgain : ∃ s, (s.table ⟨1, by decide⟩).call = callLetter 1 ∧ LifeCycle s := by
  obtain ⟨s, hs, hpending⟩ := Option.map_eq_some_iff.mp askAgain_pending
  refine ⟨s, (of_decide_eq_true hpending).2.2, requests_answered ?_⟩
  refine reachable_foldlM (f := Op.exec) (fun _ _ _ h => h) ?_ ⟨[], .start emptyResolver_start⟩
    (toOption_eq_some hs)
  refine ⟨trivial, fun s₁ hs₁ => ⟨?_, fun _ _ => trivial⟩⟩
  intro i hproc _ _
  refine ⟨fun htaken => ?_, fun _ _ => trivial⟩
  have hi : i = ⟨0, by decide⟩ := Fin.ext hproc.id.symm
  cases hs₁
  subst hi
  exact htaken.full ⟨5, by decide⟩ rfl

end QuietLwip.Dns
