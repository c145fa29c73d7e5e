import QuietLwip.Udp.Pcbs
import QuietLwip.Foundation.Sweep
import Mathlib.Order.Interval.Finset.Nat

/-!
# The list of bound pcbs

What each function leaves of the list `udp_pcbs`. The pcbs on it are those that are in use and
have a port. A list is no longer than the pool, so every search ends, and there are more ephemeral
ports than pcbs, so one is always found.
-/

namespace QuietLwip.Udp

open Links Ip

namespace Stack

variable {t t' : Stack} {l : List ℕ} {m n port tries : ℕ} {ip : IpAddr} {err : Err}

/-- The pcb is in use and has a port. -/
def Bound (t : Stack) (n : ℕ) : Prop := t.live n = true ∧ (t.pcb n).localPort ≠ 0

/-- The list holds the pcbs `l`: each bound pcb of the pool, and no other. -/
structure Listed (t : Stack) (l : List ℕ) : Prop where
  list : ListAt t.next t.pcbs l
  mem : ∀ n, n ∈ l ↔ t.Bound n
  pooled : ∀ n, t.live n = true → n < mempNumUdpPcb
  port : udpLocalPortRangeStart ≤ t.port ∧ t.port ≤ udpLocalPortRangeEnd

theorem Listed.length_le (h : t.Listed l) : l.length ≤ mempNumUdpPcb := by
  have hsub : l ⊆ List.range mempNumUdpPcb := fun n hn =>
    List.mem_range.mpr (h.pooled n ((h.mem n).mp hn).1)
  calc l.length ≤ (List.range mempNumUdpPcb).length :=
        (List.subperm_of_subset h.list.nodup hsub).length_le
    _ = mempNumUdpPcb := List.length_range

/-- A search returns, with a pcb of the list that satisfies `p` or with none. -/
theorem Listed.find (h : t.Listed l) (p : UdpPcb → Bool) :
    (t.find p = some none ∧ ∀ m ∈ l, p (t.pcb m) = false) ∨
      ∃ front n back, t.find p = some (some (front.getLast?, n)) ∧ l = front ++ n :: back ∧
        p (t.pcb n) = true := by
  have hends : (t.find p).isSome := h.list.findFrom_isSome h.length_le
  obtain ⟨found, hfound⟩ := Option.isSome_iff_exists.mp hends
  cases found with
  | none => exact .inl ⟨hfound, h.list.of_findFrom_none hfound⟩
  | some found =>
    obtain ⟨prev, n⟩ := found
    obtain ⟨front, back, hl, hprev⟩ := h.list.of_findFrom hfound
    rw [Option.or_none] at hprev
    refine .inr ⟨front, n, back, ?_, hl, findFrom_holds (p := fun n => p (t.pcb n)) hfound⟩
    rw [← hprev]
    exact hfound

/-! ### Ephemeral ports -/

/-- Every port of the range is one of those tried. -/
theorem exists_nextPort {p q : ℕ} (hp : udpLocalPortRangeStart ≤ p ∧ p ≤ udpLocalPortRangeEnd)
    (hq : udpLocalPortRangeStart ≤ q ∧ q ≤ udpLocalPortRangeEnd) :
    ∃ k < 16384, nextPort^[k + 1] p = q := by
  obtain ⟨k, hk, hq⟩ := Sweep.exists_turn hp hq
  exact ⟨k, Nat.lt_succ_of_le hk, hq⟩

theorem nextPort_range {p : ℕ} (hp : udpLocalPortRangeStart ≤ p ∧ p ≤ udpLocalPortRangeEnd) :
    udpLocalPortRangeStart ≤ nextPort p ∧ nextPort p ≤ udpLocalPortRangeEnd :=
  Sweep.turn_range hp

/-- The search ends with a port that no pcb has, or with 0 when each port tried has one. -/
theorem Listed.newPortFrom (h : t.Listed l) (tries : ℕ) {p : ℕ}
    (hp : udpLocalPortRangeStart ≤ p ∧ p ≤ udpLocalPortRangeEnd) :
    ∃ answer q, t.newPortFrom tries p = some (answer, q) ∧
      (udpLocalPortRangeStart ≤ q ∧ q ≤ udpLocalPortRangeEnd) ∧
      ((answer = 0 ∧ ∀ k < tries, ∃ m ∈ l, (t.pcb m).localPort = nextPort^[k + 1] p) ∨
        answer = q ∧ ∀ m ∈ l, (t.pcb m).localPort ≠ answer) := by
  induction tries generalizing p with
  | zero => exact ⟨0, p, rfl, hp, .inl ⟨rfl, fun k hk => absurd hk (Nat.not_lt_zero k)⟩⟩
  | succ tries ih =>
    obtain ⟨hfind, hfree⟩ | ⟨front, m, back, hfind, hl, hm⟩ :=
      h.find fun pcb => pcb.localPort == nextPort p
    · refine ⟨nextPort p, nextPort p, ?_, nextPort_range hp, .inr ⟨rfl, fun m hm => ?_⟩⟩
      · rw [Stack.newPortFrom, hfind]
        rfl
      · exact ne_of_beq_false (hfree m hm)
    · obtain ⟨answer, q, hrest, hq, hcases⟩ := ih (nextPort_range hp)
      refine ⟨answer, q, ?_, hq, hcases.imp_left ?_⟩
      · rw [Stack.newPortFrom, hfind]
        exact hrest
      · rintro ⟨rfl, hused⟩
        refine ⟨rfl, fun k hk => ?_⟩
        cases k with
        | zero =>
          refine ⟨m, ?_, eq_of_beq hm⟩
          rw [hl]
          exact List.mem_append_right _ List.mem_cons_self
        | succ k => exact hused k (Nat.lt_of_succ_lt_succ hk)

/-- When no port is found, every port of the range has a pcb. -/
theorem Listed.udpNewPort (h : t.Listed l) :
    ∃ answer q, t.udpNewPort = some (answer, { t with port := q }) ∧
      (udpLocalPortRangeStart ≤ q ∧ q ≤ udpLocalPortRangeEnd) ∧
      ((answer = 0 ∧ ∀ p, udpLocalPortRangeStart ≤ p → p ≤ udpLocalPortRangeEnd →
          ∃ m ∈ l, (t.pcb m).localPort = p) ∨
        answer = q ∧ ∀ m ∈ l, (t.pcb m).localPort ≠ answer) := by
  obtain ⟨answer, q, hsearch, hq, hcases⟩ :=
    h.newPortFrom (udpLocalPortRangeEnd - udpLocalPortRangeStart + 1) h.port
  refine ⟨answer, q, ?_, hq, hcases.imp_left ?_⟩
  · rw [Stack.udpNewPort, hsearch]
    rfl
  · rintro ⟨rfl, hused⟩
    refine ⟨rfl, fun p hlo hhi => ?_⟩
    obtain ⟨k, hk, rfl⟩ := exists_nextPort h.port ⟨hlo, hhi⟩
    exact hused k hk

/-- There are more ports than pcbs. -/
theorem Listed.exists_free (h : t.Listed l) : ∃ p, udpLocalPortRangeStart ≤ p ∧
    p ≤ udpLocalPortRangeEnd ∧ ∀ m ∈ l, (t.pcb m).localPort ≠ p := by
  have hcard : (l.map fun m => (t.pcb m).localPort).toFinset.card <
      (Finset.Icc udpLocalPortRangeStart udpLocalPortRangeEnd).card := by
    calc (l.map fun m => (t.pcb m).localPort).toFinset.card
        ≤ (l.map fun m => (t.pcb m).localPort).length := List.toFinset_card_le _
      _ = l.length := List.length_map ..
      _ ≤ mempNumUdpPcb := h.length_le
      _ < (Finset.Icc udpLocalPortRangeStart udpLocalPortRangeEnd).card := by
        rw [Nat.card_Icc]
        decide
  obtain ⟨p, hp, hfree⟩ := Finset.exists_mem_notMem_of_card_lt_card hcard
  obtain ⟨hlo, hhi⟩ := Finset.mem_Icc.mp hp
  refine ⟨p, hlo, hhi, fun m hm heq => hfree ?_⟩
  rw [List.mem_toFinset, ← heq]
  exact List.mem_map_of_mem hm

/-! ### Binding -/

/-- The pcb `m` keeps `n` from the address and the port. -/
def refuses (t : Stack) (n : ℕ) (ip : IpAddr) (port m : ℕ) : Bool :=
  m ≠ n && !(t.pcb n).reuseaddr && !(t.pcb m).reuseaddr && (t.pcb m).localPort = port &&
    overlap (t.pcb m).localIp ip

theorem refuses_self : t.refuses n ip port n = false := by
  simp [refuses]

/-- What the loop of `udp_bind` finds from `cursor` on. -/
theorem bindScan_eq (n : ℕ) (ip : IpAddr) (port : ℕ) {cursor : Option ℕ} {fuel : ℕ} {rebind : Bool}
    (hl : ListAt t.next cursor l) (hfuel : l.length ≤ fuel) (hrebind : rebind = true → n ∉ l) :
    t.bindScan n ip port fuel cursor rebind =
      some (if l.any (t.refuses n ip port) then .error .use else .ok (rebind || decide (n ∈ l))) := by
  have hnodup := hl.nodup
  induction l generalizing cursor fuel rebind with
  | nil =>
    obtain rfl : cursor = none := hl
    cases fuel <;> simp [bindScan]
  | cons m l ih =>
    obtain ⟨rfl, hl⟩ := hl
    obtain ⟨hm, hrest⟩ := List.nodup_cons.mp hnodup
    cases fuel with
    | zero => exact absurd hfuel (Nat.not_succ_le_zero _)
    | succ fuel =>
      replace hfuel := Nat.le_of_succ_le_succ hfuel
      rw [bindScan]
      by_cases hnm : n = m
      · subst hnm
        have hfalse : rebind = false := by
          by_contra h
          exact hrebind (by simpa using h) List.mem_cons_self
        rw [if_pos rfl, hfalse, if_neg Bool.false_ne_true, ih hl hfuel (fun _ => hm) hrest,
          List.any_cons, refuses_self, Bool.false_or]
        simp
      · replace ih := ih hl hfuel (fun h hn => hrebind h (List.mem_cons_of_mem _ hn)) hrest
        have hmem : decide (n ∈ m :: l) = decide (n ∈ l) := by simp [hnm]
        rw [if_neg hnm, List.any_cons, hmem, ih]
        by_cases hreuse : (!(t.pcb n).reuseaddr && !(t.pcb m).reuseaddr) = true
        · rw [if_pos hreuse]
          by_cases hheld : ((t.pcb m).localPort = port && overlap (t.pcb m).localIp ip) = true
          · rw [if_pos hheld]
            have hthis : t.refuses n ip port m = true := by
              simp only [Bool.and_eq_true, Bool.not_eq_true', decide_eq_true_eq] at hreuse hheld
              simp [refuses, Ne.symm hnm, hreuse, hheld]
            rw [hthis, Bool.true_or, if_pos rfl]
          · rw [if_neg hheld]
            have hthis : t.refuses n ip port m = false := by
              simp only [Bool.and_eq_true, decide_eq_true_eq, not_and] at hheld
              simp only [refuses, Bool.and_eq_false_iff]
              by_cases hport : (t.pcb m).localPort = port
              · exact .inr (Bool.eq_false_iff.mpr (hheld hport))
              · exact .inl (.inr (by simpa using hport))
            rw [hthis, Bool.false_or]
        · rw [if_neg hreuse]
          have hthis : t.refuses n ip port m = false := by
            simp only [Bool.and_eq_true, Bool.not_eq_true', not_and] at hreuse
            simp only [refuses, Bool.and_eq_false_iff]
            by_cases hn : (t.pcb n).reuseaddr = true
            · exact .inl (.inl (.inl (.inr (by simp [hn]))))
            · exact .inl (.inl (.inr (by simpa using hreuse (by simpa using hn))))
          rw [hthis, Bool.false_or]

/-- The pcb `n` is bound to the address and the port; nothing else has changed. -/
structure BoundTo (t : Stack) (n : ℕ) (ip : IpAddr) (port : ℕ) (t' : Stack) : Prop where
  live : t'.live = t.live
  pcb : t'.pcb = Function.update t.pcb n { t.pcb n with localIp := ip, localPort := port }

theorem bindTo_boundTo (t : Stack) (n : ℕ) (ip : IpAddr) (port : ℕ) (rebind : Bool) (q : ℕ) :
    t.BoundTo n ip port (({ t.modify n fun pcb => { pcb with localIp := ip } with port := q } :
      Stack).bindTo n port rebind) := by
  cases rebind
  all_goals
    refine ⟨rfl, ?_⟩
    simp [bindTo, modify, insert]

theorem BoundTo.self (h : t.BoundTo n ip port t') :
    t'.pcb n = { t.pcb n with localIp := ip, localPort := port } := by
  rw [h.pcb, Function.update_self]

theorem BoundTo.other (h : t.BoundTo n ip port t') (hm : m ≠ n) : t'.pcb m = t.pcb m := by
  rw [h.pcb, Function.update_of_ne hm]

theorem BoundTo.bound (h : t.BoundTo n ip port t') (hn : t.live n = true) (hport : port ≠ 0) :
    t'.Bound m ↔ m = n ∨ t.Bound m := by
  by_cases hm : m = n
  · subst hm
    simp [Bound, h.live, h.self, hn, hport]
  · simp [Bound, h.live, h.other hm, hm]

/-- The list once the pcb is on it. -/
theorem Listed.bindTo (h : t.Listed l) (hn : t.live n = true) (ip : IpAddr) (hport : port ≠ 0)
    {q : ℕ}
    (hq : udpLocalPortRangeStart ≤ q ∧ q ≤ udpLocalPortRangeEnd) :
    ∃ l', (({ t.modify n fun pcb => { pcb with localIp := ip } with port := q } : Stack).bindTo n
      port (decide (n ∈ l))).Listed l' := by
  by_cases hmem : n ∈ l
  · rw [decide_eq_true hmem]
    refine ⟨l, h.list, fun m => ?_, h.pooled, hq⟩
    have hbound := (bindTo_boundTo t n ip port true q).bound (m := m) hn hport
    rw [h.mem]
    refine Iff.trans ?_ hbound.symm
    exact ⟨.inr, fun hm => hm.elim (fun heq => heq ▸ (h.mem n).mp hmem) id⟩
  · rw [decide_eq_false hmem]
    refine ⟨n :: l, h.list.push hmem, fun m => ?_, h.pooled, hq⟩
    have hbound := (bindTo_boundTo t n ip port false q).bound (m := m) hn hport
    rw [List.mem_cons, h.mem]
    exact hbound.symm

/-- What `udp_bind` does: it fails and leaves everything, or the pcb gets the address and a port
that no pcb keeps from it. -/
theorem Listed.udpBind (h : t.Listed l) (hn : t.live n = true) (ip : IpAddr) (port : ℕ) :
    (∃ m ∈ l, t.refuses n ip port m = true ∧ t.udpBind n ip port = some (t, .use)) ∨
      ∃ t' p l', t.udpBind n ip port = some (t', .ok) ∧ t'.Listed l' ∧ t.BoundTo n ip p t' ∧
        p ≠ 0 ∧ (port ≠ 0 → p = port) ∧ (port = 0 → ∀ m ∈ l, (t.pcb m).localPort ≠ p) ∧
        ∀ m ∈ l, t.refuses n ip port m = false := by
  have hscan := bindScan_eq n ip port h.list h.length_le (fun h => absurd h Bool.false_ne_true)
  by_cases hany : l.any (t.refuses n ip port) = true
  · rw [if_pos hany] at hscan
    obtain ⟨m, hm, href⟩ := List.any_eq_true.mp hany
    refine .inl ⟨m, hm, href, ?_⟩
    rw [Stack.udpBind, hscan]
    rfl
  · rw [if_neg hany, Bool.false_or] at hscan
    have hfree : ∀ m ∈ l, t.refuses n ip port m = false := by
      intro m hm
      by_contra href
      exact hany (List.any_eq_true.mpr ⟨m, hm, by simpa using href⟩)
    right
    by_cases hport : port = 0
    · have hlist : ({ t with pcb := Function.update t.pcb n { t.pcb n with localIp := ip } } :
          Stack).Listed l := by
        refine ⟨h.list, fun m => ?_, h.pooled, h.port⟩
        rw [h.mem]
        by_cases hm : m = n
        · subst hm
          simp [Bound]
        · simp [Bound, hm]
      obtain ⟨answer, q, hnew, hq, ⟨rfl, hused⟩ | ⟨rfl, hunused⟩⟩ := hlist.udpNewPort
      · obtain ⟨p, hlo, hhi, hp⟩ := hlist.exists_free
        obtain ⟨m, hm, heq⟩ := hused p hlo hhi
        exact absurd heq (hp m hm)
      · have hne : answer ≠ 0 := by
          simp only [udpLocalPortRangeStart] at hq
          omega
        obtain ⟨l', hl'⟩ := h.bindTo hn ip hne hq
        refine ⟨_, answer, l', ?_, hl', bindTo_boundTo .., hne, fun h => absurd hport h, ?_, hfree⟩
        · rw [Stack.udpBind, hscan]
          simp only [Option.bind_some, if_pos hport]
          rw [modify, hnew, Option.map_some, if_neg hne]
        · intro _ m hm
          have hthis := hunused m hm
          by_cases hmn : m = n
          · subst hmn
            simpa using hthis
          · simpa [hmn] using hthis
    · obtain ⟨l', hl'⟩ := h.bindTo hn ip hport h.port
      refine ⟨_, port, l', ?_, hl', bindTo_boundTo .., hport, fun _ => rfl, fun h => absurd h hport,
        hfree⟩
      rw [Stack.udpBind, hscan]
      simp only [Option.bind_some, if_neg hport]
      rfl
/-! ### Connecting -/

/-- A change of a pcb that leaves its port leaves the list. -/
theorem Listed.modify (h : t.Listed l) (n : ℕ) {f : UdpPcb → UdpPcb}
    (hf : ∀ pcb, (f pcb).localPort = pcb.localPort) : (t.modify n f).Listed l := by
  refine ⟨h.list, fun m => ?_, h.pooled, h.port⟩
  rw [h.mem]
  by_cases hm : m = n
  · subst hm
    simp [Bound, Stack.modify, hf]
  · simp [Bound, Stack.modify, hm]

/-- Binding to any port does not fail. -/
theorem Listed.bindImplicitly (h : t.Listed l) (hn : t.live n = true) :
    ((t.pcb n).localPort ≠ 0 ∧ t.bindImplicitly n = some (t, .ok)) ∨
      (t.pcb n).localPort = 0 ∧ ∃ t' p l', t.bindImplicitly n = some (t', .ok) ∧ t'.Listed l' ∧
        t.BoundTo n (t.pcb n).localIp p t' ∧ p ≠ 0 ∧ ∀ m ∈ l, (t.pcb m).localPort ≠ p := by
  by_cases hport : (t.pcb n).localPort = 0
  · refine .inr ⟨hport, ?_⟩
    rw [Stack.bindImplicitly, if_pos hport, hport]
    obtain ⟨m, hm, href, -⟩ | ⟨t', p, l', hbind, hl', hbound, hp, -, hfree, -⟩ :=
      h.udpBind hn (t.pcb n).localIp 0
    · have hzero : (t.pcb m).localPort = 0 := by
        simp only [refuses, Bool.and_eq_true, decide_eq_true_eq] at href
        exact href.1.2
      exact absurd hzero ((h.mem m).mp hm).2
    · exact ⟨t', p, l', hbind, hl', hbound, hp, hfree rfl⟩
  · refine .inl ⟨hport, ?_⟩
    rw [Stack.bindImplicitly, if_neg hport]

/-- `udp_connect` of a pcb that is on the list. -/
theorem Listed.connected (h : t.Listed l) (hn : n ∈ l) :
    (findFrom t.next (fun m => n == m) mempNumUdpPcb none t.pcbs).map Option.isSome = some true := by
  have hends : (findFrom t.next (fun m => n == m) mempNumUdpPcb none t.pcbs).isSome :=
    h.list.findFrom_isSome h.length_le
  obtain ⟨found, hfound⟩ := Option.isSome_iff_exists.mp hends
  cases found with
  | none => exact absurd rfl (ne_of_beq_false (h.list.of_findFrom_none hfound n hn))
  | some found =>
    rw [hfound]
    rfl

/-- What `udp_connect` does: the pcb is bound unless it was, and gets the remote address. -/
theorem Listed.udpConnect (h : t.Listed l) (hn : t.live n = true) (ip : IpAddr) (port : ℕ) :
    ∃ t₁ l', t.bindImplicitly n = some (t₁, .ok) ∧ t₁.Listed l' ∧ t.udpConnect n ip port =
      some (t₁.modify n fun pcb => { pcb with remoteIp := ip, remotePort := port, connected := true },
        .ok) := by
  have hsome : ∃ t₁ l', t.bindImplicitly n = some (t₁, .ok) ∧ t₁.Listed l' ∧ n ∈ l' := by
    obtain ⟨hport, hbind⟩ | ⟨-, t₁, p, l', hbind, hl', hbound, hp, -⟩ := h.bindImplicitly hn
    · exact ⟨t, l, hbind, h, (h.mem n).mpr ⟨hn, hport⟩⟩
    · exact ⟨t₁, l', hbind, hl', (hl'.mem n).mpr ((hbound.bound hn hp).mpr (.inl rfl))⟩
  obtain ⟨t₁, l', hbind, hl', hmem⟩ := hsome
  refine ⟨t₁, l', hbind, hl', ?_⟩
  obtain ⟨found, hfound, hyes⟩ := Option.map_eq_some_iff.mp
    ((hl'.modify n (f := fun pcb => { pcb with remoteIp := ip, remotePort := port, connected := true })
      fun _ => rfl).connected hmem)
  rw [Stack.udpConnect, hbind]
  simp only [Option.bind_some, if_pos, hfound, Option.map_some, hyes]

/-! ### Removal and reordering -/

/-- A pcb that is not on the list is not pointed to. -/
theorem removeFrom_of_not_mem {next : ℕ → Option ℕ} {cursor : Option ℕ} {fuel : ℕ}
    (hl : ListAt next cursor l) (hfuel : l.length ≤ fuel) (hn : n ∉ l) :
    removeFrom n fuel next cursor = some next := by
  induction l generalizing cursor fuel with
  | nil =>
    obtain rfl : cursor = none := hl
    cases fuel <;> rfl
  | cons m l ih =>
    obtain ⟨rfl, hl⟩ := hl
    cases fuel with
    | zero => exact absurd hfuel (Nat.not_succ_le_zero _)
    | succ fuel =>
      have hnext : next m ≠ some n := by
        intro hnext
        rw [hnext] at hl
        exact hn (List.mem_cons_of_mem _ (List.mem_of_mem_head? hl.head))
      rw [removeFrom, if_neg hnext]
      exact ih hl (Nat.le_of_succ_le_succ hfuel) fun h => hn (List.mem_cons_of_mem _ h)

/-- The loop of `udp_remove` unlinks a pcb that is behind another one. -/
theorem removeFrom_eq {next : ℕ → Option ℕ} {cursor : Option ℕ} {fuel : ℕ} {front back : List ℕ}
    (hl : ListAt next cursor (front ++ m :: n :: back))
    (hfuel : (front ++ m :: n :: back).length ≤ fuel) :
    removeFrom n fuel next cursor = some (Function.update next m (next n)) := by
  have hnodup := hl.nodup
  induction front generalizing cursor fuel with
  | nil =>
    obtain ⟨rfl, hnext, hback⟩ := hl
    cases fuel with
    | zero => exact absurd hfuel (Nat.not_succ_le_zero _)
    | succ fuel =>
      obtain ⟨hm, hrest⟩ := List.nodup_cons.mp hnodup
      rw [removeFrom, if_pos hnext, Function.update_self]
      refine removeFrom_of_not_mem (hback.update ?_ _) ?_ (List.nodup_cons.mp hrest).1
      · exact fun h => hm (List.mem_cons_of_mem _ h)
      · simp only [List.nil_append, List.length_cons] at hfuel
        omega
  | cons b front ih =>
    obtain ⟨rfl, hrest⟩ := hl
    cases fuel with
    | zero => exact absurd hfuel (Nat.not_succ_le_zero _)
    | succ fuel =>
      have hnext : next b ≠ some n := by
        intro hnext
        -- the pcb would be the first one of the rest, and come again behind `m`
        have hhead := hrest.head.trans hnext
        have htail := (List.nodup_cons.mp hnodup).2
        cases front with
        | nil =>
          obtain rfl : m = n := Option.some.inj hhead
          exact (List.nodup_cons.mp htail).1 List.mem_cons_self
        | cons c front =>
          obtain rfl : c = n := Option.some.inj hhead
          exact (List.nodup_cons.mp htail).1 (by simp)
      rw [removeFrom, if_neg hnext]
      exact ih hrest (Nat.le_of_succ_le_succ hfuel) (List.nodup_cons.mp hnodup).2

/-- `udp_remove` takes the pcb off the list. -/
theorem Listed.udpRemove (h : t.Listed l) (n : ℕ) :
    ∃ t', t.udpRemove n = some t' ∧ t'.Listed (l.erase n) ∧ t'.pcb = t.pcb ∧
      t'.live = Function.update t.live n false := by
  have hsome : ∃ t₁, t.unlink n = some t₁ ∧ ListAt t₁.next t₁.pcbs (l.erase n) ∧ t₁.pcb = t.pcb ∧
      t₁.live = t.live ∧ t₁.port = t.port := by
    by_cases hhead : t.pcbs = some n
    · refine ⟨{ t with pcbs := t.next n }, if_pos hhead, ?_, rfl, rfl, rfl⟩
      cases l with
      | nil => cases h.list.symm.trans hhead
      | cons m l =>
        obtain rfl : m = n := Option.some.inj (h.list.1.symm.trans hhead)
        rw [List.erase_cons_head]
        exact h.list.2
    · by_cases hn : n ∈ l
      · obtain ⟨front, back, rfl⟩ := List.append_of_mem hn
        obtain rfl | ⟨front, m, rfl⟩ := front.eq_nil_or_concat
        · exact absurd h.list.1 hhead
        · rw [List.concat_eq_append] at h ⊢
          have hlist := h.list
          have hlen := h.length_le
          rw [List.append_assoc] at hlist hlen
          refine ⟨{ t with next := Function.update t.next m (t.next n) }, ?_, ?_, rfl, rfl, rfl⟩
          · rw [unlink, if_neg hhead, removeFrom_eq hlist hlen]
            rfl
          · rw [erase_of_nodup h.list.nodup, List.append_assoc]
            exact hlist.unlink
      · refine ⟨t, ?_, ?_, rfl, rfl, rfl⟩
        · rw [unlink, if_neg hhead, removeFrom_of_not_mem h.list h.length_le hn]
          rfl
        · rw [List.erase_of_not_mem hn]
          exact h.list
  obtain ⟨t₁, hunlink, hlist, hpcb, hlive, hport⟩ := hsome
  refine ⟨{ t₁ with live := Function.update t₁.live n false }, ?_, ⟨hlist, fun m => ?_, fun m hm => ?_, ?_⟩,
    hpcb, congrArg (Function.update · n false) hlive⟩
  · rw [Stack.udpRemove, hunlink]
    rfl
  · rw [h.list.nodup.mem_erase_iff, h.mem]
    by_cases hm : m = n
    · subst hm
      simp [Bound]
    · simp [Bound, hm, hpcb, hlive]
  · by_cases hmn : m = n
    · subst hmn
      simp at hm
    · exact h.pooled m (by simpa [hmn, hlive] using hm)
  · rw [hport]
    exact h.port

/-- `udp_new` gives a pcb that is not bound. -/
theorem Listed.udpNew (h : t.Listed l) (answer : Option ℕ) :
    (t.udpNew answer).Listed l ∧ ∀ m, (t.udpNew answer).Bound m →
      t.Bound m ∧ (t.udpNew answer).pcb m = t.pcb m := by
  rw [Stack.udpNew]
  cases hanswer : answer.filter fun n => n < mempNumUdpPcb && !t.live n with
  | none => exact ⟨h, fun m hm => ⟨hm, rfl⟩⟩
  | some n =>
    obtain ⟨-, hfree⟩ := Option.filter_eq_some_iff.mp hanswer
    simp only [Bool.and_eq_true, decide_eq_true_eq, Bool.not_eq_true'] at hfree
    have hn : n ∉ l := by
      intro hmem
      cases hfree.2.symm.trans ((h.mem n).mp hmem).1
    have hbound : ∀ m, Bound { t with
        live := Function.update t.live n true
        pcb := Function.update t.pcb n {}
        next := Function.update t.next n none } m ↔ t.Bound m := by
      intro m
      by_cases hm : m = n
      · subst hm
        simp [Bound, hfree.2]
      · simp [Bound, hm]
    refine ⟨⟨h.list.update hn _, fun m => (h.mem m).trans (hbound m).symm, fun m hm => ?_, h.port⟩,
      fun m hm => ⟨(hbound m).mp hm, ?_⟩⟩
    · by_cases hmn : m = n
      · exact hmn ▸ hfree.1
      · exact h.pooled m (by simpa [hmn] using hm)
    · refine Function.update_of_ne ?_ _ _
      rintro rfl
      exact hn ((h.mem m).mpr ((hbound m).mp hm))

/-- A datagram only reorders the list. -/
theorem Listed.demux (h : t.Listed l) (e : Endpoints) :
    ∃ t' found l', t.demux e = some (t', found) ∧ t'.Listed l' ∧ t'.pcb = t.pcb ∧
      t'.live = t.live := by
  obtain ⟨hfind, -⟩ | ⟨front, n, back, hfind, rfl, -⟩ := h.find (fullMatch e)
  · have hsecond : ∃ found, t.find (fun pcb => localMatch e pcb && !pcb.connected) = some found := by
      obtain ⟨hfind, -⟩ | ⟨_, _, _, hfind, -⟩ := h.find fun pcb => localMatch e pcb && !pcb.connected
      · exact ⟨_, hfind⟩
      · exact ⟨_, hfind⟩
    obtain ⟨found, hfound⟩ := hsecond
    refine ⟨t, found.map Prod.snd, l, ?_, h, rfl, rfl⟩
    rw [Stack.demux, hfind, Option.bind_some]
    dsimp only
    rw [hfound]
    rfl
  · cases hlast : front.getLast? with
    | none =>
      rw [hlast] at hfind
      refine ⟨t, some n, front ++ n :: back, ?_, h, rfl, rfl⟩
      rw [Stack.demux, hfind]
      rfl
    | some m =>
      rw [hlast] at hfind
      obtain ⟨front, rfl⟩ : ∃ front', front = front' ++ [m] :=
        ⟨front.dropLast, (List.dropLast_append_getLast? m hlast).symm⟩
      refine ⟨{ t with
          next := Function.update (Function.update t.next m (t.next n)) n t.pcbs
          pcbs := some n }, some n, n :: (front ++ m :: back), ?_, ⟨?_, fun a => ?_, h.pooled, h.port⟩,
        rfl, rfl⟩
      · rw [Stack.demux, hfind]
        rfl
      · have hlist := h.list
        rw [List.append_assoc] at hlist
        exact hlist.toFront
      · refine Iff.trans ?_ (h.mem a)
        simp only [List.mem_cons, List.mem_append, List.not_mem_nil]
        tauto

end Stack

end QuietLwip.Udp
