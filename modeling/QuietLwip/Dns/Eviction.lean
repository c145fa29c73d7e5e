import QuietLwip.Dns.Answers
import QuietLwip.Dns.Counters
import Mathlib.Data.Finset.Max

/-!
# The entry of a new request

`dns_enqueue` takes an unused entry, or else the completed one of the greatest age. The age is a difference of two
8-bit stamps, so it is the number of requests since only while `dns_seqno` has not wrapped.
-/

namespace QuietLwip.Dns

open Fallible Ip Transition

variable {s s' : Resolver} {i j k : Index} {c : Call}

/-! ### The law -/

/-- The completed entry whose request was enqueued first -/
def Earliest (s : Resolver) (i : Index) : Prop :=
  (s.table i).state = .done ∧ ∀ j, (s.table j).state = .done → (s.table i).ticket ≤ (s.table j).ticket

/-- The request is in the entry, and the others are as before. -/
structure Uses (s : Resolver) (i : Index) (s' : Resolver) : Prop where
  state : (s'.table i).state = .asking
  ticket : (s'.table i).ticket = s.tickets
  others : ∀ j, j ≠ i → s'.table j = s.table j

/-- Where a request goes -/
inductive Fair (s : Resolver) : Resolver → Err → Prop
  | full (h : ∀ i, (s.table i).state.isPending) : Fair s s .mem
  | unused {i : Index} {s' : Resolver} (h : (s.table i).state = .unused) (huses : Uses s i s') :
    Fair s s' .inprogress
  | evicts {i : Index} {s' : Resolver} (hfull : ∀ j, (s.table j).state ≠ .unused) (h : Earliest s i)
    (huses : Uses s i s') : Fair s s' .inprogress

/-- When the table is full, the ages single out the earliest of the completed entries. -/
def Keeps (s : Resolver) : Prop := (∀ j, (s.table j).state ≠ .unused) → ∀ i, Earliest s i → Oldest s i

/-! ### The search -/

theorem searchEntry_full (hfull : ∀ j, (s.table j).state ≠ .unused) (is : List Index) (lseq : ℤ)
    (lseqi : Index) : ∃ k, searchEntry s is lseq lseqi = .inr k := by
  cases h : searchEntry s is lseq lseqi with
  | inl k => exact absurd (searchEntry_inl h) (hfull k)
  | inr k => exact ⟨k, rfl⟩

/-- A completed entry that is the oldest by its age is chosen. -/
theorem chooseEntry_of_oldest (hfull : ∀ j, (s.table j).state ≠ .unused) (hdone : (s.table i).state = .done)
    (h : Oldest s i) : chooseEntry s = some i := by
  obtain ⟨k, hk⟩ := searchEntry_full hfull (List.finRange DNS_TABLE_SIZE) 0 ⟨0, tableSize_pos⟩
  obtain ⟨-, hold⟩ := searchEntry_inr (List.pairwise_lt_finRange _) hk
  have hki : k = i := by
    rcases hold with ⟨rfl, hall⟩ | ⟨hpos, hkdone, hall⟩
    · rcases h with ⟨hpos, -⟩ | ⟨hzero, -⟩
      · exact absurd hpos (not_lt.mpr (hall i (List.mem_finRange i) hdone))
      · exact Fin.ext hzero.symm
    · obtain ⟨hle, hlt⟩ := hall i (List.mem_finRange i) hdone
      rcases h with ⟨-, hall'⟩ | ⟨-, hall'⟩
      · obtain ⟨hle', hlt'⟩ := hall' k hkdone
        rcases lt_trichotomy k i with hki | hki | hki
        · exact absurd (hlt' hki) (not_lt.mpr hle)
        · exact hki
        · exact absurd (hlt hki) (not_lt.mpr hle')
      · exact absurd hpos (not_lt.mpr (hall' k hkdone))
  subst hki
  rw [chooseEntry, hk]
  exact if_pos hdone

/-- Without a choice there is no unused entry. -/
theorem chooseEntry_none (h : chooseEntry s = none) (j : Index) : (s.table j).state ≠ .unused := by
  rw [chooseEntry] at h
  split at h
  · cases h
  · next k hk => exact (searchEntry_inr (List.pairwise_lt_finRange _) hk).1 j (List.mem_finRange j)

theorem exists_earliest (hdone : (s.table j).state = .done) : ∃ i, Earliest s i := by
  have hne : (Finset.univ.filter fun k => (s.table k).state = .done).Nonempty := ⟨j, by simpa using hdone⟩
  obtain ⟨i, hi, hmin⟩ := Finset.exists_min_image _ (fun k => (s.table k).ticket) hne
  refine ⟨i, by simpa using hi, fun k hk => hmin k (by simpa using hk)⟩

theorem Regular.earliest_unique {x : Option Index} (h : Regular x s) (hi : Earliest s i)
    (hj : Earliest s j) : i = j := by
  have hused : ∀ {k}, (s.table k).state = .done → (s.table k).state ≠ .unused := by
    intro k hk
    rw [hk]
    exact DnsState.noConfusion
  exact h.apart i j (hused hi.1) (hused hj.1) (le_antisymm (hi.2 j hj.1) (hj.2 i hi.1))

/-- As long as the counter has not wrapped since, the ages are the numbers of requests since. -/
theorem Regular.keeps {x : Option Index} (h : Regular x s)
    (hsince : ∀ i, (s.table i).state = .done → s.tickets - (s.table i).ticket ≤ s.seqno.toNat) : Keeps s := by
  have hused : ∀ {k}, (s.table k).state = .done → (s.table k).state ≠ .unused := by
    intro k hk
    rw [hk]
    exact DnsState.noConfusion
  have hage : ∀ k, (s.table k).state = .done → age s k = (s.tickets - (s.table k).ticket : ℕ) := by
    intro k hk
    have hstamp := h.stamp k (hused hk)
    have hle := hsince k hk
    have hlt := s.seqno.toNat_lt
    have hlt' := (s.table k).seqno.toNat_lt
    rw [age]
    omega
  intro hfull i hi
  have hfresh := h.fresh i (hfull i)
  refine .inl ⟨?_, fun j hj => ⟨?_, fun hji => ?_⟩⟩
  · rw [hage i hi.1]
    omega
  · have hle := hi.2 j hj
    rw [hage i hi.1, hage j hj]
    omega
  · have hle := hi.2 j hj
    have hne : (s.table i).ticket ≠ (s.table j).ticket := fun heq =>
      hji.ne' (h.apart i j (hfull i) (hfull j) heq)
    rw [hage i hi.1, hage j hj]
    have hfreshj := h.fresh j (hfull j)
    omega

/-! ### What `dns_enqueue` does -/

theorem dnsEnqueue_uses (hserver : !(s.servers 0).isAny) (hi : chooseEntry s = some i) (c : Call) :
    ∃ s', dnsEnqueue s c = .ok (s', .inprogress) ∧ Uses s i s' := by
  rw [dnsEnqueue_eq hserver, hi]
  refine ⟨_, rfl, ?_, ?_, fun j hj => Resolver.setEntry_of_ne _ _ hj⟩
  · dsimp only
    rw [Resolver.setEntry_self]
    rfl
  · dsimp only
    rw [Resolver.setEntry_self]
    rfl

/-- A request is in one entry only. -/
theorem Regular.uses_unique {x : Option Index} (h : Regular x s) (hi : Uses s i s') (hj : Uses s j s') :
    i = j := by
  by_contra hne
  have heq := hj.others i hne
  have hticket := hi.ticket
  have hstate := hi.state
  rw [heq] at hticket hstate
  have hfresh := h.fresh i (by rw [hstate]; exact DnsState.noConfusion)
  omega

theorem Regular.fair_iff {x : Option Index} (h : Regular x s) (c : Call) :
    ∃ s' r, dnsEnqueue s c = .ok (s', r) ∧ (∀ j, (s.table j).state.isPending → s'.table j = s.table j) ∧
      (Fair s s' r ↔ Keeps s) := by
  cases hi : chooseEntry s with
  | none =>
    have hfull := chooseEntry_none hi
    refine ⟨s, .mem, by rw [dnsEnqueue_eq h.server, hi], fun _ _ => rfl, ?_, fun hkeeps => ?_⟩
    · intro hfair hfull' i hearliest
      cases hfair with
      | full hpend =>
        have hpend := hpend i
        rw [hearliest.1] at hpend
        cases hpend
    · refine .full fun j => ?_
      by_contra hpend
      have hdone : (s.table j).state = .done := by
        cases hstate : (s.table j).state with
        | done => rfl
        | unused => exact absurd hstate (hfull j)
        | new | asking =>
          rw [hstate] at hpend
          exact absurd rfl hpend
      obtain ⟨k, hk⟩ := exists_earliest hdone
      rw [chooseEntry_of_oldest hfull hk.1 (hkeeps hfull k hk)] at hi
      cases hi
  | some i =>
    obtain ⟨s', hs', huses⟩ := dnsEnqueue_uses h.server hi c
    have hfree := chooseEntry_free hi
    refine ⟨s', .inprogress, hs', fun j hj => huses.others j ?_, ?_⟩
    · rintro rfl
      rw [hfree] at hj
      cases hj
    · cases hstate : (s.table i).state with
      | new | asking =>
        rw [hstate] at hfree
        cases hfree
      | unused => exact iff_of_true (.unused hstate huses) fun hfull => absurd hstate (hfull i)
      | done =>
        obtain ⟨hfull, hold⟩ := chooseEntry_oldest hi hstate
        constructor
        · intro hfair hfull' k hk
          cases hfair with
          | @unused j _ hunused huses' => exact absurd hunused (hfull j)
          | @evicts j _ _ hearliest huses' =>
            obtain rfl := h.uses_unique huses huses'
            rwa [h.earliest_unique hk hearliest]
        · intro hkeeps
          obtain ⟨k, hk⟩ := exists_earliest hstate
          have hchoose := chooseEntry_of_oldest hfull hk.1 (hkeeps hfull k hk)
          rw [hi] at hchoose
          obtain rfl := Option.some.inj hchoose
          exact .evicts hfull hk huses

/-- A new request never takes the entry of one that is pending. It goes where it should if and only if there is an
unused entry, or the ages single out the earliest of the completed ones; so it does as long as `dns_seqno` has not
wrapped since their requests. -/
theorem enqueue_fair (h : dns.Reachable s) (c : Call) :
    (∃ s' r, dnsEnqueue s c = .ok (s', r) ∧ (∀ j, (s.table j).state.isPending → s'.table j = s.table j) ∧
      (Fair s s' r ↔ Keeps s)) ∧
    ((∀ i, (s.table i).state = .done → s.tickets - (s.table i).ticket ≤ s.seqno.toNat) → Keeps s) :=
  ⟨(reachable_regular h).fair_iff c, (reachable_regular h).keeps⟩

/-- The table is full, and the first request is answered. -/
def answerFirst : List Op :=
  (((List.finRange 20).take 16).map fun n => .gethostbyname (callLetter n)) ++ [.recv answerA nothing []]

set_option maxRecDepth 20000 in
theorem answerFirst_full : (answerFirst.foldlM Op.exec emptyResolver).toOption.map (fun s =>
    decide ((s.table ⟨0, tableSize_pos⟩).state = .done ∧ (∀ j, (s.table j).state ≠ .unused) ∧
      ∀ i, (s.table i).state = .done → s.tickets - (s.table i).ticket ≤ s.seqno.toNat)) = some true := by
  decide

theorem enqueue_fair_answerFirst : ∃ s s' r, (s.table ⟨0, tableSize_pos⟩).state = .done ∧
    (∀ j, (s.table j).state ≠ .unused) ∧ dnsEnqueue s (callLetter 16) = .ok (s', r) ∧ Fair s s' r := by
  obtain ⟨s, hs, hfull⟩ := Option.map_eq_some_iff.mp answerFirst_full
  obtain ⟨hdone, hused, hsince⟩ := of_decide_eq_true hfull
  obtain ⟨⟨s', r, hs', -, hfair⟩, hkeeps⟩ := enqueue_fair (reachable_ops hs) (callLetter 16)
  exact ⟨s, s', r, hdone, hused, hs', hfair.mpr (hkeeps hsince)⟩

/-! ### A completed entry that no request gets -/

/-- The requests for "a" are in the first entries, with the stamps from `n` on. -/
structure Filled (n : UInt8) (k : ℕ) (s : Resolver) : Prop where
  asks : ∀ i : Index, i < k → (s.table i).state = .asking ∧ (s.table i).name = letter 0 ∧
    (s.table i).seqno = n + .ofNat i
  unused : ∀ i : Index, k ≤ i → (s.table i).state = .unused
  server : !(s.servers 0).isAny
  hosts : s.hosts = []
  seqno : s.seqno = n + .ofNat k

theorem searchEntry_first {is : List Index} {lseq : ℤ} {lseqi k : Index} (hsorted : is.Pairwise (· < ·))
    (h : searchEntry s is lseq lseqi = .inl k) : ∀ j ∈ is, j < k → (s.table j).state ≠ .unused := by
  induction is generalizing lseq lseqi with
  | nil => cases h
  | cons i is ih =>
    obtain ⟨hlt, hsorted⟩ := List.pairwise_cons.mp hsorted
    rw [searchEntry] at h
    split at h
    · cases h
      exact List.forall_mem_cons.mpr
        ⟨fun hlt => absurd hlt (lt_irrefl _), fun j hj hji => absurd hji (hlt j hj).not_gt⟩
    · next hused =>
      refine List.forall_mem_cons.mpr ⟨fun _ => hused, ?_⟩
      split at h
      · exact ih hsorted h
      · exact ih hsorted h

/-- The first unused entry is chosen. -/
theorem chooseEntry_first (hi : (s.table i).state = .unused) (hfirst : ∀ j < i, (s.table j).state ≠ .unused) :
    chooseEntry s = some i := by
  rw [chooseEntry]
  cases h : searchEntry s (List.finRange DNS_TABLE_SIZE) 0 ⟨0, tableSize_pos⟩ with
  | inr k =>
    exact absurd hi ((searchEntry_inr (List.pairwise_lt_finRange _) h).1 i (List.mem_finRange i))
  | inl k =>
    have hk := searchEntry_inl h
    have hbefore := searchEntry_first (List.pairwise_lt_finRange _) h
    have hki : k = i := by
      rcases lt_trichotomy k i with hki | hki | hki
      · exact absurd hk (hfirst k hki)
      · exact hki
      · exact absurd hi (hbefore i (List.mem_finRange i) hki)
    rw [hki]

/-- While no entry is complete, a name is not known. -/
theorem dnsLookup_unknown (hhosts : s.hosts = []) (hdone : ∀ j, (s.table j).state ≠ .done) (name : CString) :
    dnsLookup s name = IPADDR_NONE := by
  have hlocal : dnsLookupLocal s name = IPADDR_NONE := by
    rw [dnsLookupLocal, hhosts]
    rfl
  have hfind : (List.finRange DNS_TABLE_SIZE).find? (fun i => (s.table i).holds name) = none := by
    simp [Entry.holds, hdone]
  rw [dnsLookup, if_neg (not_not.mpr hlocal), hfind]

theorem Filled.not_done {n : UInt8} {k : ℕ} (h : Filled n k s) (j : Index) : (s.table j).state ≠ .done := by
  rcases lt_or_ge j.1 k with hj | hj
  · rw [(h.asks j hj).1]
    exact DnsState.noConfusion
  · rw [h.unused j hj]
    exact DnsState.noConfusion

theorem Filled.call {n : UInt8} (h : Filled n i s) :
    ∃ s', runCall s firstCall = .ok s' ∧ Filled n (i + 1) s' := by
  have hchoose : chooseEntry s = some i := by
    refine chooseEntry_first (h.unused i le_rfl) fun j hj => ?_
    rw [(h.asks j hj).1]
    exact DnsState.noConfusion
  have hnum : ipaddrAddr firstCall.hostname.1 = IPADDR_NONE := by decide
  have hshort : ¬ (firstCall.hostname.1 = [] ∨ DNS_MAX_NAME_LENGTH ≤ firstCall.hostname.1.length) := by decide
  rw [runCall, dnsGethostbyname, if_neg hshort]
  dsimp only
  rw [if_pos hnum, dnsLookup_unknown h.hosts h.not_done, if_neg (not_not.mpr rfl), dnsEnqueue_eq h.server, hchoose]
  refine ⟨_, rfl, fun j hj => ?_, fun j hj => ?_, h.server, h.hosts, ?_⟩
  · by_cases hji : j = i
    · subst hji
      dsimp only
      rw [Resolver.setEntry_self]
      exact ⟨rfl, rfl, h.seqno⟩
    · have hlt : j.1 < i.1 := lt_of_le_of_ne (Nat.le_of_lt_succ hj) fun heq => hji (Fin.ext heq)
      dsimp only
      rw [Resolver.setEntry_of_ne _ _ hji]
      exact h.asks j hlt
  · have hji : j ≠ i := by
      rintro rfl
      exact absurd hj (Nat.not_succ_le_self _)
    dsimp only
    rw [Resolver.setEntry_of_ne _ _ hji]
    exact h.unused j (Nat.le_of_succ_le hj)
  · dsimp only
    rw [h.seqno, UInt8.add_assoc, UInt8.ofNat_add]
    rfl

/-- A callback that does nothing -/
theorem callFound_nil (s : Resolver) (i : Index) (a : Option IpAddr) :
    ∃ s', callFound s i a [] = .ok s' ∧ s'.table = s.table ∧ s'.servers = s.servers ∧
      s'.hosts = s.hosts ∧ s'.seqno = s.seqno := by
  rw [callFound]
  split <;> exact ⟨_, rfl, rfl, rfl, rfl, rfl⟩

/-- A request that fails leaves its stamp behind. -/
theorem Filled.fail {n : UInt8} (h : Filled n 1 s) :
    ∃ s', dnsRecv s noSuchName nothing [] = .ok s' ∧ Filled (n + 1) 0 s' := by
  obtain ⟨hask, hname, -⟩ := h.asks ⟨0, tableSize_pos⟩ Nat.one_pos
  have hproc : Processed s ⟨0, tableSize_pos⟩ noSuchName := ⟨by decide, by decide, rfl, hask⟩
  have hanswer : dnsAnswer (letter 0) noSuchName nothing = some none := by decide
  obtain ⟨s₂, hs₂, htable, hservers, hhosts, hseqno⟩ :=
    callFound_nil (complete s ⟨0, tableSize_pos⟩ noSuchName) ⟨0, tableSize_pos⟩ none
  rw [hproc.exec, hname, hanswer, finish, hs₂]
  refine ⟨_, rfl, fun j hj => absurd hj (Nat.not_lt_zero _), fun j _ => ?_, ?_, ?_, ?_⟩
  · by_cases hj : j = ⟨0, tableSize_pos⟩
    · subst hj
      rw [flush, Resolver.setEntry_self]
    · rw [flush, Resolver.setEntry_of_ne _ _ hj, htable, complete, Resolver.setEntry_of_ne _ _ hj]
      exact h.unused j (Nat.one_le_iff_ne_zero.mpr fun hzero => hj (Fin.ext hzero))
  · change !(s₂.servers 0).isAny
    rw [hservers]
    exact h.server
  · exact hhosts.trans h.hosts
  · change s₂.seqno = _
    rw [hseqno]
    exact h.seqno.trans (UInt8.add_zero _).symm

/-- The stamps reach every value. -/
theorem exists_filled_zero (n : ℕ) : ∃ s, dns.Reachable s ∧ Filled (.ofNat n) 0 s := by
  induction n with
  | zero =>
    exact ⟨emptyResolver, .of_start emptyResolver_start, fun _ hi => absurd hi (Nat.not_lt_zero _),
      fun _ _ => rfl, rfl, rfl, rfl⟩
  | succ n ih =>
    obtain ⟨s, hs, hfilled⟩ := ih
    obtain ⟨s₁, hs₁, hfilled₁⟩ := Filled.call (i := ⟨0, tableSize_pos⟩) hfilled
    obtain ⟨s₂, hs₂, hfilled₂⟩ := Filled.fail hfilled₁
    have hreach₁ : dns.Reachable s₁ := hs.step (a := Op.gethostbyname firstCall) hs₁
    refine ⟨s₂, hreach₁.step (a := Op.recv noSuchName nothing []) hs₂, ?_⟩
    rw [UInt8.ofNat_add]
    exact hfilled₂

theorem exists_filled (n k : ℕ) (hk : k ≤ DNS_TABLE_SIZE) : ∃ s, dns.Reachable s ∧ Filled (.ofNat n) k s := by
  induction k with
  | zero => exact exists_filled_zero n
  | succ k ih =>
    obtain ⟨s, hs, hfilled⟩ := ih (Nat.le_of_succ_le hk)
    obtain ⟨s', hs', hfilled'⟩ := Filled.call (i := ⟨k, hk⟩) hfilled
    exact ⟨s', hs.step (a := Op.gethostbyname firstCall) hs', hfilled'⟩

/-- The second entry -/
def second : Index := ⟨1, by decide⟩

/-- An answer of 10.0.0.1 to the request 1 for "a". -/
def answerSecond : List UInt8 := answerA.set 1 1

/-- The second entry has the answer to "a", with the stamp 255 when `dns_seqno` has wrapped to 14, and the others
still ask. -/
structure SecondAnswered (s : Resolver) : Prop where
  done : (s.table second).state = .done
  name : (s.table second).name = letter 0
  stamp : (s.table second).seqno = 255
  others : ∀ j, j ≠ second → (s.table j).state = .asking
  server : !(s.servers 0).isAny
  hosts : s.hosts = emptyResolver.hosts
  age : age s second ≤ 0

/-- The table is full when `dns_seqno` wraps, and the second request is answered. -/
theorem exists_secondAnswered : ∃ s, dns.Reachable s ∧ SecondAnswered s := by
  obtain ⟨s, hs, h⟩ := exists_filled 254 DNS_TABLE_SIZE le_rfl
  obtain ⟨hask, hname, hstamp⟩ := h.asks second (by decide)
  have hproc : Processed s second answerSecond := ⟨by decide, by decide, rfl, hask⟩
  have hanswer : dnsAnswer (letter 0) answerSecond nothing = some (some (60, 0x0a000001)) := by decide
  obtain ⟨s', hs', htable, hservers, hhosts, hseqno⟩ :=
    callFound_nil ((complete s second answerSecond).setEntry second
      { (complete s second answerSecond).table second with ttl := min 60 DNS_MAX_TTL, ipaddr := 0x0a000001 })
      second (some 0x0a000001)
  have hrecv : dnsRecv s answerSecond nothing [] = .ok s' := by
    rw [hproc.exec, hname, hanswer, finish, hs']
  have hself : (s'.table second).state = .done ∧ (s'.table second).name = letter 0 ∧
      (s'.table second).seqno = 255 := by
    rw [htable, Resolver.setEntry_self, complete, Resolver.setEntry_self]
    exact ⟨rfl, hname, hstamp⟩
  refine ⟨s', hs.step (a := Op.recv answerSecond nothing []) hrecv, hself.1, hself.2.1, hself.2.2, ?_, ?_,
    hhosts.trans h.hosts, ?_⟩
  · intro j hj
    rw [htable, Resolver.setEntry_of_ne _ _ hj, complete, Resolver.setEntry_of_ne _ _ hj]
    exact (h.asks j j.isLt).1
  · rw [hservers]
    exact h.server
  · -- the age of the answer is 14 - 255
    rw [Dns.age, hself.2.2, hseqno.trans h.seqno]
    decide

theorem SecondAnswered.dnsLookup_other {s : Resolver} (h : SecondAnswered s) :
    dnsLookup s (letter 1) = IPADDR_NONE := by
  have hlocal : dnsLookupLocal s (letter 1) = IPADDR_NONE := by
    rw [dnsLookupLocal, h.hosts]
    rfl
  have hfind : (List.finRange DNS_TABLE_SIZE).find? (fun i => (s.table i).holds (letter 1)) = none := by
    rw [List.find?_eq_none]
    intro j _ hholds
    obtain ⟨hdone, hletter⟩ := of_decide_eq_true hholds
    by_cases hj : j = second
    · rw [hj, h.name] at hletter
      exact absurd hletter (by decide)
    · rw [h.others j hj] at hdone
      cases hdone
  rw [dnsLookup, if_neg (not_not.mpr hlocal), hfind]

/-- No entry is older than none at all, and none is free. -/
theorem SecondAnswered.chooseEntry_none {s : Resolver} (h : SecondAnswered s) : chooseEntry s = none := by
  have hfull : ∀ j, (s.table j).state ≠ .unused := by
    intro j
    by_cases hj : j = second
    · rw [hj, h.done]
      exact DnsState.noConfusion
    · rw [h.others j hj]
      exact DnsState.noConfusion
  obtain ⟨k, hk⟩ := searchEntry_full hfull (List.finRange DNS_TABLE_SIZE) 0 ⟨0, tableSize_pos⟩
  obtain ⟨-, ⟨rfl, -⟩ | ⟨hpos, hdone, -⟩⟩ := searchEntry_inr (List.pairwise_lt_finRange _) hk
  · rw [chooseEntry, hk]
    exact if_neg (by rw [h.others _ (by decide)]; exact DnsState.noConfusion)
  · by_cases hks : k = second
    · subst hks
      exact absurd hpos (not_lt.mpr h.age)
    · rw [h.others k hks] at hdone
      cases hdone

/-- The table is full when `dns_seqno` wraps, and the second request is answered: its entry is not used for another
name. -/
theorem enqueue_unfair : ∃ s, dns.Reachable s ∧ (s.table second).state = .done ∧
    dnsLookup s (letter 1) = IPADDR_NONE ∧ dnsEnqueue s (callLetter 1) = .ok (s, .mem) := by
  obtain ⟨s, hs, h⟩ := exists_secondAnswered
  refine ⟨s, hs, h.done, h.dnsLookup_other, ?_⟩
  rw [dnsEnqueue_eq h.server, h.chooseEntry_none]

end QuietLwip.Dns
