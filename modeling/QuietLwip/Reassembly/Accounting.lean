import QuietLwip.Reassembly.Runs

/-!
# The count of queued pbufs

`ip_reass_pbufcount` is adjusted where a fragment is admitted, dropped or given up and where
a datagram is returned. It is the number of the pbufs in the queues, each of which has a
fragment, and every fragment received is queued, was part of a datagram returned or was freed.
-/

namespace QuietLwip.Reassembly

open QuietLwip.Word QuietLwip.Buffers QuietLwip.Transition

/-! ### Counting pbufs -/

theorem chainPbufs_length {c : List Pbuf} {rs : List Helper} :
    ∀ {p : List Pbuf}, chainPbufs p rs = some c →
      c.length = p.length + (rs.map fun r => r.frag.pbufs.length).sum := by
  induction rs with
  | nil =>
    intro p h
    cases h
    rfl
  | cons r rs ih =>
    intro p h
    obtain ⟨⟨u, q⟩, hq, h⟩ := Option.bind_eq_some_iff.mp h
    obtain ⟨p', hp', h⟩ := Option.bind_eq_some_iff.mp h
    rw [ih h, pbufCat_length hp', pbufHeader_length hq, List.map_cons, List.sum_cons,
      Nat.add_assoc]

/-- The pbufs of a queue, as they are counted when the fragments are admitted. -/
def Reassdata.clen (d : Reassdata) : ℕ := (d.p.map fun h => pbufClen h.frag.pbufs).sum

/-- A chain put together from a queue counts as its fragments did, when these are few. -/
theorem chainPbufs_clen {c : List Pbuf} {first : Helper} {rest : List Helper}
    (hc : chainPbufs first.frag.pbufs rest = some c)
    (hfew : ((first :: rest).map fun h => pbufClen h.frag.pbufs).sum < 256) :
    pbufClen c = ((first :: rest).map fun h => pbufClen h.frag.pbufs).sum := by
  have hmod : ((first :: rest).map fun h => h.frag.pbufs.length).sum % 256 =
      ((first :: rest).map fun h => pbufClen h.frag.pbufs).sum % 256 := by
    rw [List.sum_nat_mod, List.map_map]
    congr 2
    exact List.map_congr_left fun h _ => (pbufClen_eq h.frag.pbufs).symm
  rw [pbufClen_eq, chainPbufs_length hc]
  rw [Nat.mod_eq_of_lt hfew] at hmod
  exact hmod

/-! ### The invariant -/

/-- What holds of the list of entries and the count of pbufs also while an entry is new. -/
structure Balanced (s : Reass) : Prop where
  count : s.pbufcount = (s.reassdatagrams.map Reassdata.clen).sum
  le_max : s.pbufcount ≤ IP_REASS_MAX_PBUFS
  -- the younger ones are in front
  timers : s.reassdatagrams.Pairwise fun d e => e.timer ≤ d.timer
  timer_le : ∀ d ∈ s.reassdatagrams, d.timer ≤ IP_REASS_MAXAGE
  distinct : s.reassdatagrams.Pairwise fun d e => d.iphdr.match e.iphdr = false

structure Accounted (s : Reass) : Prop extends Balanced s where
  nonempty : ∀ d ∈ s.reassdatagrams, d.p ≠ []

theorem Balanced.clen_le {s : Reass} (h : Balanced s) {d : Reassdata}
    (hd : d ∈ s.reassdatagrams) : d.clen ≤ s.pbufcount := by
  rw [h.count]
  exact List.single_le_sum (fun _ _ => Nat.zero_le _) _ (List.mem_map_of_mem hd)

/-- An entry is taken out of the list, its pbufs out of the count. -/
theorem freeCompleteDatagram_spec {s s' : Reass} {i n : ℕ} {prev : Option ℕ}
    (h : freeCompleteDatagram s i prev = some (s', n)) :
    ∃ front d back, s.reassdatagrams = front ++ d :: back ∧ front.length = i ∧ n = d.clen ∧
      s' = ⟨front ++ back, s.pbufcount - d.clen⟩ := by
  rw [freeCompleteDatagram] at h
  split at h
  · cases h
  · next d hd =>
    obtain ⟨hi, hget⟩ := List.getElem?_eq_some_iff.mp hd
    simp only at h
    split at h
    · cases h
      refine ⟨s.reassdatagrams.take i, d, s.reassdatagrams.drop (i + 1), ?_, ?_, rfl, ?_⟩
      · rw [← hget, List.cons_getElem_drop_succ, List.take_append_drop]
      · exact List.length_take_of_le hi.le
      · rw [List.eraseIdx_eq_take_drop_succ]
        rfl
    · cases h

theorem Balanced.erase {front back : List Reassdata} {d : Reassdata} {n : ℕ}
    (h : Balanced ⟨front ++ d :: back, n⟩) : Balanced ⟨front ++ back, n - d.clen⟩ := by
  have hsub : (front ++ back).Sublist (front ++ d :: back) :=
    List.Sublist.append_left (List.sublist_cons_self d back) front
  refine ⟨?_, (Nat.sub_le _ _).trans h.le_max, h.timers.sublist hsub,
    fun e he => h.timer_le e (hsub.subset he), h.distinct.sublist hsub⟩
  have hcount := h.count
  simp only [List.map_append, List.map_cons, List.sum_append, List.sum_cons] at hcount ⊢
  omega

theorem Accounted.freed {s s' : Reass} {i n : ℕ} {prev : Option ℕ} (h : Accounted s)
    (hfree : freeCompleteDatagram s i prev = some (s', n)) : Accounted s' := by
  obtain ⟨front, d, back, hlist, -, -, rfl⟩ := freeCompleteDatagram_spec hfree
  have hs : s = ⟨front ++ d :: back, s.pbufcount⟩ := by rw [← hlist]
  rw [hs] at h
  refine ⟨h.toBalanced.erase, fun e he => h.nonempty e ?_⟩
  exact (List.Sublist.append_left (List.sublist_cons_self d back) front).subset he

theorem removeOldestLoop_accounted {fraghdr : IpHdr} {needed fuel : ℕ} :
    ∀ {freed n : ℕ} {s s' : Reass}, Accounted s →
      removeOldestLoop fraghdr needed fuel freed s = some (s', n) →
        Accounted s' ∧ s'.pbufcount ≤ s.pbufcount := by
  induction fuel with
  | zero => nofun
  | succ fuel ih =>
    intro freed n s s' hs h
    rw [removeOldestLoop] at h
    simp only at h
    split at h
    · cases h
      exact ⟨hs, le_rfl⟩
    · obtain ⟨⟨t, current⟩, hfree, h⟩ := Option.bind_eq_some_iff.mp h
      have ht := hs.freed hfree
      have hle : t.pbufcount ≤ s.pbufcount := by
        obtain ⟨_, d, _, -, -, -, rfl⟩ := freeCompleteDatagram_spec hfree
        exact Nat.sub_le _ _
      simp only at h
      split at h
      · exact ⟨(ih ht h).1, (ih ht h).2.trans hle⟩
      · cases h
        exact ⟨ht, hle⟩

theorem makeRoom_accounted {s s' : Reass} {fraghdr : IpHdr} {clen : ℕ} {room : Bool}
    (hs : Accounted s) (h : makeRoom s fraghdr clen = some (s', room)) :
    Accounted s' ∧ (room = true → s'.pbufcount + clen ≤ IP_REASS_MAX_PBUFS) := by
  rw [makeRoom] at h
  split at h
  · obtain ⟨⟨t, freed⟩, hremove, h⟩ := Option.bind_eq_some_iff.mp h
    cases h
    refine ⟨(removeOldestLoop_accounted hs hremove).1, ?_⟩
    intro hroom
    have hnot : ¬(freed = 0 ∨ s'.pbufcount + clen > IP_REASS_MAX_PBUFS) := by simpa using hroom
    omega
  · cases h
    exact ⟨hs, fun _ => by omega⟩

/-- The entry for a fragment, at its place in the list; the other entries are not new. -/
structure Located (s : Reass) (i : ℕ) (d : Reassdata) (front : List Reassdata) (e : Reassdata)
    (back : List Reassdata) : Prop where
  list : s.reassdatagrams = front ++ e :: back
  place : front.length = i
  p : d.p = e.p
  timer : d.timer = e.timer
  lastFrag : d.lastFrag = e.lastFrag
  same : e.iphdr.match d.iphdr = true
  nonempty : ∀ x ∈ front ++ back, x.p ≠ []

theorem newDatagram_balanced {t : Reass} {fraghdr : IpHdr} (h : Accounted t)
    (hnone : ∀ d ∈ t.reassdatagrams, d.iphdr.match fraghdr = false) :
    Balanced (newDatagram t fraghdr) := by
  refine ⟨?_, h.le_max, ?_, ?_, ?_⟩
  · rw [newDatagram, List.map_cons, List.sum_cons]
    change t.pbufcount = 0 + _
    rw [Nat.zero_add, h.count]
  · exact List.pairwise_cons.mpr ⟨fun d hd => h.timer_le d hd, h.timers⟩
  · exact List.forall_mem_cons.mpr ⟨le_rfl, h.timer_le⟩
  · refine List.pairwise_cons.mpr ⟨?_, h.distinct⟩
    intro d hd
    have hmatch := hnone d hd
    cases hsymm : IpHdr.match fraghdr d.iphdr with
    | false => rfl
    | true =>
      rw [IpHdr.match_symm hsymm] at hmatch
      cases hmatch

theorem lookUp_accounted {s s' : Reass} {fraghdr : IpHdr} {clen : ℕ}
    {r : Option (ℕ × Reassdata)} (hs : Accounted s)
    (h : lookUp s fraghdr clen = some (s', r)) :
    Balanced s' ∧ s'.pbufcount ≤ s.pbufcount ∧ (r = none → Accounted s') ∧
      ∀ i d, r = some (i, d) → ∃ front e back, Located s' i d front e back := by
  rw [lookUp] at h
  split at h
  · next hfind =>
    have hnone : ∀ d ∈ s.reassdatagrams, d.iphdr.match fraghdr = false := by
      intro d hd
      exact (List.findIdx?_eq_none_iff.mp hfind) d hd
    obtain ⟨⟨t, enqueued⟩, henq, h⟩ := Option.bind_eq_some_iff.mp h
    obtain ⟨t', ht', hle, hsub, ht⟩ : ∃ t', Accounted t' ∧ t'.pbufcount ≤ s.pbufcount ∧
        t'.reassdatagrams ⊆ s.reassdatagrams ∧
        t = if enqueued then newDatagram t' fraghdr else t' := by
      rw [enqueueNewDatagram] at henq
      split at henq
      · cases henq
        exact ⟨s, hs, le_rfl, List.Subset.refl _, rfl⟩
      · obtain ⟨⟨t', freed⟩, hremove, henq⟩ := Option.bind_eq_some_iff.mp henq
        obtain ⟨ht', hle⟩ := removeOldestLoop_accounted hs hremove
        refine ⟨t', ht', hle, removeOldestLoop_subset hremove, ?_⟩
        simp only at henq
        split at henq <;> cases henq <;> rfl
    simp only [Option.pure_def, Option.some.injEq, Prod.mk.injEq] at h
    obtain ⟨rfl, rfl⟩ := h
    cases enqueued with
    | false =>
      rw [ht]
      exact ⟨ht'.toBalanced, hle, fun _ => ht', fun _ _ hd => by cases hd⟩
    | true =>
      rw [ht]
      refine ⟨newDatagram_balanced ht' fun d hd => hnone d (hsub hd), hle, (fun hd => by cases hd), ?_⟩
      intro i d hd
      cases hd
      exact ⟨[], _, t'.reassdatagrams, rfl, rfl, rfl, rfl, rfl, IpHdr.match_self _, ht'.nonempty⟩
  · next i hfind =>
    simp only [Option.some.injEq, Prod.mk.injEq] at h
    obtain ⟨rfl, rfl⟩ := h
    refine ⟨hs.toBalanced, le_rfl, fun _ => hs, ?_⟩
    intro j d hd
    obtain ⟨hi, hmatch, -⟩ := List.findIdx?_eq_some_iff_getElem.mp hfind
    rw [List.getElem?_eq_getElem hi] at hd
    simp only [Option.map_some, Option.some.injEq, Prod.mk.injEq] at hd
    obtain ⟨rfl, rfl⟩ := hd
    have hlist : s.reassdatagrams =
        s.reassdatagrams.take i ++ s.reassdatagrams[i] :: s.reassdatagrams.drop (i + 1) := by
      rw [List.cons_getElem_drop_succ, List.take_append_drop]
    have hrest : ∀ x ∈ s.reassdatagrams.take i ++ s.reassdatagrams.drop (i + 1), x.p ≠ [] := by
      intro x hx
      rcases List.mem_append.mp hx with hx | hx
      · exact hs.nonempty x (List.mem_of_mem_take hx)
      · exact hs.nonempty x (List.mem_of_mem_drop hx)
    refine ⟨_, _, _, hlist, List.length_take_of_le hi.le, ?_, ?_, ?_, ?_, hrest⟩ <;> split
    all_goals first | rfl | exact hmatch | exact IpHdr.match_self _

/-- The entry is replaced by one with a fragment, in the same place of the list. -/
theorem Located.replace {s : Reass} {i : ℕ} {d e r : Reassdata} {front back : List Reassdata}
    {count : ℕ} (h : Located s i d front e back) (hs : Balanced s) (hp : r.p ≠ [])
    (htimer : r.timer = d.timer) (hsame : d.iphdr.match r.iphdr = true)
    (hcount : count + e.clen = s.pbufcount + r.clen) (hle : count ≤ IP_REASS_MAX_PBUFS) :
    Accounted ⟨s.reassdatagrams.set i r, count⟩ := by
  have hset : s.reassdatagrams.set i r = front ++ r :: back := by
    rw [h.list, ← h.place, List.set_append_right _ _ le_rfl, Nat.sub_self, List.set_cons_zero]
  have her : e.iphdr.match r.iphdr = true := IpHdr.match_trans h.same hsame
  have hbal := hs.count
  have htimers := hs.timers
  have hdistinct := hs.distinct
  have htimer_le := hs.timer_le
  rw [h.list] at hbal htimers hdistinct htimer_le
  rw [hset]
  obtain ⟨hfront, hback, hcross⟩ := List.pairwise_append.mp htimers
  obtain ⟨hhead, hback⟩ := List.pairwise_cons.mp hback
  obtain ⟨hdfront, hdback, hdcross⟩ := List.pairwise_append.mp hdistinct
  obtain ⟨hdhead, hdback⟩ := List.pairwise_cons.mp hdback
  have hclass : r.timer = e.timer := htimer.trans h.timer
  refine ⟨⟨?_, hle, ?_, ?_, ?_⟩, ?_⟩
  · simp only [List.map_append, List.map_cons, List.sum_append, List.sum_cons] at hbal ⊢
    omega
  · refine List.pairwise_append.mpr ⟨hfront, List.pairwise_cons.mpr ⟨?_, hback⟩, ?_⟩
    · intro x hx
      rw [hclass]
      exact hhead x hx
    · intro x hx y hy
      rcases List.mem_cons.mp hy with hy | hy
      · rw [hy, hclass]
        exact hcross x hx e (List.mem_cons_self ..)
      · exact hcross x hx y (List.mem_cons_of_mem _ hy)
  · intro x hx
    rcases List.mem_append.mp hx with hx | hx
    · exact htimer_le x (List.mem_append_left _ hx)
    · rcases List.mem_cons.mp hx with hx | hx
      · rw [hx, hclass]
        exact htimer_le e (by simp)
      · exact htimer_le x (by simp [hx])
  · refine List.pairwise_append.mpr ⟨hdfront, List.pairwise_cons.mpr ⟨?_, hdback⟩, ?_⟩
    · intro x hx
      refine Bool.eq_false_iff.mpr fun hm => ?_
      exact Bool.eq_false_iff.mp (hdhead x hx) (IpHdr.match_trans her hm)
    · intro x hx y hy
      rcases List.mem_cons.mp hy with hy | hy
      · rw [hy]
        refine Bool.eq_false_iff.mpr fun hm => ?_
        exact Bool.eq_false_iff.mp (hdcross x hx e (List.mem_cons_self ..))
          (IpHdr.match_trans hm (IpHdr.match_symm her))
      · exact hdcross x hx y (List.mem_cons_of_mem _ hy)
  · intro x hx
    rcases List.mem_append.mp hx with hx | hx
    · exact h.nonempty x (List.mem_append_left _ hx)
    · rcases List.mem_cons.mp hx with hx | hx
      · rw [hx]
        exact hp
      · exact h.nonempty x (List.mem_append_right _ hx)

theorem noteLastFragment_p (ipr : Reassdata) (f : Fragment) : (noteLastFragment ipr f).p = ipr.p := by
  rw [noteLastFragment]
  split <;> rfl

theorem noteLastFragment_timer (ipr : Reassdata) (f : Fragment) :
    (noteLastFragment ipr f).timer = ipr.timer := by
  rw [noteLastFragment]
  split <;> rfl

theorem noteLastFragment_iphdr (ipr : Reassdata) (f : Fragment) :
    (noteLastFragment ipr f).iphdr = ipr.iphdr := by
  rw [noteLastFragment]
  split <;> rfl

theorem clen_queue (front back : List Helper) (new : Helper) :
    ((front ++ new :: back).map fun h => pbufClen h.frag.pbufs).sum =
      ((front ++ back).map fun h => pbufClen h.frag.pbufs).sum + pbufClen new.frag.pbufs := by
  simp only [List.map_append, List.map_cons, List.sum_append, List.sum_cons]
  omega

/-- The walk puts the new fragment between two pieces of the queue, or drops it. -/
theorem chainLoop_pieces {new : Helper} {c : Chained} {rest : List Helper} :
    ∀ {valid : Bool} {front : List Helper}, chainLoop new valid front rest = some c →
      (c = .dropped ∧ front ++ rest ≠ []) ∨
        ∃ valid' front' back', c = .queued valid' front' back' ∧ front ++ rest = front' ++ back' := by
  induction rest with
  | nil =>
    intro valid front h
    rw [chainLoop] at h
    split at h
    · cases h
      exact Or.inr ⟨_, _, _, rfl, rfl⟩
    · split at h
      · cases h
        exact Or.inr ⟨_, _, _, rfl, rfl⟩
      · cases h
  | cons tmp rest ih =>
    intro valid front h
    have hne : front ++ tmp :: rest ≠ [] := by simp
    rw [chainLoop] at h
    split at h
    · split at h
      · cases h
        exact Or.inr ⟨_, _, _, rfl, rfl⟩
      · split at h <;> cases h
        · exact Or.inl ⟨rfl, hne⟩
        · exact Or.inr ⟨_, _, _, rfl, rfl⟩
    · split at h
      · cases h
        exact Or.inl ⟨rfl, hne⟩
      · split at h
        · cases h
          exact Or.inl ⟨rfl, hne⟩
        · have hpieces := ih h
          rwa [List.append_assoc] at hpieces

/-! ### One step -/

theorem u16_of_le {n : ℤ} (h0 : 0 ≤ n) (hn : n ≤ IP_REASS_MAX_PBUFS) : u16 n = n.toNat := by
  unfold IP_REASS_MAX_PBUFS at hn
  exact wrapU_of_lt h0 (by omega)

theorem ipReass_accounted {s s' : Reass} {f : Fragment} {returned : Option Datagram}
    (hs : Accounted s) (h : ipReass s f = some (s', returned)) : Accounted s' := by
  rw [ipReass] at h
  split at h
  · cases h
    exact hs
  · obtain ⟨⟨s₁, room⟩, hroom, h⟩ := Option.bind_eq_some_iff.mp h
    obtain ⟨hs₁, hfits⟩ := makeRoom_accounted hs hroom
    simp only at h
    split at h
    · cases h
      exact hs₁
    · next hroomy =>
      have hfits := hfits (Bool.of_not_eq_false hroomy)
      obtain ⟨⟨s₂, found⟩, hlook, h⟩ := Option.bind_eq_some_iff.mp h
      obtain ⟨hs₂, hle, hnone, hsome⟩ := lookUp_accounted hs₁ hlook
      cases found with
      | none =>
        cases h
        exact hnone rfl
      | some entry =>
        obtain ⟨i, ipr⟩ := entry
        obtain ⟨front, e, back, hloc⟩ := hsome i ipr rfl
        have hcount : u16 ((s₂.pbufcount + pbufClen f.pbufs : ℕ) : ℤ) =
            s₂.pbufcount + pbufClen f.pbufs := by
          rw [u16_of_le (by omega) (by omega), Int.toNat_natCast]
        have heclen : e.clen = ipr.clen := by
          unfold Reassdata.clen
          rw [hloc.p]
        have hnoted : (noteLastFragment ipr f).clen = ipr.clen := by
          unfold Reassdata.clen
          rw [noteLastFragment_p]
        obtain ⟨chained, hchain, h⟩ := Option.bind_eq_some_iff.mp h
        have hcases := chainLoop_pieces hchain
        rw [List.nil_append, noteLastFragment_p] at hcases
        obtain ⟨rfl, hne⟩ | ⟨valid, pre, post, rfl, hpieces⟩ := hcases
        · -- the fragment is dropped again
          have hback : u16 ((u16 ((s₂.pbufcount + pbufClen f.pbufs : ℕ) : ℤ) : ℤ) -
              pbufClen f.pbufs) = s₂.pbufcount := by
            rw [hcount, u16_of_le (by omega) (by omega)]
            omega
          have hfinal : s' = ⟨s₂.reassdatagrams.set i (noteLastFragment ipr f), s₂.pbufcount⟩ := by
            rw [← hback]
            exact (congrArg Prod.fst (Option.some.inj h)).symm
          rw [hfinal]
          refine hloc.replace hs₂ ?_ (noteLastFragment_timer ipr f) ?_ ?_ hs₂.le_max
          · rw [noteLastFragment_p]
            exact hne
          · rw [noteLastFragment_iphdr]
            exact IpHdr.match_self _
          · rw [heclen, hnoted]
        · have hclen : ((pre ++ helperOf f :: post).map fun h => pbufClen h.frag.pbufs).sum =
              e.clen + pbufClen f.pbufs := by
            rw [clen_queue, ← hpieces, heclen]
            rfl
          obtain ⟨complete, hvalidate, h⟩ := Option.bind_eq_some_iff.mp h
          cases complete with
          | false =>
            have hfinal : s' = ⟨s₂.reassdatagrams.set i
                { noteLastFragment ipr f with p := pre ++ helperOf f :: post },
                s₂.pbufcount + pbufClen f.pbufs⟩ := by
              rw [← hcount]
              exact (congrArg Prod.fst (Option.some.inj h)).symm
            rw [hfinal]
            refine hloc.replace hs₂ (by simp) (noteLastFragment_timer ipr f) ?_ ?_ (by omega)
            · change ipr.iphdr.match (noteLastFragment ipr f).iphdr = true
              rw [noteLastFragment_iphdr]
              exact IpHdr.match_self _
            · unfold Reassdata.clen at hclen ⊢
              rw [hclen]
              omega
          | true =>
            cases hqueue : pre ++ helperOf f :: post with
            | nil => simp at hqueue
            | cons first rest =>
              simp only [hqueue] at h
              obtain ⟨c, hc, h⟩ := Option.bind_eq_some_iff.mp h
              rw [hqueue] at hclen
              have heinS : e ∈ s₂.reassdatagrams := by
                rw [hloc.list]
                simp
              have hecount := hs₂.clen_le heinS
              have hmax : IP_REASS_MAX_PBUFS = 10 := rfl
              have hcclen : pbufClen c = e.clen + pbufClen f.pbufs := by
                rw [chainPbufs_clen hc (by rw [hclen]; omega), hclen]
              have hback : u16 ((u16 ((s₂.pbufcount + pbufClen f.pbufs : ℕ) : ℤ) : ℤ) -
                  pbufClen c) = s₂.pbufcount - e.clen := by
                rw [hcount, hcclen, u16_of_le (by omega) (by omega)]
                omega
              have hfinal : s' = ⟨s₂.reassdatagrams.eraseIdx i, s₂.pbufcount - e.clen⟩ := by
                rw [← hback]
                exact (congrArg Prod.fst (Option.some.inj h)).symm
              have herase : s₂.reassdatagrams.eraseIdx i = front ++ back := by
                rw [hloc.list, ← hloc.place, List.eraseIdx_append_of_length_le le_rfl, Nat.sub_self,
                  List.eraseIdx_cons_zero]
              have hs₂' : Balanced ⟨front ++ e :: back, s₂.pbufcount⟩ := by
                rw [← hloc.list]
                exact hs₂
              rw [hfinal, herase]
              exact ⟨hs₂'.erase, hloc.nonempty⟩

/-- What `ip_reass_tmr` does to an entry that has not timed out. -/
def Reassdata.aged (r : Reassdata) : Reassdata := { r with timer := r.timer - 1 }

theorem tmrLoop_eq {rs : List Reassdata} : ∀ {kept : List Reassdata} {count : ℕ} {s' : Reass},
    count = (kept.map Reassdata.clen).sum + (rs.map Reassdata.clen).sum →
    tmrLoop kept count rs = some s' →
      s'.reassdatagrams =
        kept ++ (rs.filter fun r => decide (0 < r.timer)).map Reassdata.aged ∧
      s'.pbufcount = (s'.reassdatagrams.map Reassdata.clen).sum ∧ s'.pbufcount ≤ count := by
  induction rs with
  | nil =>
    intro kept count s' hcount h
    cases h
    exact ⟨(List.append_nil kept).symm, hcount, le_rfl⟩
  | cons r rs ih =>
    intro kept count s' hcount h
    rw [List.map_cons, List.sum_cons] at hcount
    rw [tmrLoop] at h
    by_cases htimer : 0 < r.timer
    · rw [if_pos htimer] at h
      have hcount' : count =
          ((kept ++ [r.aged]).map Reassdata.clen).sum + (rs.map Reassdata.clen).sum := by
        rw [List.map_append, List.sum_append, List.map_singleton, List.sum_singleton, hcount,
          Nat.add_assoc]
        rfl
      obtain ⟨hlist, hsum, hle⟩ := ih hcount' h
      refine ⟨?_, hsum, hle⟩
      rw [hlist, List.filter_cons_of_pos (by simpa using htimer), List.map_cons, List.append_assoc,
        List.singleton_append]
    · rw [if_neg htimer] at h
      obtain ⟨⟨t, n⟩, hfree, h⟩ := Option.bind_eq_some_iff.mp h
      obtain ⟨front, d, back, hpieces, hplace, -, rfl⟩ := freeCompleteDatagram_spec hfree
      obtain ⟨rfl, hrest⟩ := List.append_inj hpieces hplace.symm
      obtain ⟨rfl, rfl⟩ := List.cons.inj hrest
      have hcount' : count - r.clen =
          (kept.map Reassdata.clen).sum + (rs.map Reassdata.clen).sum := by
        omega
      obtain ⟨hlist, hsum, hle⟩ := ih hcount' h
      refine ⟨?_, hsum, hle.trans (Nat.sub_le _ _)⟩
      rw [hlist, List.filter_cons_of_neg (by simpa using htimer)]

theorem ipReassTmr_accounted {s s' : Reass} (hs : Accounted s) (h : ipReassTmr s = some s') :
    Accounted s' := by
  obtain ⟨hlist, hsum, hle⟩ := tmrLoop_eq (by simpa using hs.count) h
  rw [List.nil_append] at hlist
  have hmem : ∀ d ∈ s'.reassdatagrams, ∃ r ∈ s.reassdatagrams, d = r.aged := by
    intro d hd
    rw [hlist] at hd
    obtain ⟨r, hr, rfl⟩ := List.mem_map.mp hd
    exact ⟨r, (List.mem_filter.mp hr).1, rfl⟩
  refine ⟨⟨hsum, hle.trans hs.le_max, ?_, ?_, ?_⟩, ?_⟩
  · rw [hlist]
    refine List.pairwise_map.mpr ((hs.timers.filter _).imp ?_)
    intro d r hle'
    exact Nat.sub_le_sub_right hle' 1
  · intro d hd
    obtain ⟨r, hr, rfl⟩ := hmem d hd
    exact (Nat.sub_le _ _).trans (hs.timer_le r hr)
  · rw [hlist]
    exact List.pairwise_map.mpr (hs.distinct.filter _)
  · intro d hd
    obtain ⟨r, hr, rfl⟩ := hmem d hd
    exact hs.nonempty r hr

theorem accounted_of_run {ok : State → Event → Prop} {as : List Event} {s : State}
    (hr : reassSystem.Run ok as s) : Accounted s.reass := by
  induction hr with
  | start h =>
    rw [h]
    exact ⟨⟨rfl, Nat.zero_le _, List.Pairwise.nil, nofun, List.Pairwise.nil⟩, nofun⟩
  | @snoc as s t a _ _ hs ih =>
    obtain ⟨-, hexec⟩ := hs
    cases a with
    | fragment f =>
      obtain ⟨⟨s', r⟩, hreass, rfl⟩ := Option.map_eq_some_iff.mp hexec
      exact ipReass_accounted ih hreass
    | tick =>
      obtain ⟨s', htmr, rfl⟩ := Option.map_eq_some_iff.mp hexec
      exact ipReassTmr_accounted ih htmr

/-! ### The places of the fragments -/

/-- The fragments `ip_reass_free_complete_datagram` frees. -/
def freeCompleteFreed (s : Reass) (ipr : ℕ) : List Fragment :=
  match s.reassdatagrams[ipr]? with
  | none => []
  | some d => d.p.map Helper.frag

/-- The fragments freed by the turns of `removeOldestLoop`. -/
def removeOldestFreed (fraghdr : IpHdr) (needed : ℕ) : ℕ → ℕ → Reass → List Fragment
  | 0, _, _ => []
  | fuel + 1, freed, s =>
    let n := s.reassdatagrams.length
    let prev := if 2 ≤ n then some (n - 2) else none
    match oldestLoop fraghdr 0 none 0 s.reassdatagrams with
    | (none, _) => []
    | (some (oldest, _), other) =>
      freeCompleteFreed s oldest ++
        match freeCompleteDatagram s oldest prev with
        | none => []
        | some (s', current) =>
          if freed + current < needed ∧ 1 < other then
            removeOldestFreed fraghdr needed fuel (freed + current) s'
          else []

def makeRoomFreed (s : Reass) (fraghdr : IpHdr) (clen : ℕ) : List Fragment :=
  if s.pbufcount + clen > IP_REASS_MAX_PBUFS then
    removeOldestFreed fraghdr clen (s.reassdatagrams.length + 1) 0 s
  else []

def lookUpFreed (s : Reass) (fraghdr : IpHdr) (clen : ℕ) : List Fragment :=
  match s.reassdatagrams.findIdx? fun d => d.iphdr.match fraghdr with
  | none =>
    if s.reassdatagrams.length < MEMP_NUM_REASSDATA then []
    else removeOldestFreed fraghdr clen (s.reassdatagrams.length + 1) 0 s
  | some _ => []

/-- The fragments freed by `ip_reass(p)`: those of datagrams given up, and `p` itself at
`nullreturn` and `freepbuf`. -/
def ipReassFreed (s : Reass) (f : Fragment) : List Fragment :=
  if f.hdr.hl * 4 ≠ IP_HLEN then [f]
  else
    match makeRoom s f.hdr (pbufClen f.pbufs) with
    | none => []
    | some (s₁, room) =>
      makeRoomFreed s f.hdr (pbufClen f.pbufs) ++
        if room = false then [f]
        else
          lookUpFreed s₁ f.hdr (pbufClen f.pbufs) ++
            match lookUp s₁ f.hdr (pbufClen f.pbufs) with
            | some (_, none) => [f]
            | some (_, some (_, ipr)) =>
              match chainLoop (helperOf f) true [] ipr.p with
              | some .dropped => [f]
              | _ => []
            | none => []

/-- The fragments freed by `ip_reass_tmr`. -/
def ipReassTmrFreed (s : Reass) : List Fragment :=
  s.reassdatagrams.flatMap fun r => if 0 < r.timer then [] else r.p.map Helper.frag

/-- The reassembly with the fragments that have left it. -/
structure Ledger where
  state : State
  returned : List Fragment
  freed : List Fragment

def Event.freed (s : Reass) : Event → List Fragment
  | fragment f => ipReassFreed s f
  | tick => ipReassTmrFreed s

/-- The reassembly system, in which it is kept in mind what was returned and freed. -/
def ledgerSystem : System Ledger Event where
  start l := l = ⟨⟨⟨[], 0⟩, none⟩, [], []⟩
  step l e l' := e.Allowed ∧ ∃ s, e.exec l.state = some s ∧
    l' = ⟨s, l.returned ++ (s.returned.map Datagram.frags).getD [], l.freed ++ e.freed l.state.reass⟩

/-- The fragments in the queues. -/
def Reass.fragments (s : Reass) : Multiset Fragment :=
  ↑(s.reassdatagrams.flatMap fun d => d.p.map Helper.frag)


theorem Reass.fragments_append (front back : List Reassdata) (n : ℕ) :
    Reass.fragments ⟨front ++ back, n⟩ =
      Reass.fragments ⟨front, n⟩ + Reass.fragments ⟨back, n⟩ := by
  simp only [Reass.fragments, List.flatMap_append, Multiset.coe_add]

theorem Reass.fragments_cons (d : Reassdata) (back : List Reassdata) (n : ℕ) :
    Reass.fragments ⟨d :: back, n⟩ = ↑(d.p.map Helper.frag) + Reass.fragments ⟨back, n⟩ := by
  simp only [Reass.fragments, List.flatMap_cons, Multiset.coe_add]

theorem freeCompleteDatagram_fragments {s s' : Reass} {i n : ℕ} {prev : Option ℕ}
    (h : freeCompleteDatagram s i prev = some (s', n)) :
    s.fragments = s'.fragments + ↑(freeCompleteFreed s i) := by
  obtain ⟨front, d, back, hlist, rfl, -, rfl⟩ := freeCompleteDatagram_spec h
  have hfreed : freeCompleteFreed s front.length = d.p.map Helper.frag := by
    rw [freeCompleteFreed, hlist, List.getElem?_append_right le_rfl, Nat.sub_self]
    rfl
  have hs : s.fragments = Reass.fragments ⟨front ++ d :: back, 0⟩ := by
    rw [Reass.fragments, hlist]
    rfl
  rw [hs, hfreed, Reass.fragments_append, Reass.fragments_cons, Reass.fragments_append]
  change _ + (_ + _) = Reass.fragments ⟨front, 0⟩ + Reass.fragments ⟨back, 0⟩ + _
  abel

theorem removeOldestLoop_fragments {fraghdr : IpHdr} {needed fuel : ℕ} :
    ∀ {freed n : ℕ} {s s' : Reass}, removeOldestLoop fraghdr needed fuel freed s = some (s', n) →
      s.fragments = s'.fragments + ↑(removeOldestFreed fraghdr needed fuel freed s) := by
  induction fuel with
  | zero => nofun
  | succ fuel ih =>
    intro freed n s s' h
    rw [removeOldestLoop] at h
    rw [removeOldestFreed]
    simp only at h ⊢
    cases hloop : oldestLoop fraghdr 0 none 0 s.reassdatagrams with
    | mk found other =>
      rw [hloop] at h
      cases found with
      | none =>
        cases h
        exact (add_zero _).symm
      | some entry =>
        obtain ⟨⟨t, current⟩, hfree, h⟩ := Option.bind_eq_some_iff.mp h
        have ht := freeCompleteDatagram_fragments hfree
        simp only [hfree]
        by_cases hmore : freed + current < needed ∧ 1 < other
        · simp only [if_pos hmore] at h ⊢
          rw [ht, ih h, ← Multiset.coe_add]
          abel
        · simp only [if_neg hmore] at h ⊢
          cases h
          rw [ht, List.append_nil]

theorem makeRoom_fragments {s s' : Reass} {fraghdr : IpHdr} {clen : ℕ} {room : Bool}
    (h : makeRoom s fraghdr clen = some (s', room)) :
    s.fragments = s'.fragments + ↑(makeRoomFreed s fraghdr clen) := by
  rw [makeRoom] at h
  rw [makeRoomFreed]
  split at h
  · next hover =>
    rw [if_pos hover]
    obtain ⟨⟨t, freed⟩, hremove, h⟩ := Option.bind_eq_some_iff.mp h
    cases h
    exact removeOldestLoop_fragments hremove
  · next hfits =>
    rw [if_neg hfits]
    cases h
    exact (add_zero _).symm

theorem lookUp_fragments {s s' : Reass} {fraghdr : IpHdr} {clen : ℕ}
    {r : Option (ℕ × Reassdata)} (h : lookUp s fraghdr clen = some (s', r)) :
    s.fragments = s'.fragments + ↑(lookUpFreed s fraghdr clen) := by
  rw [lookUp] at h
  rw [lookUpFreed]
  cases hfind : s.reassdatagrams.findIdx? fun d => d.iphdr.match fraghdr with
  | some i =>
    rw [hfind] at h
    simp only [Option.some.injEq, Prod.mk.injEq] at h
    obtain ⟨rfl, -⟩ := h
    exact (add_zero _).symm
  | none =>
    rw [hfind] at h
    obtain ⟨⟨t, enqueued⟩, henq, h⟩ := Option.bind_eq_some_iff.mp h
    simp only [Option.pure_def, Option.some.injEq, Prod.mk.injEq] at h
    obtain ⟨rfl, -⟩ := h
    have hnew : ∀ t : Reass, (newDatagram t fraghdr).fragments = t.fragments := fun t =>
      (Reass.fragments_cons _ t.reassdatagrams t.pbufcount).trans (zero_add _)
    rw [enqueueNewDatagram] at henq
    split at henq
    · next hroom =>
      cases henq
      simp only [if_pos hroom]
      rw [hnew]
      exact (add_zero _).symm
    · next hfull =>
      obtain ⟨⟨t', freed⟩, hremove, henq⟩ := Option.bind_eq_some_iff.mp henq
      simp only [if_neg hfull]
      rw [removeOldestLoop_fragments hremove]
      simp only at henq
      split at henq
      · cases henq
        rw [hnew]
      · cases henq
        rfl

theorem Located.fragments_set {s : Reass} {i n : ℕ} {d e r : Reassdata}
    {front back : List Reassdata} (h : Located s i d front e back) :
    Reass.fragments ⟨s.reassdatagrams.set i r, n⟩ + ↑(e.p.map Helper.frag) =
      s.fragments + ↑(r.p.map Helper.frag) := by
  have hset : s.reassdatagrams.set i r = front ++ r :: back := by
    rw [h.list, ← h.place, List.set_append_right _ _ le_rfl, Nat.sub_self, List.set_cons_zero]
  have hs : s.fragments = Reass.fragments ⟨front ++ e :: back, n⟩ := by
    rw [Reass.fragments, h.list]
    rfl
  rw [hset, hs, Reass.fragments_append, Reass.fragments_cons, Reass.fragments_append,
    Reass.fragments_cons]
  abel

theorem coe_queue (front back : List Helper) (new : Helper) :
    (↑((front ++ new :: back).map Helper.frag) : Multiset Fragment) =
      ↑((front ++ back).map Helper.frag) + {new.frag} := by
  rw [List.map_append, List.map_cons, ← Multiset.coe_add, ← Multiset.cons_coe, List.map_append,
    ← Multiset.coe_add, ← Multiset.singleton_add]
  abel

/-- A fragment that arrives is queued, returned or freed, like those queued before. -/
theorem ipReass_fragments {s s' : Reass} {f : Fragment} {returned : Option Datagram}
    (hs : Accounted s) (h : ipReass s f = some (s', returned)) :
    s.fragments + {f} =
      s'.fragments + ↑((returned.map Datagram.frags).getD []) + ↑(ipReassFreed s f) := by
  rw [ipReass] at h
  rw [ipReassFreed]
  split at h
  · next hopts =>
    rw [if_pos hopts]
    cases h
    exact congrArg (· + _) (add_zero _).symm
  · next hopts =>
    rw [if_neg hopts]
    obtain ⟨⟨s₁, room⟩, hroom, h⟩ := Option.bind_eq_some_iff.mp h
    have hs₁ := (makeRoom_accounted hs hroom).1
    simp only [hroom]
    rw [makeRoom_fragments hroom, ← Multiset.coe_add]
    simp only at h
    split at h
    · next hfull =>
      cases h
      rw [if_pos hfull]
      simp only [Option.map_none, Option.getD_none, Multiset.coe_nil, Multiset.coe_singleton,
        add_zero]
      abel
    · next hroomy =>
      rw [if_neg hroomy]
      obtain ⟨⟨s₂, found⟩, hlook, h⟩ := Option.bind_eq_some_iff.mp h
      obtain ⟨-, -, -, hsome⟩ := lookUp_accounted hs₁ hlook
      simp only [hlook]
      rw [lookUp_fragments hlook, ← Multiset.coe_add]
      cases found with
      | none =>
        cases h
        simp only [Option.map_none, Option.getD_none, Multiset.coe_nil, Multiset.coe_singleton,
          add_zero]
        abel
      | some entry =>
        obtain ⟨i, ipr⟩ := entry
        obtain ⟨front, e, back, hloc⟩ := hsome i ipr rfl
        obtain ⟨chained, hchain, h⟩ := Option.bind_eq_some_iff.mp h
        rw [noteLastFragment_p] at hchain
        simp only [hchain]
        have hcases := chainLoop_pieces hchain
        rw [List.nil_append] at hcases
        obtain ⟨rfl, -⟩ | ⟨valid, pre, post, rfl, hpieces⟩ := hcases
        · cases h
          have hset := hloc.fragments_set (r := noteLastFragment ipr f) (n := 0)
          rw [noteLastFragment_p, hloc.p] at hset
          change _ = Reass.fragments ⟨s₂.reassdatagrams.set i (noteLastFragment ipr f), 0⟩ + _ + _
          rw [add_right_cancel hset]
          simp only [Option.map_none, Option.getD_none, Multiset.coe_nil, Multiset.coe_singleton,
            add_zero]
          abel
        · have hqueue := coe_queue pre post (helperOf f)
          rw [← hpieces, hloc.p] at hqueue
          obtain ⟨complete, hvalidate, h⟩ := Option.bind_eq_some_iff.mp h
          cases complete with
          | false =>
            cases h
            have hset := hloc.fragments_set
              (r := { noteLastFragment ipr f with p := pre ++ helperOf f :: post }) (n := 0)
            have hset' : Reass.fragments ⟨s₂.reassdatagrams.set i
                { noteLastFragment ipr f with p := pre ++ helperOf f :: post }, 0⟩ =
                  s₂.fragments + {f} := by
              refine add_right_cancel (hset.trans ?_)
              rw [hqueue]
              change _ + (_ + {f}) = _
              abel
            change _ = Reass.fragments ⟨s₂.reassdatagrams.set i
              { noteLastFragment ipr f with p := pre ++ helperOf f :: post }, 0⟩ + _ + _
            rw [hset']
            simp only [Option.map_none, Option.getD_none, Multiset.coe_nil, add_zero]
            abel
          | true =>
            cases hqueue' : pre ++ helperOf f :: post with
            | nil => simp at hqueue'
            | cons first rest =>
              simp only [hqueue'] at h
              obtain ⟨c, hc, h⟩ := Option.bind_eq_some_iff.mp h
              cases h
              have herase : s₂.reassdatagrams.eraseIdx i = front ++ back := by
                rw [hloc.list, ← hloc.place, List.eraseIdx_append_of_length_le le_rfl, Nat.sub_self,
                  List.eraseIdx_cons_zero]
              have hs₂ : s₂.fragments + {f} = Reass.fragments ⟨s₂.reassdatagrams.eraseIdx i, 0⟩ +
                  ↑((first :: rest).map Helper.frag) := by
                have hlist : s₂.fragments = Reass.fragments ⟨front ++ e :: back, 0⟩ := by
                  rw [Reass.fragments, hloc.list]
                  rfl
                rw [← hqueue', hqueue, herase, hlist, Reass.fragments_append,
                  Reass.fragments_cons, Reass.fragments_append]
                change _ = _ + (_ + {f})
                abel
              change _ = Reass.fragments ⟨s₂.reassdatagrams.eraseIdx i, 0⟩ +
                ↑((first :: rest).map Helper.frag) + _
              rw [← hs₂]
              simp only [Multiset.coe_nil, add_zero]
              abel

theorem tmrLoop_fragments {rs : List Reassdata} : ∀ {kept : List Reassdata} {count : ℕ}
    {s' : Reass}, tmrLoop kept count rs = some s' →
      Reass.fragments ⟨kept ++ rs, count⟩ =
        s'.fragments + ↑(ipReassTmrFreed ⟨rs, count⟩) := by
  induction rs with
  | nil =>
    intro kept count s' h
    cases h
    rw [List.append_nil]
    exact (add_zero _).symm
  | cons r rs ih =>
    intro kept count s' h
    have hfreed : ipReassTmrFreed ⟨r :: rs, count⟩ =
        (if 0 < r.timer then [] else r.p.map Helper.frag) ++ ipReassTmrFreed ⟨rs, count⟩ :=
      List.flatMap_cons
    rw [tmrLoop] at h
    rw [hfreed, ← Multiset.coe_add]
    by_cases htimer : 0 < r.timer
    · rw [if_pos htimer] at h ⊢
      rw [Multiset.coe_nil, zero_add, ← ih h, Reass.fragments_append, Reass.fragments_cons,
        Reass.fragments_append, Reass.fragments_append, Reass.fragments_cons]
      change _ = _ + (_ + 0) + _
      abel
    · rw [if_neg htimer] at h ⊢
      obtain ⟨⟨t, n⟩, hfree, h⟩ := Option.bind_eq_some_iff.mp h
      have hrest : Reass.fragments ⟨kept ++ rs, t.pbufcount⟩ =
          s'.fragments + ↑(ipReassTmrFreed ⟨rs, t.pbufcount⟩) := ih h
      change Reass.fragments ⟨kept ++ rs, count⟩ =
        s'.fragments + ↑(ipReassTmrFreed ⟨rs, count⟩) at hrest
      rw [Reass.fragments_append] at hrest
      rw [Reass.fragments_append, Reass.fragments_cons, add_left_comm, hrest]
      abel

/-- Every fragment received is in one place, and the queues are as they are counted. -/
structure Reassembled (as : List Event) (l : Ledger) : Prop where
  places : (↑(received as) : Multiset Fragment) = l.state.reass.fragments + ↑l.returned + ↑l.freed
  count : l.state.reass.pbufcount =
    (l.state.reass.reassdatagrams.map fun d => (d.p.map fun h => h.frag.pbufs.length).sum).sum
  le_max : l.state.reass.pbufcount ≤ IP_REASS_MAX_PBUFS
  nonempty : ∀ d ∈ l.state.reass.reassdatagrams, d.p ≠ []
  sorted : ∀ d ∈ l.state.reass.reassdatagrams, Sorted d.p

/-- The reassembly in a ledger runs as it does alone. -/
theorem run_of_ledger {ok : State → Event → Prop} {as : List Event} {l : Ledger}
    (hr : ledgerSystem.Run (fun l e => ok l.state e) as l) : reassSystem.Run ok as l.state := by
  induction hr with
  | start h =>
    rw [h]
    exact .start rfl
  | snoc _ hok hs ih =>
    obtain ⟨hallowed, s, hexec, rfl⟩ := hs
    exact .snoc ih hok ⟨hallowed, hexec⟩

theorem received_snoc_fragment (as : List Event) (f : Fragment) :
    received (as ++ [.fragment f]) = received as ++ [f] := by
  simp [received]

theorem received_snoc_tick (as : List Event) : received (as ++ [.tick]) = received as := by
  simp [received]

theorem places_of_run (ok : State → Event → Prop) {as : List Event} {l : Ledger}
    (hr : ledgerSystem.Run (fun l e => ok l.state e) as l) :
    (↑(received as) : Multiset Fragment) =
      l.state.reass.fragments + ↑l.returned + ↑l.freed := by
  induction hr with
  | start h =>
    rw [h]
    rfl
  | @snoc as l l' a hr _ hs ih =>
    obtain ⟨-, s, hexec, rfl⟩ := hs
    cases a with
    | fragment f =>
      obtain ⟨⟨s', r⟩, hreass, rfl⟩ := Option.map_eq_some_iff.mp hexec
      have hstep := ipReass_fragments (accounted_of_run (run_of_ledger hr)) hreass
      rw [received_snoc_fragment, ← Multiset.coe_add, ih]
      simp only [← Multiset.coe_add, Multiset.coe_singleton]
      change _ = s'.fragments + ((↑l.returned : Multiset Fragment) +
        (((r.map Datagram.frags).getD [] : List Fragment) : Multiset Fragment)) +
        ((↑l.freed : Multiset Fragment) + ↑(ipReassFreed l.state.reass f))
      calc l.state.reass.fragments + ↑l.returned + ↑l.freed + {f}
          = (l.state.reass.fragments + {f}) + ↑l.returned + ↑l.freed := by abel
        _ = _ := by
          rw [hstep]
          abel
    | tick =>
      obtain ⟨s', htmr, rfl⟩ := Option.map_eq_some_iff.mp hexec
      have hstep := tmrLoop_fragments htmr
      rw [List.nil_append] at hstep
      rw [received_snoc_tick, ih]
      simp only [← Multiset.coe_add]
      change _ = s'.fragments + ((↑l.returned : Multiset Fragment) + 0) +
        ((↑l.freed : Multiset Fragment) + ↑(ipReassTmrFreed l.state.reass))
      change l.state.reass.fragments = _ at hstep
      rw [hstep]
      change s'.fragments + (ipReassTmrFreed l.state.reass : Multiset Fragment) + _ + _ = _
      abel

theorem short_of_run {as : List Event} {s : State}
    (hr : reassSystem.Run (fun _ e => ∀ f, e = .fragment f → f.pbufs.length < 256) as s) :
    ∀ f ∈ received as, f.pbufs.length < 256 := by
  induction hr with
  | start _ => nofun
  | @snoc as s t a _ hshort _ ih =>
    cases a with
    | fragment g =>
      rw [received_snoc_fragment]
      intro f hf
      rcases List.mem_append.mp hf with hf | hf
      · exact ih f hf
      · rw [List.mem_singleton.mp hf]
        exact hshort g rfl
    | tick =>
      rw [received_snoc_tick]
      exact ih

/-- In every run on fragments of fewer than 256 pbufs each. -/
theorem reassembled {as : List Event} {l : Ledger}
    (hr : ledgerSystem.Run (fun _ e => ∀ f, e = .fragment f → f.pbufs.length < 256) as l) :
    Reassembled as l := by
  have hrun : reassSystem.Run (fun _ e => ∀ f, e = .fragment f → f.pbufs.length < 256) as l.state :=
    run_of_ledger hr
  have hacc := accounted_of_run hrun
  have hok := ok_of_run hrun
  have hfew := short_of_run hrun
  refine ⟨places_of_run (fun _ e => ∀ f, e = .fragment f → f.pbufs.length < 256) hr, ?_,
    hacc.le_max, hacc.nonempty, fun d hd => (hok d hd).sorted⟩
  rw [hacc.count]
  congr 1
  refine List.map_congr_left fun d hd => ?_
  unfold Reassdata.clen
  congr 1
  refine List.map_congr_left fun h hh => ?_
  rw [pbufClen_eq]
  exact Nat.mod_eq_of_lt (hfew _ ((hok d hd).queued h hh).mem)

theorem reassembled_oneFragment :
    ∃ l : Ledger, l.state.reass.pbufcount = 1 ∧ Reassembled [.fragment (eightBytes 0 true)] l := by
  let queued : State :=
    ⟨⟨[⟨[helperOf (eightBytes 0 true)], (eightBytes 0 true).hdr, 0, false, 3⟩], 1⟩, none⟩
  have hexec : (Event.fragment (eightBytes 0 true)).exec emptyState = some queued := rfl
  have hstep : ledgerSystem.step ⟨emptyState, [], []⟩ (.fragment (eightBytes 0 true))
      ⟨queued, [], []⟩ :=
    ⟨eightBytes_fromInput _ _ (Or.inr rfl), queued, hexec, by rfl⟩
  have hshort : ∀ f, Event.fragment (eightBytes 0 true) = .fragment f → f.pbufs.length < 256 := by
    intro f hf
    cases hf
    decide
  exact ⟨_, rfl, reassembled (System.Run.snoc (.start rfl) hshort hstep)⟩

end QuietLwip.Reassembly
