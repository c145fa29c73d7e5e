import QuietLwip.Reassembly.Accounting

/-!
# The assertions of the reassembly

`LWIP_ASSERT` aborts. The timer never runs into one, nor does the walk to the place of a
fragment. Two can fail: `prev` is wrong when datagrams in front of the fragment's own are given
up for it, and a complete queue need not end where the last fragment noted did.
-/

namespace QuietLwip.Reassembly

open QuietLwip.Word QuietLwip.Buffers QuietLwip.Transition

/-! ### `ip_reass` up to the chaining -/

/-- Where `ip_reass` stands when all of its own assertions are behind it: about to return
`NULL`, or about to chain the pbufs of a complete queue. -/
inductive Checked where
  | returning (s : Reass)
  | complete (s : Reass) (i : ℕ) (ipr : Reassdata) (p : List Helper) (count : ℕ)

/-- `ip_reass(p)` without the chaining of a complete datagram. -/
def ipReassChecked (s : Reass) (f : Fragment) : Option Checked :=
  if f.hdr.hl * 4 ≠ IP_HLEN then some (.returning s)
  else do
    let clen := pbufClen f.pbufs
    let (s, room) ← makeRoom s f.hdr clen
    if room = false then return .returning s
    else
      match ← lookUp s f.hdr clen with
      | (s, none) => return .returning s
      | (s, some (i, ipr)) => do
        let count := u16 (s.pbufcount + clen)
        let ipr := noteLastFragment ipr f
        match ← chainLoop (helperOf f) true [] ipr.p with
        | .dropped =>
          return .returning ⟨s.reassdatagrams.set i ipr, u16 (count - pbufClen f.pbufs)⟩
        | .queued valid front back =>
          let p := front ++ helperOf f :: back
          if ← validate ipr valid (helperOf f) front back then return .complete s i ipr p count
          else return .returning ⟨s.reassdatagrams.set i { ipr with p := p }, count⟩

/-- The rest of `ip_reass(p)`; what can abort here is in `pbuf_header` and `pbuf_cat`. -/
def Checked.finish : Checked → Option (Reass × Option Datagram)
  | returning s => some (s, none)
  | complete s i ipr p count =>
    match p with
    | [] => none
    | first :: rest => do
      let c ← chainPbufs first.frag.pbufs rest
      return (⟨s.reassdatagrams.eraseIdx i, u16 (count - pbufClen c)⟩,
        some ⟨rebuiltHdr ipr, c, p.map Helper.frag⟩)

theorem ipReass_eq (s : Reass) (f : Fragment) :
    ipReass s f = (ipReassChecked s f).bind Checked.finish := by
  rw [ipReass, ipReassChecked]
  split
  · rfl
  · cases hroom : makeRoom s f.hdr (pbufClen f.pbufs) with
    | none => simp [hroom]
    | some r =>
      obtain ⟨s₁, room⟩ := r
      cases room with
      | false => simp [hroom, Checked.finish]
      | true =>
        cases hlook : lookUp s₁ f.hdr (pbufClen f.pbufs) with
        | none => simp [hroom, hlook]
        | some r =>
          obtain ⟨s₂, found⟩ := r
          cases found with
          | none => simp [hroom, hlook, Checked.finish]
          | some entry =>
            obtain ⟨i, ipr⟩ := entry
            cases hchain : chainLoop (helperOf f) true [] (noteLastFragment ipr f).p with
            | none => simp [hroom, hlook, hchain]
            | some chained =>
              cases chained with
              | dropped => simp [hroom, hlook, hchain, Checked.finish]
              | queued valid front back =>
                cases hvalidate : validate (noteLastFragment ipr f) valid (helperOf f) front back with
                | none => simp [hroom, hlook, hchain, hvalidate]
                | some complete =>
                  cases complete with
                  | false => simp [hroom, hlook, hchain, hvalidate, Checked.finish]
                  | true =>
                    simp only [hroom, hlook, hchain, hvalidate, Option.bind_eq_bind, Option.bind_some,
                      if_true]
                    exact (Option.bind_some ..).symm

/-- No assertion of the reassembly code fails in the step. -/
def Event.AssertsHold (s : State) : Event → Prop
  | fragment f => (ipReassChecked s.reass f).isSome
  | tick => (ipReassTmr s.reass).isSome

/-! ### The condition -/

/-- Datagrams in front of the fragment's own are not given up: there are none, or those
behind it have enough pbufs. -/
def RoomBehind (s : Reass) (f : Fragment) : Prop :=
  s.pbufcount + pbufClen f.pbufs ≤ IP_REASS_MAX_PBUFS ∨
    ∀ front d behind, s.reassdatagrams = front ++ d :: behind → d.iphdr.match f.hdr = true →
      front = [] ∨
        behind ≠ [] ∧ pbufClen f.pbufs ≤ (behind.map Reassdata.clen).sum

/-- When the walks find no hole in the queue with the new fragment, it ends where the last
fragment noted did. -/
def EndsAsNoted (ipr : Reassdata) (new : Helper) : Prop :=
  ∀ front back, ipr.p = front ++ back → (∀ x ∈ front, x.start < new.start) →
    (∀ x ∈ back, new.start < x.start) → WalkedPast new front back → ipr.lastFrag = true →
    (front ++ new :: back).head?.map Helper.start = some 0 → Gapless front →
    Gapless (new :: back) → ∀ last, (new :: back).getLast? = some last →
      last.stop = ipr.datagramLen

/-- The condition on a step: what is given up for a fragment lies behind its own datagram, and
a datagram that looks complete with it ends as noted. -/
def Event.Orderly (s : State) : Event → Prop
  | fragment f =>
    f.hdr.hl * 4 ≠ IP_HLEN ∨
    RoomBehind s.reass f ∧
      ((∃ s', makeRoom s.reass f.hdr (pbufClen f.pbufs) = some (s', false)) ∨
        ∀ ipr ∈ s.reass.reassdatagrams, ipr.iphdr.match f.hdr = true →
          EndsAsNoted (noteLastFragment ipr f) (helperOf f))
  | tick => True

/-! ### Giving up datagrams -/

theorem oldestLoop_cons_same {fraghdr : IpHdr} {r : Reassdata} (h : r.iphdr.match fraghdr = true)
    (i : ℕ) (oldest : Option (ℕ × ℕ)) (other : ℕ) (rs : List Reassdata) :
    oldestLoop fraghdr i oldest other (r :: rs) = oldestLoop fraghdr (i + 1) oldest other rs :=
  if_pos h

theorem oldestLoop_cons_other {fraghdr : IpHdr} {r : Reassdata}
    (h : r.iphdr.match fraghdr = false) {oldest : Option (ℕ × ℕ)}
    (hold : ∀ j t, oldest = some (j, t) → r.timer ≤ t) (i other : ℕ) (rs : List Reassdata) :
    oldestLoop fraghdr i oldest other (r :: rs) =
      oldestLoop fraghdr (i + 1) (some (i, r.timer)) (other + 1) rs := by
  cases oldest with
  | none => simp [oldestLoop, h]
  | some entry => simp [oldestLoop, h, hold entry.1 entry.2 rfl]

/-- The walk finds the last entry that is not of the fragment's datagram: no entry is younger
than one behind it. -/
theorem oldestLoop_spec (fraghdr : IpHdr) {l : List Reassdata} :
    ∀ (i other : ℕ) (oldest : Option (ℕ × ℕ)),
      (∀ j t, oldest = some (j, t) → ∀ d ∈ l, d.timer ≤ t) →
      l.Pairwise (fun d e => e.timer ≤ d.timer) →
      ((∀ d ∈ l, d.iphdr.match fraghdr = true) ∧
          (oldestLoop fraghdr i oldest other l).1 = oldest) ∨
        ∃ front d back, l = front ++ d :: back ∧ d.iphdr.match fraghdr = false ∧
          (∀ e ∈ back, e.iphdr.match fraghdr = true) ∧
          (oldestLoop fraghdr i oldest other l).1 = some (i + front.length, d.timer) := by
  induction l with
  | nil =>
    intro i other oldest _ _
    exact Or.inl ⟨nofun, rfl⟩
  | cons r rs ih =>
    intro i other oldest hold htimers
    obtain ⟨hhead, htail⟩ := List.pairwise_cons.mp htimers
    cases hmatch : r.iphdr.match fraghdr with
    | true =>
      rw [oldestLoop_cons_same hmatch]
      have hold' : ∀ j t, oldest = some (j, t) → ∀ d ∈ rs, d.timer ≤ t := fun j t h d hd =>
        hold j t h d (List.mem_cons_of_mem _ hd)
      obtain ⟨hall, hfound⟩ | ⟨front, d, back, hl, hd, hback, hfound⟩ := ih _ _ _ hold' htail
      · exact Or.inl ⟨List.forall_mem_cons.mpr ⟨hmatch, hall⟩, hfound⟩
      · refine Or.inr ⟨r :: front, d, back, by rw [hl]; rfl, hd, hback, ?_⟩
        rw [hfound, List.length_cons]
        congr 2
        omega
    | false =>
      rw [oldestLoop_cons_other hmatch fun j t h => hold j t h r (List.mem_cons_self ..)]
      have hold' : ∀ j t, some (i, r.timer) = some (j, t) → ∀ d ∈ rs, d.timer ≤ t := by
        intro j t h d hd
        cases h
        exact hhead d hd
      obtain ⟨hall, hfound⟩ | ⟨front, d, back, hl, hd, hback, hfound⟩ := ih _ _ _ hold' htail
      · exact Or.inr ⟨[], r, rs, rfl, hmatch, hall, hfound⟩
      · refine Or.inr ⟨r :: front, d, back, by rw [hl]; rfl, hd, hback, ?_⟩
        rw [hfound, List.length_cons]
        congr 2
        omega

/-- The last entry can be given up, with the pointer to the one in front of it. -/
theorem freeCompleteDatagram_last {front : List Reassdata} {d : Reassdata} {n : ℕ}
    (hs : Accounted ⟨front ++ [d], n⟩) :
    freeCompleteDatagram ⟨front ++ [d], n⟩ front.length
      (if 2 ≤ (front ++ [d]).length then some ((front ++ [d]).length - 2) else none) =
        some (⟨front, n - d.clen⟩, d.clen) := by
  have hmem : d ∈ front ++ [d] := by simp
  have hle : d.clen ≤ n := hs.clen_le hmem
  have hmax : n ≤ 10 := hs.le_max
  have hprev : Precedes (if 2 ≤ (front ++ [d]).length then some ((front ++ [d]).length - 2)
      else none) front.length := by
    rw [List.length_append, List.length_singleton]
    split
    · change front.length + 1 - 2 + 1 = front.length
      omega
    · change front.length = 0
      omega
  rw [freeCompleteDatagram, List.getElem?_append_right le_rfl, Nat.sub_self,
    List.getElem?_cons_zero]
  simp only
  rw [if_pos ⟨hprev, hs.nonempty d hmem, by change d.clen ≤ 0xffff; omega, hle⟩,
    List.eraseIdx_append_of_length_le le_rfl, Nat.sub_self, List.eraseIdx_cons_zero,
    List.append_nil]
  rfl

/-- Each turn removes the last entry; the induction is on the list through the fuel. -/
theorem removeOldestLoop_isSome {f : Fragment} {fuel : ℕ} : ∀ (freed : ℕ) {s : Reass},
    Accounted s → s.reassdatagrams.length < fuel →
      (∀ front d behind, s.reassdatagrams = front ++ d :: behind →
        d.iphdr.match f.hdr = true → front = [] ∨
          behind ≠ [] ∧ pbufClen f.pbufs ≤ freed + (behind.map Reassdata.clen).sum) →
      (removeOldestLoop f.hdr (pbufClen f.pbufs) fuel freed s).isSome := by
  induction fuel with
  | zero =>
    intro freed s _ hfuel
    exact absurd hfuel (Nat.not_lt_zero _)
  | succ fuel ih =>
    intro freed s hs hfuel hbehind
    rw [removeOldestLoop]
    simp only
    obtain ⟨-, hfound⟩ | ⟨front, d, back, hl, hd, hback, hfound⟩ :=
      oldestLoop_spec f.hdr 0 0 none (fun _ _ hp => by cases hp) hs.timers
    · cases hloop : oldestLoop f.hdr 0 none 0 s.reassdatagrams with
      | mk found other =>
        rw [hloop] at hfound
        subst hfound
        rfl
    · cases hloop : oldestLoop f.hdr 0 none 0 s.reassdatagrams with
      | mk found other =>
        rw [hloop] at hfound
        subst hfound
        have hback' : back = [] := by
          cases back with
          | nil => rfl
          | cons m back =>
            have hm : m.iphdr.match f.hdr = true := hback m (List.mem_cons_self ..)
            have hsplit : s.reassdatagrams = (front ++ [d]) ++ m :: back := by
              rw [hl]
              simp
            obtain hnil | ⟨hne, -⟩ := hbehind _ _ _ hsplit hm
            · simp at hnil
            · obtain ⟨m', back', rfl⟩ := List.exists_cons_of_ne_nil hne
              have hm' : m'.iphdr.match f.hdr = true := hback m' (by simp)
              have hdistinct := hs.distinct
              rw [hsplit] at hdistinct
              have hmm := (List.pairwise_cons.mp (List.pairwise_append.mp hdistinct).2.1).1 m'
                (List.mem_cons_self ..)
              rw [IpHdr.match_trans hm (IpHdr.match_symm hm')] at hmm
              cases hmm
        subst hback'
        have hs' : s = ⟨front ++ [d], s.pbufcount⟩ := by rw [← hl]
        rw [hs'] at hs hbehind hfuel ⊢
        simp only [Nat.zero_add]
        rw [freeCompleteDatagram_last hs]
        simp only [Option.bind_eq_bind, Option.bind_some]
        split
        · next hmore =>
          rw [List.length_append, List.length_singleton] at hfuel
          refine ih _ (hs.freed (freeCompleteDatagram_last hs)) (by simp only; omega) ?_
          intro front' m behind hfront hm
          simp only at hfront
          have hsplit : front ++ [d] = front' ++ m :: (behind ++ [d]) := by
            rw [hfront]
            simp
          obtain hnil | ⟨-, hle⟩ := hbehind _ _ _ hsplit hm
          · exact Or.inl hnil
          · rw [List.map_append, List.sum_append, List.map_singleton, List.sum_singleton] at hle
            refine Or.inr ⟨?_, by omega⟩
            rintro rfl
            simp only [List.map_nil, List.sum_nil] at hle
            omega
        · rfl

theorem makeRoom_isSome {s : Reass} {f : Fragment} (hs : Accounted s) (hroom : RoomBehind s f) :
    (makeRoom s f.hdr (pbufClen f.pbufs)).isSome := by
  rw [makeRoom]
  split
  · next hover =>
    have hbehind := hroom.resolve_left (by omega)
    obtain ⟨r, hr⟩ := Option.isSome_iff_exists.mp
      (removeOldestLoop_isSome 0 hs (Nat.lt_succ_self _) (by simpa using hbehind))
    rw [removeOldestDatagram, hr]
    rfl
  · rfl

/-- When the fragment's datagram is not in the list, any other can be given up. -/
theorem lookUp_isSome {s : Reass} {f : Fragment} (hs : Accounted s) :
    (lookUp s f.hdr (pbufClen f.pbufs)).isSome := by
  rw [lookUp]
  split
  · next hfind =>
    have hnone : ∀ d ∈ s.reassdatagrams, d.iphdr.match f.hdr = false :=
      List.findIdx?_eq_none_iff.mp hfind
    obtain ⟨r, hr⟩ : ∃ r, enqueueNewDatagram s f.hdr (pbufClen f.pbufs) = some r := by
      rw [enqueueNewDatagram]
      split
      · exact ⟨_, rfl⟩
      · obtain ⟨r, hr⟩ := Option.isSome_iff_exists.mp
          (removeOldestLoop_isSome (f := f) 0 hs (Nat.lt_succ_self _) (by
            intro front d behind hl hd
            have hdnone := hnone d (by rw [hl]; simp)
            rw [hd] at hdnone
            cases hdnone))
        rw [removeOldestDatagram, hr]
        simp only [Option.bind_eq_bind, Option.bind_some]
        split <;> exact ⟨_, rfl⟩
    rw [hr]
    rfl
  · rfl

/-! ### The walks and the timer -/

/-- Past an entry of the queue the new fragment starts at or behind its end. -/
theorem chainLoop_isSome (new : Helper) (rest : List Helper) :
    ∀ (valid : Bool) (front : List Helper),
      (∀ prev, front.getLast? = some prev → prev.stop ≤ new.start) →
      (chainLoop new valid front rest).isSome := by
  induction rest with
  | nil =>
    intro valid front hpast
    rw [chainLoop]
    cases hlast : front.getLast? with
    | none => rfl
    | some prev =>
      simp only
      rw [if_pos (hpast prev hlast)]
      rfl
  | cons tmp rest ih =>
    intro valid front hpast
    rw [chainLoop]
    split
    · split
      · rfl
      · split <;> rfl
    · split
      · rfl
      · split
        · rfl
        · next hclear =>
          refine ih _ _ ?_
          intro prev hprev
          rw [List.getLast?_concat] at hprev
          cases hprev
          omega

/-- The assertions behind the walk, when the queue ends as noted. -/
theorem validate_isSome {ipr : Reassdata} (valid : Bool) {new : Helper} {front back : List Helper}
    (hseveral : ipr.lastFrag = true → (front ++ new :: back).head?.map Helper.start = some 0 →
      front ++ back ≠ [])
    (hends : valid = true → ipr.lastFrag = true →
      (front ++ new :: back).head?.map Helper.start = some 0 → Gapless (new :: back) →
        ∀ last, (new :: back).getLast? = some last → last.stop = ipr.datagramLen) :
    (validate ipr valid new front back).isSome := by
  rw [validate]
  split
  · next hcond =>
    obtain ⟨hlastFrag, hv⟩ := hcond
    cases hp : front ++ new :: back with
    | nil => simp at hp
    | cons first rest =>
      rw [hp] at hseveral hends
      simp only
      split
      · rfl
      · next hstart =>
        have hfirst : (first :: rest).head?.map Helper.start = some 0 := by
          simpa using hstart
        cases hrest : restLoop new back with
        | none => rfl
        | some last =>
          obtain ⟨hgap, hlast⟩ := restLoop_spec hrest
          simp only
          rw [if_pos ⟨hseveral hlastFrag hfirst, hends hv hlastFrag hfirst hgap last hlast⟩]
          rfl
  · rfl

theorem tmrLoop_isSome {rs : List Reassdata} : ∀ {kept : List Reassdata} {count : ℕ},
    (∀ d ∈ rs, d.p ≠ []) → (rs.map Reassdata.clen).sum ≤ count → count ≤ IP_REASS_MAX_PBUFS →
      (tmrLoop kept count rs).isSome := by
  induction rs with
  | nil =>
    intro kept count _ _ _
    rfl
  | cons r rs ih =>
    intro kept count hne hcount hmax
    obtain ⟨hr, hrs⟩ := List.forall_mem_cons.mp hne
    rw [List.map_cons, List.sum_cons] at hcount
    rw [tmrLoop]
    split
    · exact ih hrs (by omega) hmax
    · have hprev : Precedes (if kept = [] then none else some (kept.length - 1)) kept.length := by
        cases kept with
        | nil => rfl
        | cons k kept => exact Nat.succ_pred_eq_of_pos (Nat.succ_pos _)
      have hmax' : IP_REASS_MAX_PBUFS = 10 := rfl
      have hfree : freeCompleteDatagram ⟨kept ++ r :: rs, count⟩ kept.length
          (if kept = [] then none else some (kept.length - 1)) =
            some (⟨kept ++ rs, count - r.clen⟩, r.clen) := by
        rw [freeCompleteDatagram, List.getElem?_append_right le_rfl, Nat.sub_self,
          List.getElem?_cons_zero]
        simp only
        rw [if_pos ⟨hprev, hr, by change r.clen ≤ 0xffff; omega, by change r.clen ≤ count; omega⟩,
          List.eraseIdx_append_of_length_le le_rfl, Nat.sub_self, List.eraseIdx_cons_zero]
        rfl
      simp only [hfree, Option.bind_eq_bind, Option.bind_some]
      exact ih hrs (by omega) (by omega)

/-! ### Runs -/

/-- Which header of the datagram an entry keeps does not matter, and a new entry with its first
fragment does not look complete. -/
theorem Found.endsAsNoted {s : Reass} {f : Fragment} {d : Reassdata} (h : Found s f.hdr d)
    (hf : f.FromInput)
    (hends : ∀ ipr ∈ s.reassdatagrams, ipr.iphdr.match f.hdr = true →
      EndsAsNoted (noteLastFragment ipr f) (helperOf f)) :
    EndsAsNoted (noteLastFragment d f) (helperOf f) := by
  cases h with
  | @old ipr iphdr hmem hmatch _ =>
    have hcomm : noteLastFragment { ipr with iphdr := iphdr } f =
        { noteLastFragment ipr f with iphdr := iphdr } := by
      rw [noteLastFragment, noteLastFragment]
      split <;> rfl
    rw [hcomm]
    exact hends ipr hmem hmatch
  | new =>
    intro front back hpieces _ _ _ hlastFrag hfirst _ _ _ _
    rw [noteLastFragment_p] at hpieces
    obtain ⟨rfl, rfl⟩ := List.append_eq_nil_iff.mp hpieces.symm
    have hstart : f.hdr.offset * 8 = 0 := by
      have hzero : (helperOf f).start = 0 := Option.some.inj hfirst
      rwa [helperOf_start hf] at hzero
    have hmf : f.hdr.mf = true := hf.fragment.resolve_left (by omega)
    rw [noteLastFragment, if_neg (by rw [hmf]; decide)] at hlastFrag
    cases hlastFrag

/-- A queue of one fragment, which begins at 0, does not have the last one noted. -/
theorem Found.several {s : Reass} {f : Fragment} {d : Reassdata}
    {front back : List Helper} (h : Found s f.hdr d) (hf : f.FromInput)
    (hne : ∀ ipr ∈ s.reassdatagrams, ipr.p ≠ []) (hp : d.p = front ++ back)
    (hlastFrag : (noteLastFragment d f).lastFrag = true)
    (hfirst : (front ++ helperOf f :: back).head?.map Helper.start = some 0) :
    front ++ back ≠ [] := by
  cases h with
  | @old ipr iphdr hmem _ _ =>
    rw [← hp]
    exact hne ipr hmem
  | new =>
    intro hnil
    obtain ⟨rfl, rfl⟩ := List.append_eq_nil_iff.mp hnil
    have hstart : f.hdr.offset * 8 = 0 := by
      have hzero : (helperOf f).start = 0 := Option.some.inj hfirst
      rwa [helperOf_start hf] at hzero
    have hmf : f.hdr.mf = true := hf.fragment.resolve_left (by omega)
    rw [noteLastFragment, if_neg (by rw [hmf]; decide)] at hlastFrag
    cases hlastFrag

theorem ipReassChecked_isSome {received : List Fragment} {s : Reass} {f : Fragment} {old : Option Datagram}
    (hf : f.FromInput) (hs : Accounted s) (hok : ∀ d ∈ s.reassdatagrams, d.Ok received)
    (hord : (Event.fragment f).Orderly ⟨s, old⟩) : (ipReassChecked s f).isSome := by
  rw [ipReassChecked]
  split
  · rfl
  · next hhl =>
    obtain hopts | ⟨hbehind, hends⟩ := hord
    · exact absurd hopts hhl
    · obtain ⟨⟨s₁, room⟩, hroom⟩ := Option.isSome_iff_exists.mp (makeRoom_isSome hs hbehind)
      have hs₁ := (makeRoom_accounted hs hroom).1
      have hsub := makeRoom_subset hroom
      simp only [hroom, Option.bind_eq_bind, Option.bind_some]
      split
      · rfl
      · next hroomy =>
        obtain ⟨⟨s₂, found⟩, hlook⟩ := Option.isSome_iff_exists.mp (lookUp_isSome (f := f) hs₁)
        simp only [hlook, Option.bind_some]
        cases found with
        | none => rfl
        | some entry =>
          obtain ⟨i, ipr⟩ := entry
          have hipr := (lookUp_spec hlook).2 i ipr rfl
          have hiprOk := hipr.ok fun d hd => hok d (hsub hd)
          obtain ⟨chained, hchain⟩ := Option.isSome_iff_exists.mp
            (chainLoop_isSome (helperOf f) ipr.p true [] nofun)
          have hplaced : Placed (helperOf f) ([] ++ ipr.p) chained :=
            chainLoop_spec hiprOk.sorted nofun (fun _ => List.isChain_nil) hchain
          simp only [noteLastFragment_p, hchain, Option.bind_some]
          cases chained with
          | dropped => rfl
          | queued valid front back =>
            rw [List.nil_append] at hplaced
            cases hplaced with
            | queued _ _ _ hp hfront hback hvalid hlast hmid =>
            have hseveral := hipr.several hf hs₁.nonempty hp
            have hpast : valid = true → WalkedPast (helperOf f) front back := by
              intro hv prev hprev
              cases back with
              | nil =>
                have hstop := hlast hv rfl prev hprev
                exact ⟨hstop.le, fun _ => hstop⟩
              | cons tmp back => exact ⟨hmid prev tmp back hprev rfl, nofun⟩
            have hnoted : EndsAsNoted (noteLastFragment ipr f) (helperOf f) := by
              obtain ⟨t, ht⟩ | hends := hends
              · rw [hroom] at ht
                cases ht
                exact absurd rfl hroomy
              · exact hipr.endsAsNoted hf fun e he => hends e (hsub he)
            obtain ⟨complete, hvalidate⟩ := Option.isSome_iff_exists.mp
              (validate_isSome valid hseveral (by
                  intro hv hlastFrag hfirst hgap
                  refine hnoted front back ?_ hfront hback (hpast hv) hlastFrag hfirst
                    (hvalid hv) hgap
                  rw [noteLastFragment_p]
                  exact hp))
            simp only [hvalidate, Option.bind_some]
            cases complete <;> rfl

/-- In every run whose steps are orderly, no assertion fails in a further orderly step. -/
theorem asserts_hold {as : List Event} {s : State} (hr : reassSystem.Run Event.Orderly as s)
    {e : Event} (hallowed : e.Allowed) (hord : e.Orderly s) : e.AssertsHold s := by
  have hs := accounted_of_run hr
  cases e with
  | fragment f => exact ipReassChecked_isSome hallowed hs (ok_of_run hr) hord
  | tick => exact tmrLoop_isSome hs.nonempty hs.count.ge hs.le_max

theorem asserts_hold_inOrder :
    (Event.fragment (eightBytes 1 false)).AssertsHold
      ⟨⟨[⟨[helperOf (eightBytes 0 true)], (eightBytes 0 true).hdr, 0, false, 3⟩], 1⟩, none⟩ := by
  have hexec : (Event.fragment (eightBytes 0 true)).exec emptyState =
      some ⟨⟨[⟨[helperOf (eightBytes 0 true)], (eightBytes 0 true).hdr, 0, false, 3⟩], 1⟩, none⟩ :=
    rfl
  have hfirst : (Event.fragment (eightBytes 0 true)).Orderly emptyState :=
    Or.inr ⟨Or.inl (by decide), Or.inr (List.forall_mem_nil _)⟩
  have hrun := System.Run.snoc (S := reassSystem) (a := Event.fragment (eightBytes 0 true))
    (.start rfl) hfirst ⟨eightBytes_fromInput _ _ (Or.inr rfl), hexec⟩
  refine asserts_hold hrun (eightBytes_fromInput _ _ (Or.inl (by decide))) ?_
  refine Or.inr ⟨Or.inl (by decide), Or.inr ?_⟩
  intro ipr hipr _ front back hpieces hfront hback _ _ _ _ _ last hlast
  obtain rfl := List.mem_singleton.mp hipr
  change [helperOf (eightBytes 0 true)] = front ++ back at hpieces
  cases back with
  | nil =>
    cases hlast
    rfl
  | cons x back =>
    have hx : x = helperOf (eightBytes 0 true) := by
      have hmem : x ∈ [helperOf (eightBytes 0 true)] := hpieces ▸ by simp
      exact List.mem_singleton.mp hmem
    have hless := hback x (List.mem_cons_self ..)
    rw [hx] at hless
    exact absurd hless (by decide)

/-- 8..16 is the last fragment, yet 16..24 is queued behind it: when 0..8 completes the
datagram, its end is not the one noted. -/
theorem assertion_fails :
    ¬ ∀ (as : List Event) (s : State), reassSystem.Run (fun _ _ => True) as s →
      ∀ e : Event, e.Allowed → e.AssertsHold s := by
  intro h
  let as : List Event := [.fragment (eightBytes 1 false), .fragment (eightBytes 2 true)]
  have hexec : (as.foldlM Event.exec emptyState).map
      (fun s => (ipReassChecked s.reass (eightBytes 0 true)).isSome) = some false := by
    decide
  obtain ⟨s, hs, hnone⟩ := Option.map_eq_some_iff.mp hexec
  have hallowed : ∀ e ∈ as, e.Allowed := by
    simp only [as, List.forall_mem_cons]
    exact ⟨eightBytes_fromInput _ _ (Or.inl (by decide)), eightBytes_fromInput _ _ (Or.inr rfl),
      List.forall_mem_nil _⟩
  have hr := run_of_exec (.start rfl) hallowed hs
  have hsome := h _ s hr (.fragment (eightBytes 0 true)) (eightBytes_fromInput _ _ (Or.inr rfl))
  exact Bool.false_ne_true (hnone.symm.trans hsome)

end QuietLwip.Reassembly
