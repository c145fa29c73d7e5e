import QuietLwip.Reassembly.Datagrams

/-!
# Runs of the reassembly

Entries are given up, found, made and filled; what is queued in them stays a part of the
fragments received. Every datagram returned tiles an interval when no fragment is put behind a
hole of an otherwise complete datagram. `ip_reass` does not look for that hole.
-/

namespace QuietLwip.Reassembly

open QuietLwip.Word QuietLwip.Buffers QuietLwip.Transition

/-! ### The entries -/

theorem IpHdr.match_iff {a b : IpHdr} :
    a.match b = true ↔ a.src = b.src ∧ a.dest = b.dest ∧ a.id = b.id := by
  simp [IpHdr.match]

theorem IpHdr.match_self (a : IpHdr) : a.match a = true :=
  IpHdr.match_iff.mpr ⟨rfl, rfl, rfl⟩

theorem IpHdr.match_symm {a b : IpHdr} (h : a.match b = true) : b.match a = true := by
  obtain ⟨hsrc, hdest, hid⟩ := IpHdr.match_iff.mp h
  exact IpHdr.match_iff.mpr ⟨hsrc.symm, hdest.symm, hid.symm⟩

theorem IpHdr.match_trans {a b c : IpHdr} (hab : a.match b = true) (hbc : b.match c = true) :
    a.match c = true := by
  obtain ⟨hsrc, hdest, hid⟩ := IpHdr.match_iff.mp hab
  obtain ⟨hsrc', hdest', hid'⟩ := IpHdr.match_iff.mp hbc
  exact IpHdr.match_iff.mpr ⟨hsrc.trans hsrc', hdest.trans hdest', hid.trans hid'⟩

namespace Reassdata.Ok

variable {received : List Fragment} {d ipr : Reassdata} {f : Fragment}

theorem mono {received' : List Fragment} (hsub : received ⊆ received') (h : d.Ok received) :
    d.Ok received' where
  sorted := h.sorted
  queued x hx := { h.queued x hx with mem := hsub (h.queued x hx).mem }
  lastNoted hlast :=
    let ⟨g, hg, hnoted⟩ := h.lastNoted hlast
    ⟨g, hsub hg, hnoted⟩

theorem new (fraghdr : IpHdr) : Reassdata.Ok received ⟨[], fraghdr, 0, false, IP_REASS_MAXAGE⟩ where
  sorted := List.Pairwise.nil
  queued := nofun
  lastNoted := nofun

theorem withTimer (h : d.Ok received) (timer : ℕ) : { d with timer := timer }.Ok received where
  sorted := h.sorted
  queued := h.queued
  lastNoted hlast :=
    let ⟨g, hg, hnoted⟩ := h.lastNoted hlast
    ⟨g, hg, { hnoted with }⟩

theorem withHdr (h : d.Ok received) {iphdr : IpHdr} (hsame : d.iphdr.match iphdr = true) :
    { d with iphdr := iphdr }.Ok received where
  sorted := h.sorted
  queued x hx :=
    { h.queued x hx with same := IpHdr.match_trans (h.queued x hx).same hsame }
  lastNoted hlast :=
    let ⟨g, hg, hnoted⟩ := h.lastNoted hlast
    ⟨g, hg, { hnoted with same := IpHdr.match_trans hnoted.same hsame }⟩

/-- The check for 'no more fragments', once it is known where the fragment goes; `p` is
the queue it goes to, or the old one. -/
theorem note (h : ipr.Ok received) (hf : f.FromInput) (hhl : f.hdr.hl * 4 = IP_HLEN)
    (hsame : f.hdr.match ipr.iphdr = true) {p : List Helper} (hsub : ipr.p ⊆ p)
    (hsorted : Sorted p) (hqueued : ∀ x ∈ p, Queued (received ++ [f]) ipr.iphdr x)
    (hbounds : (helperOf f).start ≤ (helperOf f).stop ∨ ∃ x ∈ p, Covers x (helperOf f)) :
    { noteLastFragment ipr f with p := p }.Ok (received ++ [f]) := by
  rw [noteLastFragment]
  split
  · next hmf =>
    refine ⟨hsorted, hqueued, fun _ => ⟨f, List.mem_append_right _ (List.mem_singleton.mpr rfl), ?_⟩⟩
    exact ⟨hf, hhl, hsame, hmf, rfl, hbounds⟩
  · refine ⟨hsorted, hqueued, fun hlast => ?_⟩
    obtain ⟨g, hg, hnoted⟩ := h.lastNoted hlast
    refine ⟨g, List.mem_append_left _ hg, { hnoted with bounds := ?_ }⟩
    rcases hnoted.bounds with hle | ⟨x, hx, hcovers⟩
    · exact Or.inl hle
    · exact Or.inr ⟨x, hsub hx, hcovers⟩

theorem dropped (h : ipr.Ok received) (hf : f.FromInput) (hhl : f.hdr.hl * 4 = IP_HLEN)
    (hsame : f.hdr.match ipr.iphdr = true) (hplaced : Placed (helperOf f) ipr.p .dropped) :
    (noteLastFragment ipr f).Ok (received ++ [f]) := by
  have hp : noteLastFragment ipr f = { noteLastFragment ipr f with p := ipr.p } := by
    rw [noteLastFragment]
    split <;> rfl
  have hok := h.mono (List.subset_append_left received [f])
  rw [hp]
  refine h.note hf hhl hsame (List.Subset.refl _) hok.sorted hok.queued ?_
  cases hplaced with
  | dropped hcovers => exact hcovers.symm

theorem queue (h : ipr.Ok received) (hf : f.FromInput) (hhl : f.hdr.hl * 4 = IP_HLEN)
    (hsame : f.hdr.match ipr.iphdr = true) {valid : Bool} {front back : List Helper}
    (hplaced : Placed (helperOf f) ipr.p (.queued valid front back)) :
    { noteLastFragment ipr f with p := front ++ helperOf f :: back }.Ok (received ++ [f]) := by
  cases hplaced with
  | queued _ _ _ hp hfront hback =>
  have hok := h.mono (List.subset_append_left received [f])
  have hperm : ∀ x, x ∈ front ++ helperOf f :: back ↔ x = helperOf f ∨ x ∈ ipr.p := by
    intro x
    rw [hp, List.mem_append, List.mem_cons, List.mem_append]
    tauto
  refine h.note hf hhl hsame (fun x hx => (hperm x).mpr (Or.inr hx)) ?_ ?_ ?_
  · have hsorted := h.sorted
    rw [hp] at hsorted
    obtain ⟨hsfront, hsback, hcross⟩ := List.pairwise_append.mp hsorted
    refine List.pairwise_append.mpr ⟨hsfront, List.pairwise_cons.mpr ⟨hback, hsback⟩, ?_⟩
    intro x hx y hy
    rcases List.mem_cons.mp hy with hy | hy
    · rw [hy]
      exact hfront x hx
    · exact hcross x hx y hy
  · intro x hx
    rcases (hperm x).mp hx with hx | hx
    · rw [hx]
      exact ⟨rfl, List.mem_append_right _ (List.mem_singleton.mpr rfl), hf, hhl, hsame⟩
    · exact hok.queued x hx
  · exact Or.inr ⟨helperOf f, (hperm _).mpr (Or.inl rfl), le_rfl, Or.inl rfl⟩

end Reassdata.Ok

/-! ### Giving up, finding and making entries -/

theorem freeCompleteDatagram_subset {s s' : Reass} {i n : ℕ} {prev : Option ℕ}
    (h : freeCompleteDatagram s i prev = some (s', n)) :
    s'.reassdatagrams ⊆ s.reassdatagrams := by
  rw [freeCompleteDatagram] at h
  split at h
  · cases h
  · simp only at h
    split at h
    · cases h
      exact List.eraseIdx_subset
    · cases h

theorem removeOldestLoop_subset {fraghdr : IpHdr} {needed fuel : ℕ} :
    ∀ {freed n : ℕ} {s s' : Reass}, removeOldestLoop fraghdr needed fuel freed s = some (s', n) →
      s'.reassdatagrams ⊆ s.reassdatagrams := by
  induction fuel with
  | zero => nofun
  | succ fuel ih =>
    intro freed n s s' h
    rw [removeOldestLoop] at h
    simp only at h
    split at h
    · cases h
      exact List.Subset.refl _
    · obtain ⟨⟨t, current⟩, hfree, h⟩ := Option.bind_eq_some_iff.mp h
      have hsub := freeCompleteDatagram_subset hfree
      simp only at h
      split at h
      · exact List.Subset.trans (ih h) hsub
      · cases h
        exact hsub

theorem makeRoom_subset {s s' : Reass} {fraghdr : IpHdr} {clen : ℕ} {room : Bool}
    (h : makeRoom s fraghdr clen = some (s', room)) : s'.reassdatagrams ⊆ s.reassdatagrams := by
  rw [makeRoom] at h
  split at h
  · obtain ⟨⟨t, freed⟩, hremove, h⟩ := Option.bind_eq_some_iff.mp h
    cases h
    exact removeOldestLoop_subset hremove
  · cases h
    exact List.Subset.refl _

/-- Nothing but a new entry is added. -/
theorem enqueueNewDatagram_spec {s s' : Reass} {fraghdr : IpHdr} {clen : ℕ} {enqueued : Bool}
    (h : enqueueNewDatagram s fraghdr clen = some (s', enqueued)) :
    ∃ t : Reass, t.reassdatagrams ⊆ s.reassdatagrams ∧
      s' = if enqueued then newDatagram t fraghdr else t := by
  rw [enqueueNewDatagram] at h
  split at h
  · cases h
    exact ⟨s, List.Subset.refl _, rfl⟩
  · obtain ⟨⟨t, freed⟩, hremove, h⟩ := Option.bind_eq_some_iff.mp h
    refine ⟨t, removeOldestLoop_subset hremove, ?_⟩
    simp only at h
    split at h <;> cases h <;> rfl

/-- The entry for a fragment. -/
inductive Found (s : Reass) (fraghdr : IpHdr) : Reassdata → Prop
  | old {ipr : Reassdata} (iphdr : IpHdr) (h : ipr ∈ s.reassdatagrams)
      (hmatch : ipr.iphdr.match fraghdr = true) (hsame : ipr.iphdr.match iphdr = true) :
      Found s fraghdr { ipr with iphdr := iphdr }
  | new : Found s fraghdr ⟨[], fraghdr, 0, false, IP_REASS_MAXAGE⟩

theorem lookUp_spec {s s' : Reass} {fraghdr : IpHdr} {clen : ℕ} {r : Option (ℕ × Reassdata)}
    (h : lookUp s fraghdr clen = some (s', r)) :
    (∀ d ∈ s'.reassdatagrams,
      d ∈ s.reassdatagrams ∨ d = ⟨[], fraghdr, 0, false, IP_REASS_MAXAGE⟩) ∧
    ∀ i d, r = some (i, d) → Found s fraghdr d := by
  rw [lookUp] at h
  split at h
  · obtain ⟨⟨t, enqueued⟩, henq, h⟩ := Option.bind_eq_some_iff.mp h
    obtain ⟨t', hsub, ht⟩ := enqueueNewDatagram_spec henq
    simp only [Option.pure_def, Option.some.injEq, Prod.mk.injEq] at h
    obtain ⟨rfl, rfl⟩ := h
    cases enqueued with
    | false =>
      rw [ht]
      exact ⟨fun d hd => Or.inl (hsub hd), nofun⟩
    | true =>
      rw [ht]
      refine ⟨?_, ?_⟩
      · intro d hd
        rcases List.mem_cons.mp hd with hd | hd
        · exact Or.inr hd
        · exact Or.inl (hsub hd)
      · intro i d hd
        cases hd
        exact .new
  · next i hfind =>
    simp only [Option.some.injEq, Prod.mk.injEq] at h
    obtain ⟨rfl, rfl⟩ := h
    refine ⟨fun d hd => Or.inl hd, ?_⟩
    intro j d hd
    obtain ⟨hi, hmatch, -⟩ := List.findIdx?_eq_some_iff_getElem.mp hfind
    rw [List.getElem?_eq_getElem hi] at hd
    simp only [Option.map_some, Option.some.injEq, Prod.mk.injEq] at hd
    obtain ⟨-, rfl⟩ := hd
    have hmem := List.getElem_mem hi
    split
    · exact .old fraghdr hmem hmatch hmatch
    · exact .old _ hmem hmatch (IpHdr.match_self _)

theorem Found.match {s : Reass} {fraghdr : IpHdr} {d : Reassdata} (h : Found s fraghdr d) :
    fraghdr.match d.iphdr = true := by
  cases h with
  | old iphdr _ hmatch hsame => exact IpHdr.match_trans (IpHdr.match_symm hmatch) hsame
  | new => exact IpHdr.match_self _

theorem Found.ok {received : List Fragment} {s : Reass} {fraghdr : IpHdr} {d : Reassdata}
    (h : Found s fraghdr d) (hok : ∀ d ∈ s.reassdatagrams, d.Ok received) : d.Ok received := by
  cases h with
  | old iphdr hmem _ hsame => exact (hok _ hmem).withHdr hsame
  | new => exact .new fraghdr

/-- Which header of the datagram an entry keeps does not matter, and a new entry is
not complete with its first fragment. -/
theorem Found.seamless {s : Reass} {f : Fragment} {d : Reassdata} (h : Found s f.hdr d)
    (hsound : ∀ ipr ∈ s.reassdatagrams, ipr.iphdr.match f.hdr = true →
      Seamless (noteLastFragment ipr f) (helperOf f)) :
    Seamless (noteLastFragment d f) (helperOf f) := by
  have hp : ∀ ipr, (noteLastFragment ipr f).p = ipr.p := by
    intro ipr
    rw [noteLastFragment]
    split <;> rfl
  cases h with
  | @old ipr iphdr hmem hmatch _ =>
    have hcomm : noteLastFragment { ipr with iphdr := iphdr } f =
        { noteLastFragment ipr f with iphdr := iphdr } := by
      rw [noteLastFragment, noteLastFragment]
      split <;> rfl
    rw [hcomm]
    intro front back hpieces hfront hback hpast hcomplete
    exact hsound ipr hmem hmatch front back hpieces hfront hback hpast { hcomplete with }
  | new =>
    intro front back hpieces _ _ _ hcomplete
    rw [hp] at hpieces
    exact absurd hpieces.symm hcomplete.several

/-! ### One step -/

/-- A complete queue is put together, the fragment that completes it included. -/
theorem Reassdata.Ok.closes {received : List Fragment} {ipr : Reassdata} {f : Fragment}
    {valid : Bool} {front back : List Helper} {first : Helper} {rest : List Helper}
    {c : List Pbuf} {q : List Helper}
    (hok : { noteLastFragment ipr f with p := front ++ helperOf f :: back }.Ok received)
    (hseamless : Seamless (noteLastFragment ipr f) (helperOf f))
    (hq : (noteLastFragment ipr f).p = q)
    (hplaced : Placed (helperOf f) q (.queued valid front back))
    (hvalid : validate (noteLastFragment ipr f) valid (helperOf f) front back = some true)
    (hp : front ++ helperOf f :: back = first :: rest)
    (hc : chainPbufs first.frag.pbufs rest = some c) :
    ∃ L, Tiles received
      ⟨rebuiltHdr (noteLastFragment ipr f), c, (first :: rest).map Helper.frag⟩ L := by
  cases hplaced with
  | queued _ _ _ hpieces hfront hback hgap hlastStop hmid =>
  obtain ⟨hv, hcomplete⟩ := validate_spec hgap hvalid
  have hpast : WalkedPast (helperOf f) front back := by
    intro prev hprev
    cases back with
    | nil =>
      have hstop := hlastStop hv rfl prev hprev
      exact ⟨hstop.le, fun _ => hstop⟩
    | cons tmp back => exact ⟨hmid prev tmp back hprev rfl, nofun⟩
  obtain ⟨hseam, hsize⟩ := hseamless front back (hq.trans hpieces) hfront hback hpast hcomplete
  have hgapless : Gapless (front ++ helperOf f :: back) := by
    refine List.isChain_append.mpr ⟨hcomplete.gaplessFront, hcomplete.gaplessBack, ?_⟩
    intro x hx y hy
    simp only [List.head?_cons, Option.mem_def, Option.some.injEq] at hy
    rw [← hy]
    exact hseam x hx
  obtain ⟨last, hlast, hstop⟩ := Option.map_eq_some_iff.mp hcomplete.last
  have hlast' : (front ++ helperOf f :: back).getLast? = some last := by
    rw [List.getLast?_append, hlast]
    rfl
  have hfirst : first.start = 0 := by
    have hhead := hcomplete.first
    rw [hp] at hhead
    exact Option.some.inj hhead
  obtain ⟨second, rest, rfl⟩ : ∃ second rest', rest = second :: rest' := by
    cases rest with
    | nil =>
      have hlen := congrArg List.length hp
      have hseveral := List.length_pos_iff.mpr hcomplete.several
      simp only [List.length_append, List.length_cons, List.length_nil] at hlen hseveral
      omega
    | cons second rest => exact ⟨second, rest, rfl⟩
  rw [← hp]
  exact ⟨_, hok.tiles hp hgapless hfirst hlast' hstop hcomplete.lastFrag (hsize last hlast) hc⟩

theorem forall_mem_set {p : Reassdata → Prop} {l : List Reassdata} {i : ℕ} {a : Reassdata}
    (ha : p a) (hl : ∀ d ∈ l, p d) : ∀ d ∈ l.set i a, p d := by
  intro d hd
  rcases List.mem_or_eq_of_mem_set hd with h | h
  · exact hl d h
  · rw [h]
    exact ha

/-- The condition on a step: a fragment that is not dropped at once is seamless in the
queue it belongs to. -/
def Event.Sound (s : State) : Event → Prop
  | fragment f =>
    f.hdr.hl * 4 ≠ IP_HLEN ∨
    (∃ s', makeRoom s.reass f.hdr (pbufClen f.pbufs) = some (s', false)) ∨
    ∀ ipr ∈ s.reass.reassdatagrams, ipr.iphdr.match f.hdr = true →
      Seamless (noteLastFragment ipr f) (helperOf f)
  | tick => True

/-- `ip_reass` keeps what is known of the entries, and what it returns tiles an interval. -/
theorem ipReass_spec {received : List Fragment} {s s' : Reass} {f : Fragment}
    {returned : Option Datagram} (hf : f.FromInput)
    (hok : ∀ d ∈ s.reassdatagrams, d.Ok received)
    (h : ipReass s f = some (s', returned)) :
    (∀ d ∈ s'.reassdatagrams, d.Ok (received ++ [f])) ∧
    ∀ d old, returned = some d → (Event.fragment f).Sound ⟨s, old⟩ →
      ∃ L, Tiles (received ++ [f]) d L := by
  have hmono : ∀ d : Reassdata, d.Ok received → d.Ok (received ++ [f]) := fun d hd =>
    hd.mono (List.subset_append_left received [f])
  rw [ipReass] at h
  split at h
  · cases h
    exact ⟨fun d hd => hmono d (hok d hd), nofun⟩
  · next hhl =>
    have hhl' : f.hdr.hl * 4 = IP_HLEN := not_not.mp hhl
    obtain ⟨⟨s₁, room⟩, hroom, h⟩ := Option.bind_eq_some_iff.mp h
    have hsub := makeRoom_subset hroom
    have hok₁ : ∀ d ∈ s₁.reassdatagrams, d.Ok received := fun d hd => hok d (hsub hd)
    simp only at h
    split at h
    · cases h
      exact ⟨fun d hd => hmono d (hok₁ d hd), nofun⟩
    · next hroomy =>
      obtain ⟨⟨s₂, found⟩, hlook, h⟩ := Option.bind_eq_some_iff.mp h
      obtain ⟨hsub₂, hfound⟩ := lookUp_spec hlook
      have hok₂ : ∀ d ∈ s₂.reassdatagrams, d.Ok (received ++ [f]) := by
        intro d hd
        rcases hsub₂ d hd with hd | hd
        · exact hmono d (hok₁ d hd)
        · rw [hd]
          exact .new f.hdr
      cases found with
      | none =>
        cases h
        exact ⟨hok₂, nofun⟩
      | some entry =>
        obtain ⟨i, ipr⟩ := entry
        have hipr : Found s₁ f.hdr ipr := hfound i ipr rfl
        have hiprOk := hipr.ok hok₁
        have hp : (noteLastFragment ipr f).p = ipr.p := by
          rw [noteLastFragment]
          split <;> rfl
        obtain ⟨chained, hchain, h⟩ := Option.bind_eq_some_iff.mp h
        rw [hp] at hchain
        have hplaced : Placed (helperOf f) ([] ++ ipr.p) chained :=
          chainLoop_spec hiprOk.sorted nofun (fun _ => List.isChain_nil) hchain
        rw [List.nil_append] at hplaced
        cases chained with
        | dropped =>
          cases h
          exact ⟨forall_mem_set (hiprOk.dropped hf hhl' hipr.match hplaced) hok₂, nofun⟩
        | queued valid front back =>
          have hqueue := hiprOk.queue hf hhl' hipr.match hplaced
          obtain ⟨complete, hvalidate, h⟩ := Option.bind_eq_some_iff.mp h
          cases complete with
          | false =>
            cases h
            exact ⟨forall_mem_set hqueue hok₂, nofun⟩
          | true =>
            cases hpieces : front ++ helperOf f :: back with
            | nil => simp at hpieces
            | cons first rest =>
              rw [hpieces] at h
              obtain ⟨c, hc, h⟩ := Option.bind_eq_some_iff.mp h
              cases h
              refine ⟨fun d hd => hok₂ d (List.eraseIdx_subset hd), ?_⟩
              intro d old hd hsound
              cases hd
              refine hqueue.closes ?_ hp hplaced hvalidate hpieces hc
              obtain hopts | ⟨t, ht⟩ | hseamless := hsound
              · exact absurd hhl' hopts
              · rw [hroom] at ht
                cases ht
                exact absurd rfl hroomy
              · exact hipr.seamless fun e he => hseamless e (hsub he)

theorem tmrLoop_spec {p : Reassdata → Prop} (htimer : ∀ d timer, p d → p { d with timer := timer })
    {rs : List Reassdata} : ∀ {kept : List Reassdata} {count : ℕ} {s' : Reass},
      (∀ d ∈ kept, p d) → (∀ d ∈ rs, p d) → tmrLoop kept count rs = some s' →
        ∀ d ∈ s'.reassdatagrams, p d := by
  induction rs with
  | nil =>
    intro kept count s' hkept _ h
    cases h
    exact hkept
  | cons r rs ih =>
    intro kept count s' hkept hrs h
    have hrest : ∀ d ∈ rs, p d := fun d hd => hrs d (List.mem_cons_of_mem _ hd)
    rw [tmrLoop] at h
    split at h
    · refine ih ?_ hrest h
      intro d hd
      rcases List.mem_append.mp hd with hd | hd
      · exact hkept d hd
      · rw [List.mem_singleton.mp hd]
        exact htimer r _ (hrs r (List.mem_cons_self ..))
    · obtain ⟨_, _, h⟩ := Option.bind_eq_some_iff.mp h
      exact ih hkept hrest h

/-! ### Runs -/

/-- The fragments received in a run. -/
def received (as : List Event) : List Fragment :=
  as.filterMap fun
    | .fragment f => some f
    | .tick => none

theorem ok_of_run {ok : State → Event → Prop} {as : List Event} {s : State}
    (hr : reassSystem.Run ok as s) : ∀ d ∈ s.reass.reassdatagrams, d.Ok (received as) := by
  induction hr with
  | start h =>
    rw [h]
    nofun
  | @snoc as s t a hr _ hs ih =>
    obtain ⟨hallowed, hexec⟩ := hs
    cases a with
    | fragment f =>
      obtain ⟨⟨s', r⟩, hreass, rfl⟩ := Option.map_eq_some_iff.mp hexec
      have hsnoc : received (as ++ [.fragment f]) = received as ++ [f] := by simp [received]
      rw [hsnoc]
      exact (ipReass_spec hallowed ih hreass).1
    | tick =>
      obtain ⟨s', htmr, rfl⟩ := Option.map_eq_some_iff.mp hexec
      have hsnoc : received (as ++ [.tick]) = received as := by simp [received]
      rw [hsnoc]
      exact tmrLoop_spec (fun d timer hd => hd.withTimer timer)
        (List.forall_mem_nil _) ih htmr

/-- In every run whose steps are sound, whatever is returned tiles an interval. -/
theorem returned_tiles {as : List Event} {s : State} (hr : reassSystem.Run Event.Sound as s) :
    ∀ d, s.returned = some d → ∃ L, Tiles (received as) d L := by
  cases hr with
  | start h =>
    rw [h]
    nofun
  | @snoc as s t a hr hsound hs =>
    obtain ⟨hallowed, hexec⟩ := hs
    cases a with
    | fragment f =>
      obtain ⟨⟨s', r⟩, hreass, rfl⟩ := Option.map_eq_some_iff.mp hexec
      have hsnoc : received (as ++ [.fragment f]) = received as ++ [f] := by simp [received]
      rw [hsnoc]
      intro d hd
      exact (ipReass_spec hallowed (ok_of_run hr) hreass).2 d s.returned hd hsound
    | tick =>
      obtain ⟨s', htmr, rfl⟩ := Option.map_eq_some_iff.mp hexec
      nofun

/-! ### Three fragments -/

/-- A fragment of 8 bytes of data: 10.0.0.1 to 10.0.0.2, identification 7. -/
def eightBytes (offset : UInt8) (mf : Bool) : Fragment where
  hdr := ⟨0x0a000001, 0x0a000002, 7, 5, 28, offset.toNat, mf⟩
  pbufs := [{
    addr := offset.toNat
    mem := [0x45, 0, 0, 28, 0, 7, if mf then 0x20 else 0, offset, 64, 17, 0, 0,
      10, 0, 0, 1, 10, 0, 0, 2, 1, 2, 3, 4, 5, 6, 7, 8]
    payload := 0
    totLen := 28
    len := 28
    type := .pool
    flags := 0
    ref := 1
    inMem := le_rfl
    lenLt := by decide
    totLt := by decide
    refLt := oneRef_lt }]

theorem eightBytes_fromInput (offset : UInt8) (mf : Bool) (h : offset.toNat ≠ 0 ∨ mf = true) :
    (eightBytes offset mf).FromInput where
  len_lt := (by decide : 28 < 2 ^ 16)
  offset_lt := offset.toNat_lt.trans (by decide)
  wellFormed := ⟨rfl, trivial⟩
  totLen := rfl
  head := ⟨_, [], rfl, (by decide : min (5 * 4) 28 ≤ 28)⟩
  fragment := h

def emptyState : State := ⟨⟨[], 0⟩, none⟩

theorem run_of_exec {as bs : List Event} {s t : State}
    (hr : reassSystem.Run (fun _ _ => True) as s) (hallowed : ∀ e ∈ bs, e.Allowed)
    (h : bs.foldlM Event.exec s = some t) :
    reassSystem.Run (fun _ _ => True) (as ++ bs) t := by
  induction bs generalizing as s with
  | nil =>
    cases h
    rw [List.append_nil]
    exact hr
  | cons e bs ih =>
    obtain ⟨u, hu, h⟩ := Option.bind_eq_some_iff.mp h
    rw [List.append_cons]
    exact ih (.snoc hr trivial ⟨hallowed e (List.mem_cons_self ..), hu⟩)
      (fun x hx => hallowed x (List.mem_cons_of_mem _ hx)) h

/-- 0..8 and the last fragment 24..32 with 16..24 between them: the datagram is returned
though 8..16 was never received. -/
theorem datagram_with_hole :
    ¬ ∀ (as : List Event) (s : State), reassSystem.Run (fun _ _ => True) as s →
      ∀ d, s.returned = some d → ∃ L, Tiles (received as) d L := by
  intro h
  let as : List Event := [.fragment (eightBytes 0 true), .fragment (eightBytes 3 false),
    .fragment (eightBytes 2 true)]
  have hexec : (as.foldlM Event.exec emptyState).map (fun s => s.returned.map Datagram.frags) =
      some (some [eightBytes 0 true, eightBytes 2 true, eightBytes 3 false]) := by
    decide
  obtain ⟨s, hs, hreturned⟩ := Option.map_eq_some_iff.mp hexec
  obtain ⟨d, hd, hfrags⟩ := Option.map_eq_some_iff.mp hreturned
  have hallowed : ∀ e ∈ as, e.Allowed := by
    simp only [as, List.forall_mem_cons]
    exact ⟨eightBytes_fromInput _ _ (Or.inr rfl), eightBytes_fromInput _ _ (Or.inl (by decide)),
      eightBytes_fromInput _ _ (Or.inr rfl), List.forall_mem_nil _⟩
  have hr := run_of_exec (.start rfl) hallowed hs
  obtain ⟨L, htiles⟩ := h _ s hr d hd
  have hgapless := htiles.gapless
  rw [hfrags] at hgapless
  revert hgapless
  decide

/-- 0..8 and the last fragment 8..16. -/
theorem returned_tiles_twoFragments :
    ∃ s : State, s.returned.map Datagram.frags = some [eightBytes 0 true, eightBytes 1 false] ∧
      ∀ d, s.returned = some d →
        ∃ L, Tiles (received [.fragment (eightBytes 0 true), .fragment (eightBytes 1 false)]) d L := by
  let queued : State :=
    ⟨⟨[⟨[helperOf (eightBytes 0 true)], (eightBytes 0 true).hdr, 0, false, 3⟩], 1⟩, none⟩
  have hfirst : (Event.fragment (eightBytes 0 true)).exec emptyState = some queued := rfl
  have hexec : ((Event.fragment (eightBytes 1 false)).exec queued).map
      (fun s => s.returned.map Datagram.frags) =
      some (some [eightBytes 0 true, eightBytes 1 false]) := by
    decide
  obtain ⟨s, hs, hreturned⟩ := Option.map_eq_some_iff.mp hexec
  have hsound : (Event.fragment (eightBytes 1 false)).Sound queued := by
    refine Or.inr (Or.inr ?_)
    intro ipr hipr _ front back hpieces hfront hback _ _
    obtain rfl := List.mem_singleton.mp hipr
    change [helperOf (eightBytes 0 true)] = front ++ back at hpieces
    cases back with
    | nil =>
      rw [List.append_nil] at hpieces
      rw [← hpieces]
      refine ⟨?_, ?_⟩
      · intro prev hprev
        cases hprev
        rfl
      · intro last hlast
        cases hlast
        decide
    | cons x back =>
      have hx : x = helperOf (eightBytes 0 true) := by
        have hmem : x ∈ [helperOf (eightBytes 0 true)] := hpieces ▸ by simp
        exact List.mem_singleton.mp hmem
      have hless := hback x (List.mem_cons_self ..)
      rw [hx] at hless
      exact absurd hless (by decide)
  have hqueued : reassSystem.Run Event.Sound [.fragment (eightBytes 0 true)] queued :=
    System.Run.snoc (a := Event.fragment (eightBytes 0 true)) (.start rfl)
      (Or.inr (Or.inr (List.forall_mem_nil _)))
      ⟨eightBytes_fromInput _ _ (Or.inr rfl), hfirst⟩
  have hrun : reassSystem.Run Event.Sound
      [.fragment (eightBytes 0 true), .fragment (eightBytes 1 false)] s :=
    System.Run.snoc (a := Event.fragment (eightBytes 1 false)) hqueued hsound
      ⟨eightBytes_fromInput _ _ (Or.inl (by decide)), hs⟩
  exact ⟨s, hreturned, returned_tiles hrun⟩

end QuietLwip.Reassembly
