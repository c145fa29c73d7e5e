import QuietLwip.Reassembly.Queue

/-!
# The datagrams that are returned

What is kept of the fragments received is theirs, queue by queue; from a queue without
holes the datagram is put together with the length of all its data. Over whole runs: as
long as no fragment is put behind a hole of an otherwise complete datagram, and none is
larger than an IP packet, every datagram returned is made of the fragments received.
-/

namespace QuietLwip.Reassembly

open QuietLwip.Word QuietLwip.Buffers QuietLwip.Transition

/-! ### Putting a datagram together -/

theorem pbufHeader_neg {c c' : List Pbuf} {k u : ℕ} (h : pbufHeader c (-k) = some (u, c')) :
    u = 0 := by
  cases c with
  | nil => simp [pbufHeader] at h
  | cons p ps =>
    simp only [pbufHeader] at h
    split at h
    · cases h
      rfl
    · rw [dif_pos (by omega)] at h
      split at h
      · cases h
        rfl
      · cases h

theorem chainPbufs_spec {c : List Pbuf} {rs : List Helper} :
    ∀ {p : List Pbuf}, p ≠ [] → WellFormed p →
      (∀ r ∈ rs, WellFormed r.frag.pbufs ∧ totLen r.frag.pbufs = r.frag.hdr.len) →
      totLen p + (rs.map fun r => r.frag.dataLen).sum < 2 ^ 16 → chainPbufs p rs = some c →
      totLen c = totLen p + (rs.map fun r => r.frag.dataLen).sum ∧
        ∀ r ∈ rs, IP_HLEN ≤ r.frag.hdr.len := by
  induction rs with
  | nil =>
    intro p _ _ _ _ h
    cases h
    exact ⟨rfl, nofun⟩
  | cons r rs ih =>
    intro p hne hwf hrs hsum h
    rw [chainPbufs] at h
    obtain ⟨⟨u, q⟩, hq, h⟩ := Option.bind_eq_some_iff.mp h
    obtain ⟨p', hp', h⟩ := Option.bind_eq_some_iff.mp h
    obtain ⟨hrwf, hrlen⟩ := hrs r (List.mem_cons_self ..)
    obtain rfl : u = 0 := pbufHeader_neg hq
    obtain ⟨hle, hqwf, hqbytes⟩ := pbufHeader_hide hrwf hq
    have hqlen : totLen q = r.frag.dataLen := by
      have hlen := hqwf.bytes_length
      rw [hqbytes, List.length_drop, hrwf.bytes_length, hrlen] at hlen
      exact hlen.symm
    rw [List.map_cons, List.sum_cons] at hsum ⊢
    have hqne : q ≠ [] := by
      rintro rfl
      cases p with
      | nil => exact hne rfl
      | cons x xs => cases hp'
    obtain ⟨p'', hcat, hcwf, hctot, -⟩ := pbufCat_spec hne hqne hwf hqwf (by omega)
    obtain rfl : p'' = p' := Option.some.inj (hcat.symm.trans hp')
    have hp''ne : p'' ≠ [] := by
      rintro rfl
      cases p with
      | nil => exact hne rfl
      | cons x xs =>
        cases xs <;> cases q <;> simp [pbufCat, catLoop] at hcat
    obtain ⟨htot, hlens⟩ := ih hp''ne hcwf (fun x hx => hrs x (List.mem_cons_of_mem _ hx))
      (by omega) h
    refine ⟨by omega, ?_⟩
    intro x hx
    rcases List.mem_cons.mp hx with hx | hx
    · rw [hx, ← hrlen]
      exact hle
    · exact hlens x hx

theorem sum_dataLen {fs : List Fragment} : ∀ {a last : Fragment},
    (a :: fs).IsChain (fun x y => x.stop = y.start) → (a :: fs).getLast? = some last →
      a.stop + (fs.map Fragment.dataLen).sum = last.stop := by
  induction fs with
  | nil =>
    intro a last _ hlast
    obtain rfl : a = last := Option.some.inj hlast
    rfl
  | cons b fs ih =>
    intro a last hchain hlast
    obtain ⟨hab, hchain'⟩ := List.isChain_cons_cons.mp hchain
    rw [List.getLast?_cons_cons] at hlast
    have hrest := ih hchain' hlast
    rw [List.map_cons, List.sum_cons, hab, ← Nat.add_assoc]
    exact hrest

/-- What is known of an entry of a queue. -/
structure Queued (received : List Fragment) (iphdr : IpHdr) (h : Helper) : Prop where
  helper : h = helperOf h.frag
  mem : h.frag ∈ received
  fromInput : h.frag.FromInput
  noOptions : h.frag.hdr.hl * 4 = IP_HLEN
  same : h.frag.hdr.match iphdr = true

/-- All but the last of a queue without holes have their own bounds and a whole header. -/
theorem Queued.exact {received : List Fragment} {iphdr : IpHdr} {a b last : Helper}
    {rest : List Helper} (hq : ∀ x ∈ a :: b :: rest, Queued received iphdr x)
    (hgap : Gapless (a :: b :: rest)) (hsorted : Sorted (a :: b :: rest))
    (hlast : (a :: b :: rest).getLast? = some last) (hstop : last.frag.stop ≤ 65515) :
    IP_HLEN ≤ a.frag.hdr.len ∧ a.frag.stop = b.frag.start := by
  have hqa := hq a (List.mem_cons_self ..)
  have hqb := hq b (List.mem_cons_of_mem _ (List.mem_cons_self ..))
  have hqlast := hq last (List.mem_of_getLast? hlast)
  obtain ⟨hab, -⟩ := List.isChain_cons_cons.mp hgap
  obtain ⟨hless, hsorted'⟩ := List.pairwise_cons.mp hsorted
  rw [List.getLast?_cons_cons] at hlast
  have hblast : b.start ≤ last.start := by
    rcases List.mem_cons.mp (List.mem_of_getLast? hlast) with h | h
    · rw [h]
    · exact ((List.pairwise_cons.mp hsorted').1 last h).le
  have hstart : last.start ≤ 65515 := by
    rw [hqlast.helper, helperOf_start hqlast.fromInput]
    exact (Nat.le_add_right _ _).trans hstop
  have hlt := hless b (List.mem_cons_self ..)
  have hbounds : (helperOf a.frag).start ≤ (helperOf a.frag).stop ∧
      (helperOf a.frag).stop ≤ 65515 := by
    rw [← hqa.helper]
    omega
  obtain ⟨hlen, hexact⟩ := helperOf_exact hqa.fromInput hqa.noOptions hbounds.1 hbounds.2
  refine ⟨hlen, ?_⟩
  rw [← hexact, ← hqa.helper, hab, hqb.helper, helperOf_start hqb.fromInput, ← hqb.helper]

theorem Queued.frags_gapless {received : List Fragment} {iphdr : IpHdr} {last : Helper}
    {p : List Helper} (hq : ∀ x ∈ p, Queued received iphdr x) (hgap : Gapless p)
    (hsorted : Sorted p) (hlast : p.getLast? = some last) (hstop : last.frag.stop ≤ 65515) :
    (p.map Helper.frag).IsChain fun x y => x.stop = y.start := by
  induction p with
  | nil => exact List.isChain_nil
  | cons a p ih =>
    cases p with
    | nil => exact List.isChain_singleton _
    | cons b rest =>
      have hab := (Queued.exact hq hgap hsorted hlast hstop).2
      rw [List.getLast?_cons_cons] at hlast
      exact List.isChain_cons_cons.mpr ⟨hab, ih (fun x hx => hq x (List.mem_cons_of_mem _ hx))
        (List.isChain_cons_cons.mp hgap).2 (List.pairwise_cons.mp hsorted).2 hlast⟩

/-- The fragments of a datagram tile the interval from 0 to `L`, of which the header and the
chain have the length. -/
structure Tiles (received : List Fragment) (d : Datagram) (L : ℕ) : Prop where
  first : d.frags.head?.map Fragment.start = some 0
  sorted : d.frags.Pairwise fun x y => x.start < y.start
  gapless : d.frags.IsChain fun x y => x.stop = y.start
  last : d.frags.getLast?.map Fragment.stop = some L
  mem : ∀ f ∈ d.frags, f ∈ received ∧ f.hdr.match d.hdr = true
  final : ∃ f ∈ received, f.hdr.match d.hdr = true ∧ f.hdr.mf = false ∧
    f.hdr.hl * 4 = IP_HLEN ∧ f.stop = L
  lenField : d.hdr.len = IP_HLEN + L
  totLen : totLen d.pbufs = IP_HLEN + L

/-- The last fragment that gave an entry its `datagram_len`. -/
structure LastNoted (d : Reassdata) (f : Fragment) : Prop where
  fromInput : f.FromInput
  noOptions : f.hdr.hl * 4 = IP_HLEN
  same : f.hdr.match d.iphdr = true
  mf : f.hdr.mf = false
  datagramLen : (helperOf f).stop = d.datagramLen
  -- a length that wraps is not noted behind all that is queued
  bounds : (helperOf f).start ≤ (helperOf f).stop ∨ ∃ x ∈ d.p, Covers x (helperOf f)

structure Reassdata.Ok (received : List Fragment) (d : Reassdata) : Prop where
  sorted : Sorted d.p
  queued : ∀ h ∈ d.p, Queued received d.iphdr h
  lastNoted : d.lastFrag = true → ∃ f ∈ received, LastNoted d f

theorem Queued.start {received : List Fragment} {iphdr : IpHdr} {h : Helper}
    (hq : Queued received iphdr h) : h.start = h.frag.start := by
  rw [hq.helper]
  exact helperOf_start hq.fromInput

/-- A complete queue is put together to a datagram of all its data. -/
theorem Reassdata.Ok.tiles {received : List Fragment} {d : Reassdata} {first second last : Helper}
    {rest : List Helper} {c : List Pbuf} (hok : d.Ok received)
    (hp : d.p = first :: second :: rest) (hgap : Gapless d.p) (hfirst : first.start = 0)
    (hlast : d.p.getLast? = some last) (hstop : last.stop = d.datagramLen)
    (hlastFrag : d.lastFrag = true) (hsize : last.frag.stop ≤ 65515)
    (hc : chainPbufs first.frag.pbufs (second :: rest) = some c) :
    Tiles received ⟨rebuiltHdr d, c, d.p.map Helper.frag⟩ last.frag.stop := by
  have hqueued := hok.queued
  have hsorted := hok.sorted
  have hmem : last ∈ d.p := List.mem_of_getLast? hlast
  have hqlast := hqueued last hmem
  have hqfirst : Queued received d.iphdr first := hqueued first (hp ▸ List.mem_cons_self ..)
  have hfrags := Queued.frags_gapless hqueued hgap hsorted hlast hsize
  have hfraglast : (d.p.map Helper.frag).getLast? = some last.frag := by
    rw [List.getLast?_map, hlast]
    rfl
  have hzero : first.frag.start = 0 := by
    rw [← hqfirst.start]
    exact hfirst
  -- the lengths add up
  have hlen : IP_HLEN ≤ first.frag.hdr.len := by
    rw [hp] at hqueued hgap hsorted hlast
    exact (Queued.exact hqueued hgap hsorted hlast hsize).1
  have htotFirst : Buffers.totLen first.frag.pbufs = IP_HLEN + first.frag.stop := by
    rw [hqfirst.fromInput.totLen, Fragment.stop, hzero, Fragment.dataLen]
    omega
  have hsum : first.frag.stop + ((second :: rest).map fun r => r.frag.dataLen).sum =
      last.frag.stop := by
    rw [hp, List.map_cons] at hfrags hfraglast
    rw [← sum_dataLen hfrags hfraglast, List.map_map]
    rfl
  obtain ⟨htot, hlens⟩ : Buffers.totLen c = IP_HLEN + last.frag.stop ∧
      ∀ r ∈ second :: rest, IP_HLEN ≤ r.frag.hdr.len := by
    have hne : first.frag.pbufs ≠ [] := by
      obtain ⟨q, qs, hq, -⟩ := hqfirst.fromInput.head
      rw [hq]
      exact List.cons_ne_nil q qs
    have hrest : ∀ r ∈ second :: rest, WellFormed r.frag.pbufs ∧
        Buffers.totLen r.frag.pbufs = r.frag.hdr.len := fun r hr =>
      have hq := (hqueued r (hp ▸ List.mem_cons_of_mem _ hr)).fromInput
      ⟨hq.wellFormed, hq.totLen⟩
    have hspec := chainPbufs_spec hne hqfirst.fromInput.wellFormed hrest
      (by rw [htotFirst]; unfold IP_HLEN; omega) hc
    refine ⟨?_, hspec.2⟩
    rw [hspec.1, htotFirst, ← hsum]
    omega
  -- the noted length is the end of the last fragment
  have hexact : last.stop = last.frag.stop := by
    have hin : last ∈ second :: rest := by
      rw [hp, List.getLast?_cons_cons] at hlast
      exact List.mem_of_getLast? hlast
    have hstops := helperOf_stop hqlast.fromInput hqlast.noOptions (hlens last hin) hsize
    rwa [← hqlast.helper] at hstops
  have hle : last.start ≤ last.stop := by
    rw [hqlast.start, hexact]
    exact Nat.le_add_right ..
  obtain ⟨f, hf, hnoted⟩ := hok.lastNoted hlastFrag
  have hnotedStop : (helperOf f).stop = last.frag.stop := by
    rw [hnoted.datagramLen, ← hstop, hexact]
  have hnotedStart : (helperOf f).start ≤ (helperOf f).stop := by
    rcases hnoted.bounds with h | ⟨x, hx, hcovers⟩
    · exact h
    · have hbounds := gapless_bounds hgap hsorted hlast hle x hx
      obtain ⟨-, hat | hin⟩ := hcovers <;> omega
  obtain ⟨-, hnotedExact⟩ := helperOf_exact hnoted.fromInput hnoted.noOptions hnotedStart
    (by rw [hnotedStop]; exact hsize)
  have hlenField : (rebuiltHdr d).len = IP_HLEN + last.frag.stop := by
    have hu : u16 ((d.datagramLen + IP_HLEN : ℕ) : ℤ) = d.datagramLen + IP_HLEN :=
      wrapU_natCast (by rw [← hstop, hexact]; unfold IP_HLEN; omega)
    rw [← hexact, hstop, Nat.add_comm, ← hu]
    rfl
  refine ⟨?_, ?_, hfrags, ?_, ?_, ⟨f, hf, hnoted.same, hnoted.mf, hnoted.noOptions, ?_⟩,
    hlenField, htot⟩
  · simp [hp, hzero]
  · refine List.pairwise_map.mpr (hsorted.imp_of_mem ?_)
    intro x y hx hy hless
    rwa [(hqueued x hx).start, (hqueued y hy).start] at hless
  · rw [hfraglast]
    rfl
  · intro g hg
    obtain ⟨x, hx, rfl⟩ := List.mem_map.mp hg
    exact ⟨(hqueued x hx).mem, (hqueued x hx).same⟩
  · rw [← hnotedExact, hnotedStop]

end QuietLwip.Reassembly
