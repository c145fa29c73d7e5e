import QuietLwip.Foundation.Tiling
import QuietLwip.Reassembly.Accounting

/-!
# Fragments in any order

The fragments of one datagram are given to `ip_reass` in some order, none of them twice. The queue is at
each time the part of the datagram that has arrived, and the datagram comes out with the last fragment. It
comes out before that exactly when a fragment arrives while all that is missing lies directly in front of
it and something is queued further in front: the walk does not compare a fragment that it puts between two
others with the one in front.
-/

namespace QuietLwip.Reassembly

open Word Buffers Tiling

/-! ### The walk over what does not overlap -/

variable {new : Helper} {r₁ r₂ : List Helper}

/-- `valid` says in the end whether there are holes in front of the new fragment, the one directly in
front of it aside unless it is the last. -/
theorem chainLoop_between (hnew : new.start < new.stop) (hback : ∀ x ∈ r₂, new.stop ≤ x.start)
    {valid : Bool} {front : List Helper}
    (hfront : ∀ x ∈ front ++ r₁, x.start < x.stop ∧ x.stop ≤ new.start)
    (hvalid : valid = true ↔ Gapless front) :
    ∃ valid', chainLoop new valid front (r₁ ++ r₂) = some (.queued valid' (front ++ r₁) r₂) ∧
      (valid' = true ↔ Gapless (front ++ r₁) ∧ (r₂ = [] → Gapless (front ++ r₁ ++ [new]))) := by
  induction r₁ generalizing valid front with
  | nil =>
    rw [List.append_nil] at hfront
    have hprev : ∀ prev, front.getLast? = some prev → prev.stop ≤ new.start :=
      fun prev hprev => (hfront prev (List.mem_of_getLast? hprev)).2
    cases r₂ with
    | nil =>
      cases hlast : front.getLast? with
      | none =>
        rw [List.getLast?_eq_none_iff] at hlast
        subst hlast
        exact ⟨valid, rfl, by simp [hvalid, Gapless]⟩
      | some prev =>
        refine ⟨valid && prev.stop = new.start, ?_, ?_⟩
        · simp [chainLoop, hlast, hprev prev hlast]
        · simp [hvalid, Gapless, List.isChain_append, hlast]
    | cons tmp rest =>
      have htmp := hback tmp (by simp)
      refine ⟨valid, ?_, by simp [hvalid]⟩
      rw [List.nil_append, chainLoop, if_pos (by omega), List.append_nil]
      cases hlast : front.getLast? with
      | none => rfl
      | some prev =>
        have := hprev prev hlast
        exact if_neg (by omega)
  | cons tmp r₁ ih =>
    obtain ⟨htmp, hle⟩ := hfront tmp (by simp)
    rw [List.cons_append, chainLoop, if_neg (by omega), if_neg (by omega), if_neg (by omega),
      List.append_cons front tmp r₁]
    rw [List.append_cons] at hfront
    refine ih hfront ?_
    cases hlast : front.getLast? with
    | none =>
      rw [List.getLast?_eq_none_iff] at hlast
      subst hlast
      simp [hvalid, Gapless]
    | some prev => simp [hvalid, Gapless, List.isChain_append, hlast]

instance (p : List Helper) : Decidable (Gapless p) :=
  inferInstanceAs (Decidable (p.IsChain fun x y => x.stop = y.start))

theorem restLoop_eq (new : Helper) (back : List Helper) :
    restLoop new back = if Gapless (new :: back) then (new :: back).getLast? else none := by
  induction back generalizing new with
  | nil => rfl
  | cons q back ih =>
    rw [restLoop, ih, List.getLast?_cons_cons]
    by_cases hstop : new.stop = q.start
    · rw [if_pos hstop]
      exact if_congr (by simp [Gapless, hstop]) rfl rfl
    · rw [if_neg hstop, if_neg (by simp [Gapless, hstop])]

/-- The datagram as the validation sees it, a hole in front of the new fragment aside -/
def Validated (ipr : Reassdata) (valid : Bool) (new : Helper) (front back : List Helper) : Prop :=
  ipr.lastFrag = true ∧ valid = true ∧ (∀ first ∈ (front ++ new :: back).head?, first.start = 0) ∧
    Gapless (new :: back)

theorem validate_eq {ipr : Reassdata} {valid : Bool} {front back : List Helper}
    (hseveral : Validated ipr valid new front back → front ++ back ≠ [])
    (hends : ipr.lastFrag = true → ∀ last ∈ (new :: back).getLast?, last.stop = ipr.datagramLen) :
    ∃ b, validate ipr valid new front back = some b ∧
      (b = true ↔ Validated ipr valid new front back) := by
  rw [validate]
  by_cases hflags : ipr.lastFrag = true ∧ valid = true
  · rw [if_pos hflags]
    obtain ⟨first, rest, hp⟩ := List.exists_cons_of_ne_nil (l := front ++ new :: back) (by simp)
    simp only [hp]
    by_cases hfirst : first.start = 0
    · rw [if_neg (not_not.mpr hfirst), restLoop_eq]
      by_cases hgap : Gapless (new :: back)
      · obtain ⟨last, hlast⟩ := Option.isSome_iff_exists.mp
          (List.getLast?_isSome.mpr (List.cons_ne_nil new back))
        have hvalidated : Validated ipr valid new front back :=
          ⟨hflags.1, hflags.2, by simpa [hp] using hfirst, hgap⟩
        rw [if_pos hgap, hlast]
        exact ⟨true, if_pos ⟨hseveral hvalidated, hends hflags.1 last hlast⟩, by simpa⟩
      · rw [if_neg hgap]
        exact ⟨false, rfl, by simp [Validated, hgap]⟩
    · exact ⟨false, if_pos hfirst, by simp [Validated, hp, hfirst]⟩
  · rw [if_neg hflags]
    refine ⟨false, rfl, ?_⟩
    simp only [Bool.false_eq_true, false_iff]
    exact fun h => hflags ⟨h.1, h.2.1⟩

/-! ### The fragments of a datagram -/

/-- The fragments of one datagram with `L` bytes of data, in their order -/
structure Pieces (L : ℕ) (fs : List Fragment) : Prop where
  fromInput : ∀ f ∈ fs, f.FromInput
  noOptions : ∀ f ∈ fs, f.hdr.hl * 4 = IP_HLEN
  same : ∀ f ∈ fs, ∀ g ∈ fs, f.hdr.match g.hdr = true
  tiled : Tiled Fragment.start Fragment.stop fs
  first : ∀ f ∈ fs.head?, f.start = 0
  last : ∀ f ∈ fs.getLast?, f.stop = L
  mf : ∀ f ∈ fs, f.hdr.mf = false ↔ f.stop = L
  le : L ≤ 65515

/-- There is no entry for the datagram, an element of the pool for one, and space for the pbufs. -/
structure Room (s : Reass) (fs : List Fragment) : Prop where
  new : ∀ d ∈ s.reassdatagrams, ∀ f ∈ fs, d.iphdr.match f.hdr = false
  entries : s.reassdatagrams.length < MEMP_NUM_REASSDATA
  pbufs : s.pbufcount + (fs.map fun f => pbufClen f.pbufs).sum ≤ IP_REASS_MAX_PBUFS

/-- What has arrived -/
def kept (fs got : List Fragment) : List Fragment := fs.filter fun f => f ∈ got

variable {s t : Reass} {L : ℕ} {fs got a c : List Fragment} {f : Fragment}

namespace Pieces

theorem stop_le (h : Pieces L fs) (hf : f ∈ fs) : f.stop ≤ L := by
  obtain ⟨last, hlast⟩ := Option.isSome_iff_exists.mp
    (List.getLast?_isSome.mpr (List.ne_nil_of_mem hf))
  exact (h.tiled.le_last hf hlast).trans (h.last last hlast).le

theorem hlen_lt (h : Pieces L fs) (hf : f ∈ fs) : IP_HLEN < f.hdr.len := by
  have hpos := h.tiled.pos f hf
  unfold Fragment.stop Fragment.dataLen at hpos
  omega

theorem helper_start (h : Pieces L fs) (hf : f ∈ fs) : (helperOf f).start = f.start :=
  helperOf_start (h.fromInput f hf)

theorem helper_stop (h : Pieces L fs) (hf : f ∈ fs) : (helperOf f).stop = f.stop :=
  helperOf_stop (h.fromInput f hf) (h.noOptions f hf) (h.hlen_lt hf).le ((h.stop_le hf).trans h.le)

/-- There are no holes between the helper structs when there are none between the fragments. -/
theorem gapless_iff (h : Pieces L fs) {q : List Fragment} (hq : q ⊆ fs) :
    Gapless (q.map helperOf) ↔ Adjoining Fragment.start Fragment.stop q := by
  rw [Gapless, List.isChain_map, Adjoining]
  induction q with
  | nil => simp
  | cons x q ih =>
    cases q with
    | nil => simp
    | cons y q =>
      have hx : x ∈ fs := hq (by simp)
      have hy : y ∈ fs := hq (by simp)
      rw [List.isChain_cons_cons, List.isChain_cons_cons, h.helper_stop hx, h.helper_start hy,
        ih fun z hz => hq (List.mem_cons_of_mem x hz)]

/-- One fragment alone has no `IP_MF` and no offset, which is no fragment. -/
theorem ne_singleton (h : Pieces L fs) : fs ≠ [f] := by
  rintro rfl
  have hmf := (h.mf f (by simp)).mpr (h.last f rfl)
  have hoffset : f.hdr.offset * 8 = 0 := h.first f rfl
  rcases (h.fromInput f (by simp)).fragment with hf | hf
  · omega
  · rw [hmf] at hf
    cases hf

/-- A fragment without offset is the first one. -/
theorem eq_of_offset (h : Pieces L fs) {g : Fragment} (hf : f ∈ fs) (hg : g ∈ fs)
    (hfoff : f.hdr.offset = 0) (hgoff : g.hdr.offset = 0) : f = g := by
  obtain ⟨first, rest, rfl⟩ := List.exists_cons_of_ne_nil (List.ne_nil_of_mem hf)
  have hfirst : first.start = 0 := h.first first rfl
  have heq : ∀ x ∈ first :: rest, x.hdr.offset = 0 → x = first := by
    intro x hx hoff
    refine h.tiled.eq_head hx ?_
    rw [Fragment.start, hoff, Nat.zero_mul]
    exact Nat.zero_le _
  rw [heq f hf hfoff, heq g hg hgoff]

end Pieces

theorem kept_nil (fs : List Fragment) : kept fs [] = [] := by simp [kept]

theorem kept_sublist (fs got : List Fragment) : (kept fs got).Sublist fs := List.filter_sublist

theorem mem_kept {x : Fragment} : x ∈ kept fs got ↔ x ∈ fs ∧ x ∈ got := by simp [kept]

theorem kept_append (a c got : List Fragment) : kept (a ++ c) got = kept a got ++ kept c got :=
  List.filter_append a c

theorem kept_cons_of_notMem (hf : f ∉ fs) : kept fs (f :: got) = kept fs got := by
  refine List.filter_congr ?_
  intro x hx
  have hne : x ≠ f := fun heq => hf (heq ▸ hx)
  simp [hne]

/-- A fragment comes to its place in the queue. -/
theorem kept_new (hnodup : (a ++ f :: c).Nodup) (hnew : f ∉ got) :
    kept (a ++ f :: c) got = kept a got ++ kept c got ∧
      kept (a ++ f :: c) (f :: got) = kept a got ++ f :: kept c got := by
  obtain ⟨-, hc, hac⟩ := List.nodup_append.mp hnodup
  have hfa : f ∉ a := fun hfa => hac f hfa f (by simp) rfl
  have hfc : f ∉ c := (List.nodup_cons.mp hc).1
  have hin : kept (f :: c) (f :: got) = f :: kept c got := by
    rw [← kept_cons_of_notMem hfc]
    exact List.filter_cons_of_pos (by simp)
  have hout : kept (f :: c) got = kept c got := List.filter_cons_of_neg (by simpa using hnew)
  rw [kept_append, kept_append, kept_cons_of_notMem hfa, hin, hout]
  exact ⟨rfl, rfl⟩

/-! ### The entry of the datagram -/

/-- The entry with `q` in its queue, when the headers of `seen` and the flags of `noted` were looked at -/
structure Entry (L : ℕ) (q seen noted : List Fragment) (e : Reassdata) : Prop where
  p : e.p = q.map helperOf
  timer : e.timer = IP_REASS_MAXAGE
  header : ∃ g ∈ seen, e.iphdr = g.hdr
  first : ∀ g ∈ seen, g.hdr.offset = 0 → e.iphdr = g.hdr
  lastFrag : e.lastFrag = true ↔ ∃ g ∈ noted, g.hdr.mf = false
  datagramLen : e.lastFrag = true → e.datagramLen = L

/-- The datagram waits for fragments; the other entries are those of `s`. -/
structure Waiting (s : Reass) (L : ℕ) (fs got : List Fragment) (t : Reass) : Prop where
  entry : ∃ e, t.reassdatagrams = e :: s.reassdatagrams ∧ Entry L (kept fs got) got got e
  count : t.pbufcount = s.pbufcount + ((kept fs got).map fun f => pbufClen f.pbufs).sum

/-- Before the first fragment and between the fragments -/
def During (s : Reass) (L : ℕ) (fs got : List Fragment) (t : Reass) : Prop :=
  got = [] ∧ t = s ∨ Waiting s L fs got t

theorem During.count (h : During s L fs got t) :
    t.pbufcount = s.pbufcount + ((kept fs got).map fun f => pbufClen f.pbufs).sum := by
  rcases h with ⟨rfl, rfl⟩ | h
  · simp [kept_nil]
  · exact h.count

/-- The entry is found, or a new one is put in front of the others. -/
theorem During.lookUp (h : During s L fs got t) (hfs : Pieces L fs) (hroom : Room s fs)
    (hgot : got ⊆ fs) (hf : f ∈ fs) (hnew : f ∉ got) (clen : ℕ) :
    ∃ t' e ipr, lookUp t f.hdr clen = some (t', some (0, ipr)) ∧
      t'.reassdatagrams = e :: s.reassdatagrams ∧ t'.pbufcount = t.pbufcount ∧
      Entry L (kept fs got) (f :: got) got ipr := by
  rcases h with ⟨rfl, rfl⟩ | ⟨⟨e, hlist, hentry⟩, -⟩
  · have hnone : t.reassdatagrams.findIdx? (fun d => d.iphdr.match f.hdr) = none :=
      List.findIdx?_eq_none_iff.mpr fun d hd => hroom.new d hd f hf
    refine ⟨newDatagram t f.hdr, _, ⟨[], f.hdr, 0, false, IP_REASS_MAXAGE⟩, ?_, rfl, rfl, ?_⟩
    · rw [Reassembly.lookUp, hnone]
      simp only [enqueueNewDatagram, if_pos hroom.entries]
      rfl
    · exact ⟨by simp [kept_nil], rfl, ⟨f, by simp, rfl⟩, by simp, by simp, fun h => by cases h⟩
  · obtain ⟨g, hg, hhdr⟩ := hentry.header
    have hmatch : e.iphdr.match f.hdr = true := hhdr ▸ hfs.same g (hgot hg) f hf
    have hfind : t.reassdatagrams.findIdx? (fun d => d.iphdr.match f.hdr) = some 0 := by
      rw [hlist, List.findIdx?_cons, hmatch]
      rfl
    refine ⟨t, e, if f.hdr.offset = 0 ∧ e.iphdr.offset ≠ 0 then { e with iphdr := f.hdr } else e,
      ?_, hlist, rfl, ?_⟩
    · rw [Reassembly.lookUp, hfind, hlist]
      rfl
    · have hother : f.hdr.offset = 0 → ∀ x ∈ got, x.hdr.offset ≠ 0 := fun hoff x hx hx0 =>
        hnew (hfs.eq_of_offset hf (hgot hx) hoff hx0 ▸ hx)
      by_cases hoff : f.hdr.offset = 0
      · rw [if_pos ⟨hoff, hhdr ▸ hother hoff g hg⟩]
        refine ⟨hentry.p, hentry.timer, ⟨f, by simp, rfl⟩, ?_, hentry.lastFrag, hentry.datagramLen⟩
        intro x hx hx0
        rcases List.mem_cons.mp hx with rfl | hx
        · rfl
        · exact absurd hx0 (hother hoff x hx)
      · rw [if_neg fun h => hoff h.1]
        refine ⟨hentry.p, hentry.timer, ⟨g, List.mem_cons_of_mem f hg, hhdr⟩, ?_, hentry.lastFrag,
          hentry.datagramLen⟩
        intro x hx hx0
        rcases List.mem_cons.mp hx with rfl | hx
        · exact absurd hx0 hoff
        · exact hentry.first x hx hx0

theorem Entry.noteLastFragment {q seen noted : List Fragment} {ipr : Reassdata}
    (h : Entry L q seen noted ipr) (hfs : Pieces L fs) (hf : f ∈ fs) :
    Entry L q seen (f :: noted) (noteLastFragment ipr f) := by
  rw [Reassembly.noteLastFragment]
  by_cases hmf : f.hdr.mf = false
  · have hstop := (hfs.mf f hf).mp hmf
    rw [if_pos hmf]
    refine ⟨h.p, h.timer, h.header, h.first, by simp [hmf], fun _ => ?_⟩
    exact (hfs.helper_stop hf).trans hstop
  · rw [if_neg hmf]
    refine ⟨h.p, h.timer, h.header, h.first, ?_, h.datagramLen⟩
    simp [h.lastFrag, hmf]

/-! ### The chain that is put together -/

/-- The queue is chained, and the bytes are those of the first fragment with the data of the others. -/
theorem chainPbufs_succeeds {rs : List Fragment} (hfs : Pieces L fs) (hrs : rs ⊆ fs) {p : List Pbuf}
    (hne : p ≠ []) (hwf : WellFormed p) (hsum : totLen p + (rs.map Fragment.dataLen).sum < 2 ^ 16) :
    ∃ c, chainPbufs p (rs.map helperOf) = some c ∧
      bytes c = bytes p ++ rs.flatMap fun r => (bytes r.pbufs).drop IP_HLEN := by
  induction rs generalizing p with
  | nil => exact ⟨p, rfl, by simp⟩
  | cons r rs ih =>
    have hr : r ∈ fs := hrs (by simp)
    have hin := hfs.fromInput r hr
    have hlen := hfs.hlen_lt hr
    obtain ⟨x, xs, hx, hxlen⟩ := hin.head
    rw [hfs.noOptions r hr, min_eq_left hlen.le] at hxlen
    obtain ⟨q, hq⟩ := pbufHeader_hide_succeeds xs hxlen
    rw [← hx] at hq
    obtain ⟨-, hqwf, hqbytes⟩ := pbufHeader_hide hin.wellFormed hq
    have hqlen : totLen q = r.dataLen := by
      rw [← hqwf.bytes_length, hqbytes, List.length_drop, hin.wellFormed.bytes_length, hin.totLen]
      rfl
    have hqne : q ≠ [] := by
      rintro rfl
      have hzero : (0 : ℕ) = r.hdr.len - IP_HLEN := hqlen
      omega
    rw [List.map_cons, List.sum_cons] at hsum
    obtain ⟨p', hcat, hpwf, hptot, hpbytes⟩ := pbufCat_spec hne hqne hwf hqwf (by omega)
    have hpne : p' ≠ [] := by
      rintro rfl
      have hzero : (0 : ℕ) = totLen p + totLen q := hptot
      have : IP_HLEN < r.hdr.len := hlen
      unfold Fragment.dataLen at hqlen
      omega
    obtain ⟨c, hc, hcbytes⟩ := ih (fun y hy => hrs (List.mem_cons_of_mem r hy)) hpne hpwf (by omega)
    refine ⟨c, ?_, ?_⟩
    · rw [List.map_cons, chainPbufs]
      show (pbufHeader r.pbufs _).bind _ = _
      rw [hq, Option.bind_some]
      exact (congrArg (Option.bind · _) hcat).trans hc
    · rw [hcbytes, hpbytes, hqbytes, List.flatMap_cons, List.append_assoc]

/-! ### What completes the datagram -/

/-- The fragment between `a` and `c` completes the datagram as the code sees it: all behind it is there,
and what is missing lies directly in front of it, between two that are there. -/
def Completes (a c got : List Fragment) : Prop :=
  kept c got = c ∧ kept a got <+: a ∧ (kept a got ≠ a → kept a got ≠ [] ∧ c ≠ [])

namespace Pieces

theorem getLast?_split (a c : List Fragment) (f : Fragment) :
    (a ++ f :: c).getLast? = (f :: c).getLast? := by
  rw [List.getLast?_append_of_ne_nil a (List.cons_ne_nil f c)]

/-- The last fragment is known by its flag. -/
theorem last_of_mf (h : Pieces L (a ++ f :: c)) {g : Fragment} (hg : g ∈ a ++ f :: c)
    (hmf : g.hdr.mf = false) : g ∈ (f :: c).getLast? := by
  obtain ⟨z, hz⟩ := Option.isSome_iff_exists.mp
    (List.getLast?_isSome.mpr (List.cons_ne_nil f c))
  have hzl : z ∈ (a ++ f :: c).getLast? := by rwa [getLast?_split]
  have hstop : g.stop = z.stop := ((h.mf g hg).mp hmf).trans (h.last z hzl).symm
  obtain ⟨init, hinit⟩ := List.getLast?_eq_some_iff.mp hzl
  rw [hinit] at hg
  rcases List.mem_append.mp hg with hg | hg
  · have htiled := h.tiled
    rw [hinit] at htiled
    have hlt := (List.pairwise_append.mp htiled.pairwise).2.2 g hg z (by simp)
    have hpos := htiled.pos z (by simp)
    omega
  · rwa [List.mem_singleton.mp hg]

theorem tiled_back (h : Pieces L (a ++ f :: c)) : Tiled Fragment.start Fragment.stop (f :: c) :=
  h.tiled.split.2

theorem sublist_back (got c : List Fragment) (f : Fragment) :
    (f :: kept c got).Sublist (f :: c) := (kept_sublist c got).cons_cons f

theorem completes_of_adjoining (h : Pieces L (a ++ f :: c)) {got : List Fragment}
    (hgot : got ⊆ a ++ f :: c) (hlast : ∃ g ∈ f :: got, g.hdr.mf = false)
    (hfront : Adjoining Fragment.start Fragment.stop (kept a got))
    (hend : kept c got = [] → Adjoining Fragment.start Fragment.stop (kept a got ++ [f]))
    (hfirst : ∀ g ∈ (kept a got ++ f :: kept c got).head?, g.start = 0)
    (hback : Adjoining Fragment.start Fragment.stop (f :: kept c got)) : Completes a c got := by
  have htiled := h.tiled
  have hall : f :: kept c got = f :: c := by
    obtain ⟨g, hg, hmf⟩ := hlast
    have hgfs : g ∈ a ++ f :: c := by
      rcases List.mem_cons.mp hg with rfl | hg
      · simp
      · exact hgot hg
    refine h.tiled_back.eq_of_sublist (sublist_back got c f) hback (by simp) ?_
    intro x hx
    have hz := h.last_of_mf hgfs hmf
    obtain rfl : g = x := Option.some.inj (hz.symm.trans hx)
    have hmem : g ∈ f :: c := List.mem_of_getLast? hz
    simp only [List.mem_cons] at hg hmem ⊢
    rw [mem_kept]
    tauto
  have hhead : ∀ x ∈ (kept a got).head?, x ∈ a.head? := by
    intro x hx
    obtain ⟨rest, hrest⟩ := List.head?_eq_some_iff.mp hx
    have hxa : x ∈ a := (kept_sublist a got).subset (by simp [hrest])
    obtain ⟨y, a', rfl⟩ := List.exists_cons_of_ne_nil (List.ne_nil_of_mem hxa)
    have hzero : x.start = 0 := hfirst x (by simp [hrest])
    rw [htiled.split.1.eq_head hxa (by omega)]
    rfl
  have hprefix := htiled.split.1.prefix_of_sublist (kept_sublist a got) hfront hhead
  -- if nothing in front of `f` is there, then `f` comes first
  have hnil : kept a got = [] → a = [] := by
    intro hka
    have hzero : f.start = 0 := hfirst f (by simp [hka])
    cases a with
    | nil => rfl
    | cons y a =>
      have heq := htiled.eq_head (y := f) (by simp) (by omega)
      exact absurd (by simp [← heq]) (List.nodup_cons.mp htiled.nodup).1
  refine ⟨(List.cons.inj hall).2, hprefix, fun hne => ⟨fun hka => ?_, ?_⟩⟩
  · exact hne (hka.trans (hnil hka).symm)
  · rintro rfl
    have hsub : (kept a got ++ [f]).Sublist (a ++ [f]) := (kept_sublist a got).append_right [f]
    refine hne (List.append_cancel_right (htiled.eq_of_sublist hsub (hend rfl) ?_ (by simp)))
    intro x hx
    cases hka : kept a got with
    | nil =>
      obtain rfl := hnil hka
      simpa [hka] using hx
    | cons y ys =>
      obtain rfl : y = x := by simpa [hka] using hx
      obtain ⟨rest, rfl⟩ := List.head?_eq_some_iff.mp (hhead y (by simp [hka]))
      rfl

theorem adjoining_of_completes (h : Pieces L (a ++ f :: c)) {got : List Fragment}
    (hdone : Completes a c got) :
    (∃ g ∈ f :: got, g.hdr.mf = false) ∧
      Adjoining Fragment.start Fragment.stop (kept a got) ∧
      (kept c got = [] → Adjoining Fragment.start Fragment.stop (kept a got ++ [f])) ∧
      (∀ g ∈ (kept a got ++ f :: kept c got).head?, g.start = 0) ∧
      Adjoining Fragment.start Fragment.stop (f :: kept c got) := by
  obtain ⟨hback, hprefix, hhole⟩ := hdone
  have htiled := h.tiled
  refine ⟨?_, ?_, fun hc => ?_, ?_, hback.symm ▸ h.tiled_back.adjoining⟩
  · obtain ⟨z, hz⟩ := Option.isSome_iff_exists.mp
      (List.getLast?_isSome.mpr (List.cons_ne_nil f c))
    have hzl : z ∈ (a ++ f :: c).getLast? := by rwa [getLast?_split]
    refine ⟨z, ?_, (h.mf z (List.mem_of_getLast? hzl)).mpr (h.last z hzl)⟩
    have hmem : z ∈ f :: kept c got := hback.symm ▸ List.mem_of_getLast? hz
    simp only [List.mem_cons, mem_kept] at hmem ⊢
    tauto
  · obtain ⟨rest, hrest⟩ := hprefix
    have hfront := htiled.split.1
    rw [← hrest] at hfront
    exact hfront.split.1.adjoining
  · rw [hback] at hc
    subst hc
    have hka : kept a got = a := by
      by_contra hne
      exact (hhole hne).2 rfl
    rw [hka]
    exact htiled.adjoining
  · intro g hg
    refine h.first g ?_
    cases hka : kept a got with
    | nil =>
      have ha : a = [] := by
        by_contra hne
        exact (hhole (by simpa [hka] using Ne.symm hne)).1 hka
      subst ha
      simpa [hka] using hg
    | cons y ys =>
      obtain ⟨rest, hrest⟩ := hprefix
      rw [← hrest, hka]
      simpa [hka] using hg

end Pieces

/-! ### One fragment -/

/-- The datagram put together from `q` -/
structure Whole (L : ℕ) (q : List Fragment) (d : Datagram) : Prop where
  frags : d.frags = q
  hdr : ∀ g ∈ q.head?, d.hdr = { g.hdr with len := L + IP_HLEN, offset := 0, mf := false }
  bytes : ∀ g rest, q = g :: rest →
    bytes d.pbufs = bytes g.pbufs ++ rest.flatMap fun r => (bytes r.pbufs).drop IP_HLEN

theorem kept_subset_front : kept a got ⊆ a ++ f :: c := fun _ hx =>
  List.mem_append_left _ ((kept_sublist a got).subset hx)

theorem kept_subset_back : kept c got ⊆ a ++ f :: c := fun _ hx =>
  List.mem_append_right _ (List.mem_cons_of_mem f ((kept_sublist c got).subset hx))

theorem cons_kept_subset : f :: kept c got ⊆ a ++ f :: c :=
  List.cons_subset.mpr ⟨by simp, kept_subset_back⟩

theorem subset_of_got (hgot : got ⊆ a ++ f :: c) : f :: got ⊆ a ++ f :: c :=
  List.cons_subset.mpr ⟨by simp, hgot⟩

namespace Pieces

/-- The new fragment lies between the others. -/
theorem chainLoop_eq (hfs : Pieces L (a ++ f :: c)) (got : List Fragment) :
    ∃ valid, chainLoop (helperOf f) true [] ((kept a got ++ kept c got).map helperOf) =
        some (.queued valid ((kept a got).map helperOf) ((kept c got).map helperOf)) ∧
      (valid = true ↔ Adjoining Fragment.start Fragment.stop (kept a got) ∧
        (kept c got = [] → Adjoining Fragment.start Fragment.stop (kept a got ++ [f]))) := by
  have hf : f ∈ a ++ f :: c := by simp
  obtain ⟨-, hbehind, hbefore⟩ := List.pairwise_append.mp hfs.tiled.pairwise
  have hnew : (helperOf f).start < (helperOf f).stop := by
    rw [hfs.helper_start hf, hfs.helper_stop hf]
    exact hfs.tiled.pos f hf
  have hback : ∀ x ∈ (kept c got).map helperOf, (helperOf f).stop ≤ x.start := by
    intro x hx
    obtain ⟨g, hg, rfl⟩ := List.mem_map.mp hx
    rw [hfs.helper_stop hf, hfs.helper_start (kept_subset_back hg)]
    exact (List.pairwise_cons.mp hbehind).1 g ((kept_sublist c got).subset hg)
  have hfront : ∀ x ∈ [] ++ (kept a got).map helperOf,
      x.start < x.stop ∧ x.stop ≤ (helperOf f).start := by
    intro x hx
    obtain ⟨g, hg, rfl⟩ := List.mem_map.mp hx
    have hgfs := kept_subset_front (f := f) (c := c) hg
    rw [hfs.helper_stop hgfs, hfs.helper_start hgfs, hfs.helper_start hf]
    exact ⟨hfs.tiled.pos g hgfs, hbefore g ((kept_sublist a got).subset hg) f (by simp)⟩
  obtain ⟨valid, hchain, hvalid⟩ := chainLoop_between hnew hback hfront
    (show true = true ↔ Gapless [] by simp [Gapless])
  have hconcat : (kept a got).map helperOf ++ [helperOf f] = (kept a got ++ [f]).map helperOf := by
    simp
  have hsub : kept a got ++ [f] ⊆ a ++ f :: c :=
    List.append_subset.mpr ⟨kept_subset_front, by simp⟩
  rw [List.nil_append, hconcat, hfs.gapless_iff kept_subset_front, hfs.gapless_iff hsub,
    List.map_eq_nil_iff] at hvalid
  exact ⟨valid, by rw [List.map_append, hchain, List.nil_append], hvalid⟩

theorem validated_iff (hfs : Pieces L (a ++ f :: c)) (hgot : got ⊆ a ++ f :: c) {ipr : Reassdata}
    (hflag : ipr.lastFrag = true ↔ ∃ g ∈ f :: got, g.hdr.mf = false) {valid : Bool}
    (hvalid : valid = true ↔ Adjoining Fragment.start Fragment.stop (kept a got) ∧
      (kept c got = [] → Adjoining Fragment.start Fragment.stop (kept a got ++ [f]))) :
    Validated ipr valid (helperOf f) ((kept a got).map helperOf) ((kept c got).map helperOf) ↔
      Completes a c got := by
  have hhead : (∀ x ∈ (kept a got ++ f :: kept c got).head?.map helperOf, x.start = 0) ↔
      ∀ g ∈ (kept a got ++ f :: kept c got).head?, g.start = 0 := by
    simp only [Option.mem_map, forall_exists_index, and_imp, forall_apply_eq_imp_iff₂]
    refine forall₂_congr fun g hg => ?_
    have hsub : kept a got ++ f :: kept c got ⊆ a ++ f :: c :=
      List.append_subset.mpr ⟨kept_subset_front, cons_kept_subset⟩
    rw [hfs.helper_start (hsub (List.mem_of_head? hg))]
  rw [Validated, hvalid, hflag, ← List.map_cons, ← List.map_append, List.head?_map,
    hfs.gapless_iff cons_kept_subset, hhead]
  constructor
  · rintro ⟨hlast, ⟨hadj, hend⟩, hfirst, hback⟩
    exact hfs.completes_of_adjoining hgot hlast hadj hend hfirst hback
  · intro hdone
    obtain ⟨hlast, hadj, hend, hfirst, hback⟩ := hfs.adjoining_of_completes hdone
    exact ⟨hlast, ⟨hadj, hend⟩, hfirst, hback⟩

/-- A datagram is not completed by its only fragment. -/
theorem several (hfs : Pieces L (a ++ f :: c)) {got : List Fragment} (hdone : Completes a c got) :
    kept a got ++ kept c got ≠ [] := by
  intro hnil
  obtain ⟨hka, hkc⟩ := List.append_eq_nil_iff.mp hnil
  obtain ⟨hback, -, hhole⟩ := hdone
  have hfront : kept a got = a := by
    by_contra hne
    exact (hhole hne).1 hka
  refine hfs.ne_singleton (f := f) ?_
  rw [← hfront, ← hback, hka, hkc]
  rfl

/-- Once the last fragment has been seen, it is the last of the queue. -/
theorem queue_last (hfs : Pieces L (a ++ f :: c)) (hgot : got ⊆ a ++ f :: c)
    (hlast : ∃ g ∈ f :: got, g.hdr.mf = false) : ∀ z ∈ (f :: kept c got).getLast?, z.stop = L := by
  obtain ⟨g, hg, hmf⟩ := hlast
  have hgfs := subset_of_got hgot hg
  have hz := hfs.last_of_mf hgfs hmf
  have hmem : g ∈ f :: kept c got := by
    have hgc := List.mem_of_getLast? hz
    simp only [List.mem_cons, mem_kept] at hg hgc ⊢
    tauto
  have hend := hfs.tiled_back.getLast?_of_sublist (sublist_back got c f) hz hmem
  intro z hzl
  obtain rfl : g = z := Option.some.inj (hend.symm.trans hzl)
  exact (hfs.mf g hgfs).mp hmf

/-- What the walk and the validation make of the fragment -/
theorem validate_eq (hfs : Pieces L (a ++ f :: c)) (hgot : got ⊆ a ++ f :: c) {ipr : Reassdata}
    (hentry : Entry L (kept a got ++ kept c got) (f :: got) (f :: got) ipr) :
    ∃ valid b, chainLoop (helperOf f) true [] ipr.p =
        some (.queued valid ((kept a got).map helperOf) ((kept c got).map helperOf)) ∧
      validate ipr valid (helperOf f) ((kept a got).map helperOf) ((kept c got).map helperOf) =
        some b ∧ (b = true ↔ Completes a c got) := by
  obtain ⟨valid, hchain, hvalid⟩ := hfs.chainLoop_eq got
  have hiff := hfs.validated_iff hgot hentry.lastFrag hvalid
  have hseveral : Validated ipr valid (helperOf f) ((kept a got).map helperOf)
      ((kept c got).map helperOf) → (kept a got).map helperOf ++ (kept c got).map helperOf ≠ [] := by
    rw [← List.map_append]
    exact fun hv hnil => hfs.several (hiff.mp hv) (List.map_eq_nil_iff.mp hnil)
  have hends : ipr.lastFrag = true →
      ∀ last ∈ (helperOf f :: (kept c got).map helperOf).getLast?, last.stop = ipr.datagramLen := by
    intro hflag last hlast
    rw [← List.map_cons, List.getLast?_map] at hlast
    obtain ⟨z, hz, rfl⟩ := Option.map_eq_some_iff.mp hlast
    rw [hfs.helper_stop (cons_kept_subset (List.mem_of_getLast? hz)), hentry.datagramLen hflag]
    exact hfs.queue_last hgot (hentry.lastFrag.mp hflag) z hz
  obtain ⟨b, hb, hbiff⟩ := Reassembly.validate_eq hseveral hends
  exact ⟨valid, b, hentry.p ▸ hchain, hb, hbiff.trans hiff⟩

end Pieces

theorem sum_clen_le {q : List Fragment} (h : q.Sublist fs) :
    (q.map fun f => pbufClen f.pbufs).sum ≤ (fs.map fun f => pbufClen f.pbufs).sum :=
  (h.map _).sum_le_sum fun _ _ => Nat.zero_le _

theorem sum_clen_split (q r : List Fragment) (f : Fragment) :
    ((q ++ f :: r).map fun f => pbufClen f.pbufs).sum =
      ((q ++ r).map fun f => pbufClen f.pbufs).sum + pbufClen f.pbufs := by
  simp only [List.map_append, List.map_cons, List.sum_append, List.sum_cons]
  omega

theorem Pieces.sum_dataLen (h : Pieces L fs) (hne : fs ≠ []) : (fs.map Fragment.dataLen).sum = L := by
  obtain ⟨x, xs, rfl⟩ := List.exists_cons_of_ne_nil hne
  obtain ⟨z, hz⟩ := Option.isSome_iff_exists.mp (List.getLast?_isSome.mpr hne)
  have hsum := Reassembly.sum_dataLen h.tiled.adjoining hz
  have hzero : x.start = 0 := h.first x rfl
  rw [h.last z hz, Fragment.stop, hzero, Nat.zero_add] at hsum
  rw [List.map_cons, List.sum_cons, hsum]

/-- The pbufs of a part of the fragments can be put together. -/
theorem Pieces.chain_queue {first : Fragment} {rest : List Fragment} (h : Pieces L fs)
    (hsub : (first :: rest).Sublist fs)
    (hfew : ((first :: rest).map fun f => pbufClen f.pbufs).sum ≤ IP_REASS_MAX_PBUFS) :
    ∃ chain, chainPbufs first.pbufs (rest.map helperOf) = some chain ∧
      bytes chain = bytes first.pbufs ++ rest.flatMap (fun r => (bytes r.pbufs).drop IP_HLEN) ∧
      pbufClen chain = ((first :: rest).map fun f => pbufClen f.pbufs).sum := by
  have hfirst : first ∈ fs := hsub.subset (by simp)
  have hin := h.fromInput first hfirst
  have hlen := h.hlen_lt hfirst
  have hdata := (hsub.map Fragment.dataLen).sum_le_sum fun _ _ => Nat.zero_le _
  rw [h.sum_dataLen (List.ne_nil_of_mem hfirst), List.map_cons, List.sum_cons] at hdata
  have hne : first.pbufs ≠ [] := by
    obtain ⟨p, ps, hp, -⟩ := hin.head
    simp [hp]
  have htot : totLen first.pbufs + (rest.map Fragment.dataLen).sum < 2 ^ 16 := by
    have hle := h.le
    rw [hin.totLen]
    unfold Fragment.dataLen IP_HLEN at *
    omega
  obtain ⟨chain, hchain, hbytes⟩ := chainPbufs_succeeds h (fun x hx => hsub.subset (by simp [hx]))
    hne hin.wellFormed htot
  refine ⟨chain, hchain, hbytes, ?_⟩
  have hclen := @chainPbufs_clen _ (helperOf first) _ hchain (by
    simpa [helperOf, Function.comp_def, IP_REASS_MAX_PBUFS] using hfew.trans_lt (by decide))
  simpa [helperOf, Function.comp_def] using hclen

/-- The fragment is queued. -/
theorem ipReass_waits {t' : Reass} {ipr : Reassdata} {valid : Bool} {front back : List Helper}
    (hhl : f.hdr.hl * 4 = IP_HLEN) (hmake : makeRoom t f.hdr (pbufClen f.pbufs) = some (t, true))
    (hlook : lookUp t f.hdr (pbufClen f.pbufs) = some (t', some (0, ipr)))
    (hchain : chainLoop (helperOf f) true [] (noteLastFragment ipr f).p =
      some (.queued valid front back))
    (hval : validate (noteLastFragment ipr f) valid (helperOf f) front back = some false) :
    ipReass t f = some (⟨t'.reassdatagrams.set 0
      { noteLastFragment ipr f with p := front ++ helperOf f :: back },
      u16 (t'.pbufcount + pbufClen f.pbufs : ℕ)⟩, none) := by
  rw [ipReass, if_neg (not_not.mpr hhl)]
  simp [hmake, hlook, hchain, hval]

/-- The queue is put together. -/
theorem ipReass_returns {t' : Reass} {ipr : Reassdata} {valid : Bool} {front back rest : List Helper}
    {first : Helper} {chain : List Pbuf}
    (hhl : f.hdr.hl * 4 = IP_HLEN) (hmake : makeRoom t f.hdr (pbufClen f.pbufs) = some (t, true))
    (hlook : lookUp t f.hdr (pbufClen f.pbufs) = some (t', some (0, ipr)))
    (hchain : chainLoop (helperOf f) true [] (noteLastFragment ipr f).p =
      some (.queued valid front back))
    (hval : validate (noteLastFragment ipr f) valid (helperOf f) front back = some true)
    (hq : front ++ helperOf f :: back = first :: rest)
    (hpbufs : chainPbufs first.frag.pbufs rest = some chain) :
    ipReass t f = some (⟨t'.reassdatagrams.eraseIdx 0,
      u16 (u16 (t'.pbufcount + pbufClen f.pbufs : ℕ) - pbufClen chain)⟩,
      some ⟨rebuiltHdr (noteLastFragment ipr f), chain, (first :: rest).map Helper.frag⟩) := by
  rw [ipReass, if_neg (not_not.mpr hhl)]
  simp [hmake, hlook, hchain, hval, hq, hpbufs]
  simpa using congrArg (List.map Helper.frag) hq

/-- A fragment that completes the datagram takes the entry away, and any other one waits in it. -/
theorem ipReass_step (hfs : Pieces L (a ++ f :: c)) (hroom : Room s (a ++ f :: c))
    (hgot : got ⊆ a ++ f :: c) (hnew : f ∉ got) (h : During s L (a ++ f :: c) got t) :
    (Completes a c got → ∃ d, ipReass t f = some (s, some d) ∧
      Whole L (kept (a ++ f :: c) (f :: got)) d) ∧
    (¬ Completes a c got → ∃ t', ipReass t f = some (t', none) ∧
      Waiting s L (a ++ f :: c) (f :: got) t') := by
  have hf : f ∈ a ++ f :: c := by simp
  obtain ⟨hold, hqueue⟩ := kept_new hfs.tiled.nodup hnew
  have hcount := h.count
  have hroomy := hroom.pbufs
  have hsum := sum_clen_le (kept_sublist (a ++ f :: c) (f :: got))
  rw [hqueue, sum_clen_split] at hsum
  rw [hold] at hcount
  have hmake : makeRoom t f.hdr (pbufClen f.pbufs) = some (t, true) := by
    rw [makeRoom, if_neg (by omega)]
  obtain ⟨t', e, ipr, hlook, hlist, hcount', hentry⟩ :=
    h.lookUp hfs hroom hgot hf hnew (pbufClen f.pbufs)
  rw [hold] at hentry
  have hnoted := hentry.noteLastFragment hfs hf
  obtain ⟨valid, b, hchain, hval, hdone⟩ := hfs.validate_eq hgot hnoted
  have hu : u16 (t'.pbufcount + pbufClen f.pbufs : ℕ) = t'.pbufcount + pbufClen f.pbufs := by
    rw [u16_of_le (by omega) (by omega), Int.toNat_natCast]
  have hmap : (kept a got).map helperOf ++ helperOf f :: (kept c got).map helperOf =
      (kept a got ++ f :: kept c got).map helperOf := by simp
  constructor
  · intro hcompletes
    rw [hdone.mpr hcompletes] at hval
    obtain ⟨hlast, -, -, hhead, -⟩ := hfs.adjoining_of_completes hcompletes
    obtain ⟨first, rest, hq⟩ := List.exists_cons_of_ne_nil (l := kept a got ++ f :: kept c got) (by simp)
    rw [hq] at hmap hhead hqueue
    have hsub := kept_sublist (a ++ f :: c) (f :: got)
    rw [hqueue] at hsub
    obtain ⟨chain, hchained, hbytes, hclen⟩ := hfs.chain_queue hsub (by
      rw [← hq, sum_clen_split]
      omega)
    have hfirst : first ∈ f :: got := (mem_kept.mp (hqueue ▸ List.mem_cons_self ..)).2
    have hzero : first.hdr.offset = 0 := by
      have hstart : first.hdr.offset * 8 = 0 := hhead first rfl
      omega
    have hback : u16 ((u16 (t'.pbufcount + pbufClen f.pbufs : ℕ) : ℤ) - pbufClen chain) =
        s.pbufcount := by
      rw [hu, hclen, ← hq, sum_clen_split, u16_of_le (by omega) (by omega)]
      omega
    have hreturn := ipReass_returns (hfs.noOptions f hf) hmake hlook hchain hval hmap hchained
    rw [hback, hlist, List.eraseIdx_cons_zero] at hreturn
    refine ⟨_, hreturn, ?_⟩
    rw [hqueue]
    refine ⟨?_, ?_, ?_⟩
    · simp [helperOf, Function.comp_def]
    · intro g hg
      obtain rfl : first = g := Option.some.inj hg
      have hlen : u16 ((noteLastFragment ipr f).datagramLen + IP_HLEN : ℕ) = L + IP_HLEN := by
        rw [hnoted.datagramLen (hnoted.lastFrag.mpr hlast)]
        exact wrapU_natCast (Nat.lt_of_le_of_lt (Nat.add_le_add_right hfs.le _) (by decide))
      rw [← hlen, ← hnoted.first first hfirst hzero]
      rfl
    · intro g rest' hg
      obtain ⟨rfl, rfl⟩ := List.cons.inj hg
      exact hbytes
  · intro hwaits
    have hfalse : b = false := by simpa [hwaits] using hdone
    rw [hfalse] at hval
    have hwait := ipReass_waits (hfs.noOptions f hf) hmake hlook hchain hval
    rw [hlist, List.set_cons_zero, hu, hmap] at hwait
    refine ⟨_, hwait, ⟨_, rfl, ?_⟩, ?_⟩
    · rw [hqueue]
      exact ⟨rfl, hnoted.timer, hnoted.header, hnoted.first, hnoted.lastFrag, hnoted.datagramLen⟩
    · show t'.pbufcount + pbufClen f.pbufs = _
      rw [hqueue, sum_clen_split]
      omega

/-! ### All fragments -/

/-- The fragments one after the other, and what `ip_reass` returns -/
def feed : Reass → List Fragment → Option (Reass × List (Option Datagram))
  | s, [] => some (s, [])
  | s, f :: fs => do
    let (s', d) ← ipReass s f
    let (t, ds) ← feed s' fs
    return (t, d :: ds)

/-- When `f` arrives, what is missing are the fragments directly in front of it, with others before
them and behind `f`. -/
def Leaps (fs got : List Fragment) (f : Fragment) : Prop :=
  ∃ a m c, fs = a ++ m ++ f :: c ∧ a ≠ [] ∧ m ≠ [] ∧ c ≠ [] ∧ ∀ g, g ∈ got ↔ g ∈ a ∨ g ∈ c

theorem kept_eq_self : kept fs got = fs ↔ fs ⊆ got := by simp [kept, List.subset_def]

theorem kept_eq_nil : kept fs got = [] ↔ ∀ g ∈ fs, g ∉ got := by simp [kept]

/-- The datagram is complete, or the code leaps over what is missing. -/
theorem completes_iff (hfs : Pieces L (a ++ f :: c)) (hgot : got ⊆ a ++ f :: c) (hnew : f ∉ got) :
    Completes a c got ↔ a ++ f :: c ⊆ f :: got ∨ Leaps (a ++ f :: c) got f := by
  have hnodup := hfs.tiled.nodup
  obtain ⟨ha, hc, hac⟩ := List.nodup_append.mp hnodup
  have hfa : f ∉ a := fun hfa => hac f hfa f (by simp) rfl
  have hfc : f ∉ c := (List.nodup_cons.mp hc).1
  constructor
  · rintro ⟨hback, ⟨m, hm⟩, hhole⟩
    by_cases hka : kept a got = a
    · left
      have haall := kept_eq_self.mp hka
      have hcall := kept_eq_self.mp hback
      intro g hg
      simp only [List.mem_append, List.mem_cons] at hg ⊢
      rcases hg with hg | rfl | hg
      · exact .inr (haall hg)
      · exact .inl rfl
      · exact .inr (hcall hg)
    · right
      obtain ⟨hane, hcne⟩ := hhole hka
      refine ⟨kept a got, m, c, by rw [hm], hane, ?_, hcne, fun g => ?_⟩
      · rintro rfl
        exact hka (by simpa using hm)
      · rw [mem_kept]
        constructor
        · intro hg
          have hgfs := hgot hg
          simp only [List.mem_append, List.mem_cons] at hgfs
          rcases hgfs with hga | rfl | hgc
          · exact .inl ⟨hga, hg⟩
          · exact absurd hg hnew
          · exact .inr hgc
        · rintro (⟨-, hg⟩ | hg)
          · exact hg
          · exact kept_eq_self.mp hback hg
  · rintro (hall | ⟨a', m, c', hsplit, hane, hmne, hcne, hmem⟩)
    · have hin : ∀ g ∈ a ++ f :: c, g ≠ f → g ∈ got := by
        intro g hg hne
        exact (List.mem_cons.mp (hall hg)).resolve_left hne
      have hka : kept a got = a := kept_eq_self.mpr fun g hg =>
        hin g (by simp [hg]) fun heq => hfa (heq ▸ hg)
      have hkc : kept c got = c := kept_eq_self.mpr fun g hg =>
        hin g (by simp [hg]) fun heq => hfc (heq ▸ hg)
      refine ⟨hkc, ?_, fun hne => absurd hka hne⟩
      rw [hka]
    · obtain ⟨rfl, -, rfl⟩ := (List.append_cons_inj_of_notMem hfa hfc).mp hsplit
      have hka' : kept a' got = a' := kept_eq_self.mpr fun g hg => (hmem g).mpr (.inl hg)
      have hkm : kept m got = [] := by
        refine kept_eq_nil.mpr fun g hg hgot => ?_
        rcases (hmem g).mp hgot with hga | hgc
        · exact (List.nodup_append.mp ha).2.2 g hga g hg rfl
        · exact hac g (by simp [hg]) g (by simp [hgc]) rfl
      have hka : kept (a' ++ m) got = a' := by rw [kept_append, hka', hkm, List.append_nil]
      refine ⟨kept_eq_self.mpr fun g hg => (hmem g).mpr (.inr hg), ?_, fun _ => ?_⟩
      · rw [hka]
        exact List.prefix_append a' m
      · rw [hka]
        exact ⟨hane, hcne⟩

theorem Leaps.congr {got' : List Fragment} (h : Leaps fs got f) (heq : ∀ g, g ∈ got ↔ g ∈ got') :
    Leaps fs got' f := by
  obtain ⟨a, m, c, hfs, ha, hm, hc, hmem⟩ := h
  exact ⟨a, m, c, hfs, ha, hm, hc, fun g => (heq g).symm.trans (hmem g)⟩

/-- Nothing is leapt over when nothing is missing. -/
theorem not_leaps_of_all (hnodup : fs.Nodup) (hall : fs ⊆ f :: got) : ¬ Leaps fs got f := by
  rintro ⟨a, m, c, rfl, -, hm, -, hmem⟩
  obtain ⟨g, m, rfl⟩ := List.exists_cons_of_ne_nil hm
  obtain ⟨ham, -, hcross⟩ := List.nodup_append.mp hnodup
  have hgm : g ∈ a ++ g :: m := by simp
  rcases List.mem_cons.mp (hall (by simp : g ∈ a ++ g :: m ++ f :: c)) with rfl | hg
  · exact hcross g hgm g (by simp) rfl
  · rcases (hmem g).mp hg with hga | hgc
    · exact (List.nodup_append.mp ham).2.2 g hga g (by simp) rfl
    · exact hcross g hgm g (by simp [hgc]) rfl

theorem feed_cons {gs : List Fragment} {t' : Reass} {d : Option Datagram}
    (h : ipReass t f = some (t', d)) :
    feed t (f :: gs) = (feed t' gs).map fun r => (r.1, d :: r.2) := by
  rw [feed, h]
  cases hgs : feed t' gs <;> simp [hgs]

/-- What `ip_reass` returns when only the last fragment completes the datagram -/
def withLast (n : ℕ) (d : Datagram) : List (Option Datagram) := List.replicate (n - 1) none ++ [some d]

theorem withLast_one (d : Datagram) : withLast 1 d = [some d] := rfl

theorem withLast_succ {n : ℕ} (h : 0 < n) (d : Datagram) : withLast (n + 1) d = none :: withLast n d := by
  obtain ⟨k, rfl⟩ : ∃ k, n = k + 1 := ⟨n - 1, by omega⟩
  rfl

/-- The induction is on what is still to come. -/
theorem feed_rest {gs : List Fragment} (hfs : Pieces L fs) (hroom : Room s fs) (hne : gs ≠ [])
    (hgs : gs.Nodup) (hnew : ∀ g ∈ gs, g ∉ got) (hall : ∀ g, g ∈ fs ↔ g ∈ got ∨ g ∈ gs)
    (h : During s L fs got t) :
    (∀ d, feed t gs = some (s, withLast gs.length d) → Whole L fs d) ∧
      ((∃ d, feed t gs = some (s, withLast gs.length d)) ↔
        ∀ pre f post, gs = pre ++ f :: post → ¬ Leaps fs (pre.reverse ++ got) f) := by
  induction gs generalizing got t with
  | nil => exact absurd rfl hne
  | cons f gs ih =>
    have hf : f ∈ fs := (hall f).mpr (.inr (by simp))
    have hgot : got ⊆ fs := fun g hg => (hall g).mpr (.inl hg)
    have hfnew := hnew f (by simp)
    obtain ⟨a, c, hsplit⟩ := List.append_of_mem hf
    have hstep : (Completes a c got → ∃ d, ipReass t f = some (s, some d) ∧
        Whole L (kept fs (f :: got)) d) ∧ (¬ Completes a c got → ∃ t', ipReass t f = some (t', none) ∧
        Waiting s L fs (f :: got) t') := by
      subst hsplit
      exact ipReass_step hfs hroom hgot hfnew h
    have hiff : Completes a c got ↔ fs ⊆ f :: got ∨ Leaps fs got f := by
      subst hsplit
      exact completes_iff hfs hgot hfnew
    cases gs with
    | nil =>
      -- the last one
      have hsub : fs ⊆ f :: got := fun g hg => by simpa [or_comm] using (hall g).mp hg
      obtain ⟨d, hd, hwhole⟩ := hstep.1 (hiff.mpr (.inl hsub))
      rw [kept_eq_self.mpr hsub] at hwhole
      have hfeed : feed t [f] = some (s, [some d]) := by simp [feed, hd]
      refine ⟨fun d' hd' => ?_, iff_of_true ⟨d, hfeed⟩ ?_⟩
      · obtain rfl : d = d' := by simpa [hfeed, withLast_one] using hd'
        exact hwhole
      · intro pre x post heq
        obtain ⟨rfl, rfl, rfl⟩ : pre = [] ∧ x = f ∧ post = [] := by
          cases pre <;> simp_all
        exact not_leaps_of_all hfs.tiled.nodup hsub
    | cons g gs =>
      have hmissing : ¬ fs ⊆ f :: got := by
        intro hsub
        have hg := hsub ((hall g).mpr (.inr (by simp)))
        rcases List.mem_cons.mp hg with rfl | hg
        · simp at hgs
        · exact hnew g (by simp) hg
      have hlast : ∀ d, withLast (f :: g :: gs).length d = none :: withLast (g :: gs).length d :=
        fun d => withLast_succ (by simp) d
      simp only [hlast]
      by_cases hleap : Leaps fs got f
      · obtain ⟨d', hd', -⟩ := hstep.1 (hiff.mpr (.inr hleap))
        have hno : ∀ d, feed t (f :: g :: gs) ≠ some (s, none :: withLast (g :: gs).length d) := by
          intro d hfeed
          rw [feed_cons hd'] at hfeed
          obtain ⟨r, -, hr⟩ := Option.map_eq_some_iff.mp hfeed
          simp at hr
        refine ⟨fun d hd => absurd hd (hno d), iff_of_false (fun ⟨d, hd⟩ => hno d hd) ?_⟩
        exact fun hnever => hnever [] f (g :: gs) rfl hleap
      · obtain ⟨t', ht', hwaiting⟩ := hstep.2 fun hdone => (hiff.mp hdone).elim hmissing hleap
        have hfeed : ∀ ds : List (Option Datagram), feed t (f :: g :: gs) = some (s, none :: ds) ↔
            feed t' (g :: gs) = some (s, ds) := by
          intro ds
          rw [feed_cons ht']
          simp [Option.map_eq_some_iff, Prod.ext_iff]
        have hnewer : ∀ x ∈ g :: gs, x ∉ f :: got := by
          intro x hx hin
          rcases List.mem_cons.mp hin with rfl | hin
          · exact (List.nodup_cons.mp hgs).1 hx
          · exact hnew x (List.mem_cons_of_mem f hx) hin
        have hall' : ∀ x, x ∈ fs ↔ x ∈ f :: got ∨ x ∈ g :: gs := by
          intro x
          rw [hall x]
          simp only [List.mem_cons]
          tauto
        obtain ⟨hwhole, hnext⟩ := ih (by simp) (List.nodup_cons.mp hgs).2 hnewer hall' (.inr hwaiting)
        simp only [hfeed]
        refine ⟨hwhole, hnext.trans ⟨fun hnever pre x post heq => ?_, fun hnever pre x post heq => ?_⟩⟩
        · cases pre with
          | nil =>
            obtain rfl := (List.cons.inj heq).1
            exact hleap
          | cons y pre =>
            obtain rfl := (List.cons.inj heq).1
            simpa using hnever pre x post (List.cons.inj heq).2
        · simpa using hnever (f :: pre) x post (by rw [heq, List.cons_append])

theorem feed_perm {gs : List Fragment} (hfs : Pieces L fs) (hroom : Room s fs) (hperm : gs.Perm fs)
    (hne : fs ≠ []) :
    (∀ d, feed s gs = some (s, withLast fs.length d) → Whole L fs d) ∧
      ((∃ d, feed s gs = some (s, withLast fs.length d)) ↔
        ∀ pre f post, gs = pre ++ f :: post → ¬ Leaps fs pre f) := by
  have hgs : gs ≠ [] := fun hnil => hne (by simpa [hnil] using hperm)
  obtain ⟨hwhole, hiff⟩ := feed_rest hfs hroom hgs (hperm.nodup_iff.mpr hfs.tiled.nodup)
    (show ∀ g ∈ gs, g ∉ [] by simp) (fun g => by simp [hperm.mem_iff]) (.inl ⟨rfl, rfl⟩)
  rw [hperm.length_eq] at hwhole hiff
  refine ⟨hwhole, hiff.trans ?_⟩
  refine forall₃_congr fun pre f post => imp_congr_right fun _ => not_congr ?_
  exact ⟨fun h => h.congr (by simp), fun h => h.congr (by simp)⟩

theorem Leaps.length (h : Leaps fs got f) : 4 ≤ fs.length := by
  obtain ⟨a, m, c, rfl, ha, hm, hc, -⟩ := h
  have := List.length_pos_iff.mpr ha
  have := List.length_pos_iff.mpr hm
  have := List.length_pos_iff.mpr hc
  simp only [List.length_append, List.length_cons]
  omega

/-- Nothing that arrives in order has anything behind it in the queue. -/
theorem not_leaps_in_order {pre post : List Fragment} (hnodup : (pre ++ f :: post).Nodup) :
    ¬ Leaps (pre ++ f :: post) pre f := by
  rintro ⟨a, m, c, hsplit, -, -, hc, hmem⟩
  obtain ⟨g, c, rfl⟩ := List.exists_cons_of_ne_nil hc
  obtain ⟨-, hback, hcross⟩ := List.nodup_append.mp hnodup
  have hfpre : f ∉ pre := fun hfpre => hcross f hfpre f (by simp) rfl
  obtain ⟨-, -, rfl⟩ := (List.append_cons_inj_of_notMem hfpre (List.nodup_cons.mp hback).1).mp hsplit
  exact hcross g ((hmem g).mpr (.inr (by simp))) g (by simp) rfl

/-- In whatever order the fragments of a datagram arrive, the datagram comes out whole with the last of
them and the state is as before, if and only if no fragment leaps over what is missing. -/
theorem any_order {gs : List Fragment} (hfs : Pieces L fs) (hroom : Room s fs) (hperm : gs.Perm fs)
    (hne : fs ≠ []) :
    (∃ d, feed s gs = some (s, withLast fs.length d) ∧ Whole L fs d) ↔
      ∀ pre f post, gs = pre ++ f :: post → ¬ Leaps fs pre f := by
  obtain ⟨hwhole, hiff⟩ := feed_perm hfs hroom hperm hne
  rw [← hiff]
  exact exists_congr fun d => and_iff_left_of_imp (hwhole d)

/-- A datagram of 16 bytes, of which the second half arrives first -/
theorem any_order_swapped : ∃ d,
    feed ⟨[], 0⟩ [eightBytes 1 false, eightBytes 0 true] = some (⟨[], 0⟩, [none, some d]) ∧
      Whole 16 [eightBytes 0 true, eightBytes 1 false] d := by
  have hfs : Pieces 16 [eightBytes 0 true, eightBytes 1 false] := by
    refine ⟨?_, ?_, ?_, ⟨?_, ?_⟩, ?_, ?_, ?_, by decide⟩
    · simpa using ⟨eightBytes_fromInput 0 true (.inr rfl), eightBytes_fromInput 1 false (.inl (by decide))⟩
    all_goals decide
  have hroom : Room ⟨[], 0⟩ [eightBytes 0 true, eightBytes 1 false] :=
    ⟨by simp, by decide, by decide⟩
  have hperm : [eightBytes 1 false, eightBytes 0 true].Perm [eightBytes 0 true, eightBytes 1 false] :=
    .swap _ _ []
  refine (any_order hfs hroom hperm (by simp)).mpr ?_
  intro pre f post _ hleap
  exact absurd hleap.length (by decide)

end QuietLwip.Reassembly
