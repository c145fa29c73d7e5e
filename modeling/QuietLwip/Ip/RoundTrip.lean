import QuietLwip.Ip.Frag
import QuietLwip.Reassembly.Order

/-!
# From `ip_frag` to `ip_reass`

A packet that one host cuts into fragments is put together again by another one, in whatever pbufs and in
whatever order the fragments arrive, as long as none of them leaps over what is missing.
-/

namespace QuietLwip.Ip

open Word Buffers Tiling Blocks

/-! ### The headers of the fragments -/

/-- The fields of a header that reassembly reads -/
def headerOf (l : List UInt8) : Reassembly.IpHdr where
  src := 65536 * headerWord l 12 + headerWord l 14
  dest := 65536 * headerWord l 16 + headerWord l 18
  id := headerWord l 4
  hl := (l.getD 0 0).toNat % 16
  len := headerWord l 2
  offset := headerWord l 6 % ipMf
  mf := headerWord l 6 / ipMf % 2 = 1

variable {memory : FragMemory} {odd : Pbuf → Bool} {hdr l : List UInt8} {k cop tmp poff mtu : ℕ}
variable {env : FragEnv} {p packet : List Pbuf} {turns left ofo : ℕ}

theorem headerWord_drop (l : List UInt8) (n i : ℕ) : headerWord (l.drop n) i = headerWord l (n + i) := by
  simp [headerWord, List.getD_eq_getElem?_getD, Nat.add_assoc]

/-- The parts of the header that are not written -/
theorem fragHeader_parts (hhdr : hdr.length = ipHlen) (len tmp chksum : ℕ) (back : List UInt8) :
    (fragHeader hdr len tmp chksum ++ back).take 2 = hdr.take 2 ∧
      ((fragHeader hdr len tmp chksum ++ back).drop 4).take 2 = (hdr.drop 4).take 2 ∧
      ((fragHeader hdr len tmp chksum ++ back).drop 12).take 8 = (hdr.drop 12).take 8 := by
  have h2 : (hdr.take 2).length = 2 := by simp [hhdr, ipHlen]
  have h4 : (hdr.take 2 ++ netWord len).length = 4 := by simp [hhdr, ipHlen]
  have h12 : (hdr.take 2 ++ netWord len ++ (hdr.drop 4).take 2 ++ netWord tmp ++ (hdr.drop 8).take 2 ++
      memWord chksum).length = 12 := by simp [hhdr, ipHlen]
  have hm : ((hdr.drop 4).take 2).length = 2 := by simp [hhdr, ipHlen]
  have ht : ((hdr.drop 12).take 8).length = 8 := by simp [hhdr, ipHlen]
  refine ⟨?_, ?_, ?_⟩
  · rw [fragHeader]
    simp only [List.append_assoc]
    exact List.take_left' h2
  · have hsplit : fragHeader hdr len tmp chksum ++ back = (hdr.take 2 ++ netWord len) ++
        ((hdr.drop 4).take 2 ++ (netWord tmp ++ (hdr.drop 8).take 2 ++
          (memWord chksum ++ (hdr.drop 12).take 8) ++ back)) := by
      simp only [fragHeader, List.append_assoc]
    rw [hsplit, List.drop_left' h4]
    exact List.take_left' hm
  · have hsplit : fragHeader hdr len tmp chksum ++ back = (hdr.take 2 ++ netWord len ++
        (hdr.drop 4).take 2 ++ netWord tmp ++ (hdr.drop 8).take 2 ++ memWord chksum) ++
          ((hdr.drop 12).take 8 ++ back) := by
      simp only [fragHeader, List.append_assoc]
    rw [hsplit, List.drop_left' h12]
    exact List.take_left' ht

/-- A packet with a header that is `hdr` but for its length, offset, flags and checksum -/
def SameHeader (hdr l : List UInt8) : Prop :=
  l.take 2 = hdr.take 2 ∧ (l.drop 4).take 2 = (hdr.drop 4).take 2 ∧
    (l.drop 12).take 8 = (hdr.drop 12).take 8

theorem headerWord_slice {l l' : List UInt8} {n m i : ℕ} (h : (l.drop n).take m = (l'.drop n).take m)
    (hi : i + 1 < m) : headerWord l (n + i) = headerWord l' (n + i) := by
  rw [← headerWord_drop, ← headerWord_drop, ← headerWord_take hi, h, headerWord_take hi]

theorem SameHeader.fields {l : List UInt8} (h : SameHeader hdr l) :
    (headerOf l).src = (headerOf hdr).src ∧ (headerOf l).dest = (headerOf hdr).dest ∧
      (headerOf l).id = (headerOf hdr).id ∧ (headerOf l).hl = (headerOf hdr).hl := by
  obtain ⟨hfirst, hid, haddrs⟩ := h
  have h12 := headerWord_slice (i := 0) haddrs (by decide)
  have h14 := headerWord_slice (i := 2) haddrs (by decide)
  have h16 := headerWord_slice (i := 4) haddrs (by decide)
  have h18 := headerWord_slice (i := 6) haddrs (by decide)
  have h4 := headerWord_slice (i := 0) hid (by decide)
  have h0 : l.getD 0 0 = hdr.getD 0 0 := by
    have hget := congrArg (fun l : List UInt8 => l.getD 0 0) hfirst
    simpa [List.getD_eq_getElem?_getD] using hget
  refine ⟨?_, ?_, h4, ?_⟩
  · exact congrArg₂ (fun a b => 65536 * a + b) h12 h14
  · exact congrArg₂ (fun a b => 65536 * a + b) h16 h18
  · exact congrArg (fun a => a.toNat % 16) h0

theorem fragTurn_header (hhdr : hdr.length = ipHlen) {m : Mirrored}
    (h : fragTurn memory odd hdr k cop tmp poff p = some (.ok (packet, m))) :
    SameHeader hdr (bytes packet) := by
  cases p with
  | nil => cases h
  | cons q qs =>
    rw [fragTurn] at h
    cases hram : pbufAllocRam .link ipHlen ipHlen_lt (memory.ram k) with
    | none => simp [hram] at h
    | some ram =>
      simp only [hram] at h
      split at h
      · cases h
      · obtain ⟨rambuf, -, h⟩ := Option.bind_eq_some_iff.mp h
        obtain ⟨r, -, h⟩ := Option.bind_eq_some_iff.mp h
        cases r with
        | error e => cases h
        | ok m' =>
          obtain ⟨packet', hwrite, heq⟩ := Option.map_eq_some_iff.mp h
          cases heq
          cases hrambuf : m.rambuf with
          | nil => simp [hrambuf, writeHead] at hwrite
          | cons x xs =>
            rw [hrambuf] at hwrite
            obtain ⟨y, rfl, -, -, -, -, -, -, hdata⟩ := writeHead_eq hwrite
            rw [bytes_cons, hdata, List.append_assoc]
            exact fragHeader_parts hhdr _ _ _ _

theorem fragLoop_header (hhdr : env.hdr.length = ipHlen) :
    ∀ packet ∈ (fragLoop env turns k p left ofo poff).sent, SameHeader env.hdr (bytes packet) := by
  induction turns generalizing k p left ofo poff with
  | zero => simp [fragLoop]
  | succ turns ih =>
    rw [fragLoop]
    split
    · simp
    · split
      · simp
      · simp
      · next packet m hturn =>
        intro x hx
        rcases List.mem_cons.mp hx with rfl | hx
        · exact fragTurn_header hhdr hturn
        · exact ih x hx

/-! ### What arrives -/

/-- The packet as it arrives: the same bytes in whatever pbufs, with the header in the first one -/
structure ComesAs (packet : List Pbuf) (f : Reassembly.Fragment) : Prop where
  hdr_eq : f.hdr = headerOf (bytes packet)
  bytes_eq : bytes f.pbufs = bytes packet
  wellFormed : WellFormed f.pbufs
  head : ∃ q qs, f.pbufs = q :: qs ∧ ipHlen ≤ q.len

variable {f : Reassembly.Fragment} {fs : List Reassembly.Fragment} {mf : Bool} {sent : List (List Pbuf)}

/-- The fragment with the data `l` of a packet with the header `hdr` -/
structure Part (hdr : List UInt8) (ofo : ℕ) (mf : Bool) (l : List UInt8) (f : Reassembly.Fragment) :
    Prop where
  hdr_eq : f.hdr = { headerOf hdr with len := ipHlen + l.length, offset := ofo, mf := mf }
  data_eq : (bytes f.pbufs).drop ipHlen = l
  length_eq : (bytes f.pbufs).length = ipHlen + l.length
  wellFormed : WellFormed f.pbufs
  head : ∃ q qs, f.pbufs = q :: qs ∧ ipHlen ≤ q.len

theorem ComesAs.part (h : ComesAs packet f) (hshows : Shows packet ofo mf l) (hofo : ofo < ipMf)
    (hsame : SameHeader hdr (bytes packet)) (hpos : 0 < l.length) : Part hdr ofo mf l f := by
  obtain ⟨hsrc, hdest, hid, hhl⟩ := hsame.fields
  have hlen : (headerOf (bytes packet)).len = ipHlen + l.length :=
    hshows.packetLen_eq.trans hshows.totLen_eq
  have hoffset : (headerOf (bytes packet)).offset = ofo :=
    hshows.offset_eq.trans (Nat.mod_eq_of_lt hofo)
  have hmf : (headerOf (bytes packet)).mf = mf := hshows.mf_eq
  have hdata : (bytes packet).drop ipHlen = l := hshows.data_eq
  have hlength : (bytes packet).length = ipHlen + l.length := by
    have hdrop := congrArg List.length hdata
    rw [List.length_drop] at hdrop
    omega
  refine ⟨?_, h.bytes_eq ▸ hdata, h.bytes_eq ▸ hlength, h.wellFormed, h.head⟩
  rw [h.hdr_eq]
  dsimp only
  rw [← hsrc, ← hdest, ← hid, ← hhl, ← hlen, ← hoffset, ← hmf]

namespace Part

theorem start_eq (h : Part hdr ofo mf l f) : f.start = ofo * 8 := by
  rw [Reassembly.Fragment.start, h.hdr_eq]

theorem stop_eq (h : Part hdr ofo mf l f) : f.stop = ofo * 8 + l.length := by
  rw [Reassembly.Fragment.stop, h.start_eq, Reassembly.Fragment.dataLen, h.hdr_eq]
  exact congrArg (ofo * 8 + ·) (Nat.add_sub_cancel_left ipHlen l.length)

theorem match_eq (h : Part hdr ofo mf l f) : f.hdr.match (headerOf hdr) = true := by
  rw [h.hdr_eq]
  exact Reassembly.IpHdr.match_iff.mpr ⟨rfl, rfl, rfl⟩

theorem noOptions (h : Part hdr ofo mf l f) (hhl : (headerOf hdr).hl = 5) :
    f.hdr.hl * 4 = Reassembly.IP_HLEN := by
  rw [h.hdr_eq]
  show (headerOf hdr).hl * 4 = 20
  omega

theorem fromInput (h : Part hdr ofo mf l f) (hhl : (headerOf hdr).hl = 5)
    (hle : ofo * 8 + l.length ≤ 65515) (hfrag : ofo ≠ 0 ∨ mf = true) : f.FromInput := by
  obtain ⟨q, qs, hq, hqlen⟩ := h.head
  have hlen : f.hdr.len = ipHlen + l.length := by rw [h.hdr_eq]
  have hoffset : f.hdr.offset = ofo := by rw [h.hdr_eq]
  have hmf : f.hdr.mf = mf := by rw [h.hdr_eq]
  refine ⟨?_, ?_, h.wellFormed, ?_, ⟨q, qs, hq, ?_⟩, ?_⟩
  · rw [hlen, ipHlen]
    omega
  · rw [hoffset]
    omega
  · rw [← h.wellFormed.bytes_length, h.length_eq, hlen]
  · rw [h.noOptions hhl]
    exact (min_le_left _ _).trans hqlen
  · rwa [hoffset, hmf]

end Part

/-- The fragments of the data `l` at the offset `ofo` of a packet without `IP_MF` -/
structure Parts (hdr : List UInt8) (ofo : ℕ) (l : List UInt8) (fs : List Reassembly.Fragment) : Prop where
  fromInput : ∀ f ∈ fs, f.FromInput
  noOptions : ∀ f ∈ fs, f.hdr.hl * 4 = Reassembly.IP_HLEN
  same : ∀ f ∈ fs, f.hdr.match (headerOf hdr) = true
  tiled : Tiled Reassembly.Fragment.start Reassembly.Fragment.stop fs
  first : ∃ f rest mf len, fs = f :: rest ∧
    f.hdr = { headerOf hdr with len := len, offset := ofo, mf := mf }
  last : ∀ f ∈ fs.getLast?, f.stop = ofo * 8 + l.length
  mf : ∀ f ∈ fs, f.hdr.mf = false ↔ f.stop = ofo * 8 + l.length
  length : ∀ f ∈ fs, ipHlen ≤ (bytes f.pbufs).length
  data : fs.flatMap (fun f => (bytes f.pbufs).drop ipHlen) = l

theorem Part.parts (h : Part hdr ofo false l f) (hhl : (headerOf hdr).hl = 5) (hpos : 0 < l.length)
    (hle : ofo * 8 + l.length ≤ 65515) (hofo : ofo ≠ 0) : Parts hdr ofo l [f] := by
  have hstop := h.stop_eq
  have hmf : f.hdr.mf = false := by rw [h.hdr_eq]
  refine ⟨?_, ?_, ?_, ⟨?_, by simp⟩, ⟨f, [], false, _, rfl, h.hdr_eq⟩, ?_, ?_, ?_, ?_⟩
  · simpa using h.fromInput hhl hle (.inl hofo)
  · simpa using h.noOptions hhl
  · simpa using h.match_eq
  · simp only [List.mem_singleton, forall_eq, h.start_eq, hstop]
    omega
  · simpa using hstop
  · simp [hmf, hstop]
  · simp [h.length_eq]
  · simpa using h.data_eq

theorem Part.cons_parts {n : ℕ} (h : Part hdr ofo true (l.take (n * 8)) f)
    (hparts : Parts hdr (ofo + n) (l.drop (n * 8)) fs) (hhl : (headerOf hdr).hl = 5) (hn : 0 < n)
    (hlt : n * 8 < l.length) (hle : ofo * 8 + l.length ≤ 65515) : Parts hdr ofo l (f :: fs) := by
  have htake : (l.take (n * 8)).length = n * 8 := List.length_take_of_le hlt.le
  have hstop := h.stop_eq
  rw [htake] at hstop
  have hmf : f.hdr.mf = true := by rw [h.hdr_eq]
  have htotal : (ofo + n) * 8 + (l.drop (n * 8)).length = ofo * 8 + l.length := by
    rw [List.length_drop]
    omega
  obtain ⟨g, rest, gmf, glen, rfl, hg⟩ := hparts.first
  refine ⟨?_, ?_, ?_, ⟨?_, ?_⟩, ⟨f, _, true, _, rfl, h.hdr_eq⟩, ?_, ?_, ?_, ?_⟩
  · refine List.forall_mem_cons.mpr ⟨h.fromInput hhl ?_ (.inr rfl), hparts.fromInput⟩
    rw [htake]
    omega
  · exact List.forall_mem_cons.mpr ⟨h.noOptions hhl, hparts.noOptions⟩
  · exact List.forall_mem_cons.mpr ⟨h.match_eq, hparts.same⟩
  · refine List.forall_mem_cons.mpr ⟨?_, hparts.tiled.pos⟩
    rw [hstop, h.start_eq]
    omega
  · refine adjoining_cons_cons.mpr ⟨?_, hparts.tiled.adjoining⟩
    rw [hstop, Reassembly.Fragment.start, hg]
    exact (Nat.add_mul ofo n 8).symm
  · rw [List.getLast?_cons_cons, ← htotal]
    exact hparts.last
  · refine List.forall_mem_cons.mpr ⟨?_, htotal ▸ hparts.mf⟩
    rw [hmf, hstop]
    simp only [Bool.true_eq_false, false_iff]
    omega
  · refine List.forall_mem_cons.mpr ⟨?_, hparts.length⟩
    rw [h.length_eq]
    exact Nat.le_add_right _ _
  · rw [List.flatMap_cons, hparts.data, h.data_eq, List.take_append_drop]

/-- The fragments that `ip_frag` has sent arrive as the parts of the data. -/
theorem Cuts.parts (h : Cuts env ofo l sent) (hmtu : ipHlen + 8 ≤ env.mtu) (homf : env.omf = false)
    (harrive : List.Forall₂ ComesAs sent fs) (hsame : ∀ packet ∈ sent, SameHeader hdr (bytes packet))
    (hhl : (headerOf hdr).hl = 5) (hpos : 0 < l.length) (hle : ofo * 8 + l.length ≤ 65515)
    (hfrag : ofo ≠ 0 ∨ env.mtu - ipHlen < l.length) : Parts hdr ofo l fs := by
  induction h generalizing fs with
  | done => simp at hpos
  | @last ofo l packet _ hlast hshows =>
    obtain ⟨f, fs, hf, hnil, rfl⟩ := List.forall₂_cons_left_iff.mp harrive
    cases hnil
    have hofo : ofo < ipMf := by
      rw [ipMf]
      omega
    rw [homf] at hshows
    have hpart := hf.part hshows hofo (hsame packet (by simp)) hpos
    exact hpart.parts hhl hpos hle (hfrag.resolve_right (by omega))
  | @more ofo l packet sent hmore hshows hcuts ih =>
    obtain ⟨f, fs, hf, hrest, rfl⟩ := List.forall₂_cons_left_iff.mp harrive
    have hnfb := nfb_pos hmtu
    have hnfble := nfb_le env
    have hofo : ofo < ipMf := by
      rw [ipMf]
      omega
    have hdrop : (l.drop (env.nfb * 8)).length = l.length - env.nfb * 8 := List.length_drop
    have htake : 0 < (l.take (env.nfb * 8)).length := by
      rw [List.length_take]
      omega
    have hpart := hf.part hshows hofo (hsame packet (by simp)) htake
    refine hpart.cons_parts (ih hrest (fun x hx => hsame x (by simp [hx])) ?_ ?_ ?_) hhl hnfb
      (by omega) hle <;> omega

/-! ### The round trip -/

/-- A packet that is no fragment, with a header without options that says how long the packet is -/
structure Datagram (p : List Pbuf) : Prop where
  wellFormed : WellFormed p
  head : ∃ q qs, p = q :: qs ∧ ipHlen ≤ q.len
  offset : packetOffset p = 0
  mf : moreFragments p = false
  hl : (headerOf (bytes p)).hl = 5
  length : packetLen p = totLen p

/-- What `ip_frag` has sent without an error, as it arrives -/
theorem ipFrag_parts (hmem : memory.Enough) (hp : Datagram p) (hmany : mtu < totLen p)
    (hret : (ipFrag memory odd mtu p).ret = some .ok)
    (harrive : List.Forall₂ ComesAs (ipFrag memory odd mtu p).sent fs) :
    Parts (bytes p) 0 (packetData p) fs := by
  have hmtu : ipHlen + 8 ≤ mtu := by
    by_contra hsmall
    rw [ipFrag, if_pos (by omega)] at hret
    cases hret
  obtain ⟨q, qs, rfl, hqlen⟩ := hp.head
  have htot : totLen (q :: qs) = (bytes (q :: qs)).length := hp.wellFormed.bytes_length.symm
  have hge : ipHlen ≤ totLen (q :: qs) := by omega
  have hlt := totLen_lt (q :: qs)
  have hhdr : (packetEnv memory odd mtu (q :: qs)).hdr.length = ipHlen := by
    rw [packetEnv, List.length_take]
    omega
  have hcut : Cut ipHlen ((q :: qs).map Pbuf.data) ((advance q ipHlen :: qs).map Pbuf.data) := by
    rw [List.map_cons, List.map_cons, advance_data]
    exact Cut.head _ (by rw [Pbuf.data_length]; exact hqlen)
  have hbytes : bytes (advance q ipHlen :: qs) = packetData (q :: qs) := by
    rw [bytes_eq_flatten, hcut.flatten_eq, ← bytes_eq_flatten, packetData]
  have hdata : (packetData (q :: qs)).length = totLen (q :: qs) - ipHlen := by
    rw [packetData, List.length_drop, htot]
  rw [ipFrag_eq hmtu hge] at hret harrive
  have hheader : ∀ packet ∈ (fragLoop (packetEnv memory odd mtu (q :: qs)) (totLen (q :: qs) - ipHlen + 1)
      0 (q :: qs) (totLen (q :: qs) - ipHlen) (packetOffset (q :: qs)) ipHlen).sent,
      SameHeader (bytes (q :: qs)) (bytes packet) := by
    intro packet hpacket
    have hsame : SameHeader (packetEnv memory odd mtu (q :: qs)).hdr (bytes packet) :=
      fragLoop_header hhdr packet hpacket
    obtain ⟨h2, h4, h12⟩ := hsame
    refine ⟨h2.trans ?_, h4.trans ?_, h12.trans ?_⟩
    · simp [packetEnv, List.take_take, ipHlen]
    · simp [packetEnv, List.drop_take, List.take_take, ipHlen]
    · simp [packetEnv, List.drop_take, List.take_take, ipHlen]
  obtain ⟨hgood, hbad⟩ := fragLoop_spec (k := 0) hmem hhdr hmtu
    (Nat.lt_succ_self _) (fun _ => hqlen) (hbytes ▸ hdata) (by omega) hcut
    (rfl : packetOffset (q :: qs) % ipMf = packetOffset (q :: qs) % ipMf)
  by_cases hroomy : Roomy (packetEnv memory odd mtu (q :: qs)) ((q :: qs).map Pbuf.data) ipHlen
      (totLen (q :: qs) - ipHlen)
  · obtain ⟨-, hcuts⟩ := hgood hroomy
    rw [hbytes, hp.offset] at hcuts
    rw [hp.offset] at harrive hheader
    have hmtu' : (packetEnv memory odd mtu (q :: qs)).mtu = mtu := rfl
    rw [ipHlen] at *
    refine hcuts.parts hmtu hp.mf harrive hheader hp.hl (by omega) (by omega) (.inr ?_)
    rw [hmtu', ipHlen]
    omega
  · rw [hbad hroomy] at hret
    cases hret

theorem Parts.pieces (h : Parts hdr 0 l fs) (hle : l.length ≤ 65515) :
    Reassembly.Pieces l.length fs := by
  obtain ⟨f, rest, mf, len, rfl, hf⟩ := h.first
  refine ⟨h.fromInput, h.noOptions, fun x hx y hy => ?_, h.tiled, ?_, ?_, ?_, hle⟩
  · exact Reassembly.IpHdr.match_trans (h.same x hx) (Reassembly.IpHdr.match_symm (h.same y hy))
  · intro x hx
    obtain rfl : f = x := Option.some.inj hx
    rw [Reassembly.Fragment.start, hf]
    exact Nat.zero_mul 8
  · simpa using h.last
  · simpa using h.mf

/-- The packet is put together again: the same header but for its checksum, and the same data. -/
structure Restored (p : List Pbuf) (d : Reassembly.Datagram) : Prop where
  hdr_eq : d.hdr = headerOf (bytes p)
  data_eq : (bytes d.pbufs).drop ipHlen = packetData p

theorem Parts.restored (h : Parts (bytes p) 0 (packetData p) fs) (hp : Datagram p)
    {d : Reassembly.Datagram} (hd : Reassembly.Whole (packetData p).length fs d) : Restored p d := by
  obtain ⟨f, rest, mf, len, rfl, hf⟩ := h.first
  have hlength := h.length f (by simp)
  have hlen : (headerOf (bytes p)).len = (packetData p).length + Reassembly.IP_HLEN := by
    obtain ⟨q, qs, rfl, hqlen⟩ := hp.head
    have hplen : packetLen (q :: qs) = totLen (q :: qs) := hp.length
    have htot := hp.wellFormed.bytes_length
    rw [bytes_cons, List.length_append, Pbuf.data_length] at htot
    rw [packetData, List.length_drop, hp.wellFormed.bytes_length]
    refine hplen.trans ?_
    show totLen (q :: qs) = totLen (q :: qs) - ipHlen + ipHlen
    omega
  refine ⟨?_, ?_⟩
  · rw [hd.hdr f rfl, hf]
    dsimp only
    rw [← hlen, ← hp.offset, ← hp.mf]
    rfl
  · rw [hd.bytes f rest rfl, List.drop_append_of_le_length hlength]
    exact h.data

/-- When the fragments come out of `ip_reass`, and what comes out. -/
theorem feed_fragments {s : Reassembly.Reass} {gs : List Reassembly.Fragment} (hmem : memory.Enough)
    (hp : Datagram p) (hmany : mtu < totLen p) (hret : (ipFrag memory odd mtu p).ret = some .ok)
    (harrive : List.Forall₂ ComesAs (ipFrag memory odd mtu p).sent fs) (hroom : Reassembly.Room s fs)
    (hperm : gs.Perm fs) :
    ((∃ d, Reassembly.feed s gs = some (s, Reassembly.withLast fs.length d)) ↔
      ∀ pre f post, gs = pre ++ f :: post → ¬ Reassembly.Leaps fs pre f) ∧
    ∀ d, Reassembly.feed s gs = some (s, Reassembly.withLast fs.length d) → Restored p d := by
  have hparts := ipFrag_parts hmem hp hmany hret harrive
  have hlt := totLen_lt p
  have hle : (packetData p).length ≤ 65515 := by
    rw [packetData, List.length_drop, hp.wellFormed.bytes_length, ipHlen]
    omega
  obtain ⟨f, rest, -, -, hfs, -⟩ := hparts.first
  obtain ⟨hwhole, hiff⟩ := Reassembly.feed_perm (hparts.pieces hle) hroom hperm (by simp [hfs])
  exact ⟨hiff, fun d hd => hparts.restored hp (hwhole d hd)⟩

theorem frame_lt (l : List UInt8) : (l.take 1500).length < 2 ^ 16 :=
  (List.length_take_le 1500 l).trans_lt (by decide)

/-- The packet arrives in one pbuf. -/
def received (packet : List Pbuf) : Reassembly.Fragment :=
  ⟨headerOf (bytes packet), [dataPbuf ((bytes packet).take 1500) (frame_lt _) 0]⟩

theorem received_comesAs (hle : (bytes packet).length ≤ 1500) (hge : ipHlen ≤ (bytes packet).length) :
    ComesAs packet (received packet) := by
  have htake : (bytes packet).take 1500 = bytes packet := List.take_of_length_le hle
  refine ⟨rfl, ?_, ⟨rfl, trivial⟩, ⟨_, _, rfl, ?_⟩⟩
  · rw [received, bytes_cons, bytes_nil, List.append_nil]
    exact List.take_length.trans htake
  · show ipHlen ≤ ((bytes packet).take 1500).length
    rwa [htake]

end QuietLwip.Ip
