import QuietLwip.Foundation.Blocks
import QuietLwip.Ip.Output

/-!
# IP fragmentation

`ip_frag` in the configuration without a static buffer: a fragment is a header of its own in front of
`PBUF_REF`s that mirror pieces of the packet. The packet itself is the cursor: its pbufs lose what has been
sent at their front. The references that the pieces hold on the packet are left out.
-/

namespace QuietLwip.Ip

open Word Buffers OnesComplement Blocks

def ipHlen : ℕ := 20

/-- `IP_MF`; the bits below are those of `IP_OFFMASK`. -/
def ipMf : ℕ := 0x2000

/-- `PBUF_FLAG_IS_CUSTOM` -/
def pbufFlagIsCustom : ℕ := 2

/-- A word of a header, in network order -/
def headerWord (l : List UInt8) (i : ℕ) : ℕ := 256 * (l.getD i 0).toNat + (l.getD (i + 1) 0).toNat

/-- The answers of the allocators: the block behind the header of a fragment, and the elements of
`MEMP_FRAG_PBUF` for its pieces. -/
structure FragMemory where
  ram : ℕ → Option (RamBlock (layerOffset .link + ipHlen))
  ref : ℕ → ℕ → Option ℕ

/-- No allocation fails. -/
def FragMemory.Enough (memory : FragMemory) : Prop :=
  (∀ k, (memory.ram k).isSome) ∧ ∀ k i, (memory.ref k i).isSome

theorem ipHlen_lt : ipHlen < 2 ^ 16 := by decide

/-- What lies before `payload + n` is cut off. -/
theorem advance_inMem (p : Pbuf) (n : ℕ) : p.payload + min n p.len + (p.len - n) ≤ p.mem.length := by
  have := p.inMem
  omega

theorem advance_lenLt (p : Pbuf) (n : ℕ) : p.len - n < 2 ^ 16 := (Nat.sub_le p.len n).trans_lt p.lenLt

/-- `p->payload += poff; p->len -= poff`; the code never goes over the end of the pbuf. -/
def advance (p : Pbuf) (poff : ℕ) : Pbuf where
  addr := p.addr
  mem := p.mem
  payload := p.payload + min poff p.len
  totLen := p.totLen
  len := p.len - poff
  type := p.type
  flags := p.flags
  ref := p.ref
  inMem := advance_inMem p poff
  lenLt := advance_lenLt p poff
  totLt := p.totLt
  refLt := p.refLt

theorem mirror_lt (p : Pbuf) (n : ℕ) : (p.data.take n).length < 2 ^ 16 := by
  have := p.lenLt
  rw [List.length_take, Pbuf.data_length]
  omega

/-- The custom pbuf over the first `newpbuflen` bytes -/
def mirror (p : Pbuf) (newpbuflen addr : ℕ) : Pbuf :=
  { dataPbuf (p.data.take newpbuflen) (mirror_lt p newpbuflen) addr with flags := pbufFlagIsCustom }

/-- Where the loop over the pbufs ends: the fragment, the pbuf that it ends in with those behind it,
and how much of that pbuf it has. -/
structure Mirrored where
  rambuf : List Pbuf
  p : List Pbuf
  newpbuflen : ℕ

/-- The loop over the pbufs, with `i` pieces so far -/
def mirrorLoop (ref : ℕ → Option ℕ) : List Pbuf → ℕ → ℕ → List Pbuf → Option (Except ErrT Mirrored)
  | [], _, _, _ => some (.error .val)
  | p :: ps, leftToCopy, i, rambuf =>
    let newpbuflen := min leftToCopy p.len
    if newpbuflen = 0 then mirrorLoop ref ps leftToCopy i rambuf
    else
      match ref i with
      | none => some (.error .mem)
      | some addr =>
        (pbufCat rambuf [mirror p newpbuflen addr]).bind fun rambuf =>
          if leftToCopy - newpbuflen = 0 then some (.ok ⟨rambuf, p :: ps, newpbuflen⟩)
          else mirrorLoop ref ps (leftToCopy - newpbuflen) (i + 1) rambuf

/-- The header of a fragment: that of the packet with a new length, offset and checksum -/
def fragHeader (hdr : List UInt8) (len tmp chksum : ℕ) : List UInt8 :=
  hdr.take 2 ++ netWord len ++ (hdr.drop 4).take 2 ++ netWord tmp ++ (hdr.drop 8).take 2 ++
    (memWord chksum ++ (hdr.drop 12).take 8)

/-- A turn of the loop, for the fragment `k` of `cop` bytes. `none` is a failed assertion. -/
def fragTurn (memory : FragMemory) (odd : Pbuf → Bool) (hdr : List UInt8) (k cop tmp poff : ℕ) :
    List Pbuf → Option (Except ErrT (List Pbuf × Mirrored))
  | [] => none
  | p :: ps =>
    match pbufAllocRam .link ipHlen ipHlen_lt (memory.ram k) with
    | none => some (.error .mem)
    | some ram =>
      -- `LWIP_ASSERT("this needs a pbuf in one piece!", (p->len >= (IP_HLEN)))`
      if p.len < ipHlen then none
      else
        (writeHead hdr [ram]).bind fun rambuf =>
          (mirrorLoop (memory.ref k) (advance p poff :: ps) cop 0 rambuf).bind fun
            | .error e => some (.error e)
            | .ok m =>
              let header := fragHeader hdr (cop + ipHlen) tmp
              let chksum := inetChksum (m.rambuf.head?.any odd) (header 0)
              (writeHead (header chksum) m.rambuf).map fun packet => .ok (packet, m)

/-- What has been handed to `netif->output`, and what is returned; `none` when an assertion has failed. -/
structure FragOutcome where
  sent : List (List Pbuf)
  ret : Option ErrT

/-- What stays the same through the loop -/
structure FragEnv where
  memory : FragMemory
  odd : Pbuf → Bool
  mtu : ℕ
  hdr : List UInt8
  omf : Bool

/-- `nfb` -/
def FragEnv.nfb (env : FragEnv) : ℕ := (env.mtu - ipHlen) / 8

/-- `last` -/
def FragEnv.last (env : FragEnv) (left : ℕ) : Bool := left ≤ env.mtu - ipHlen

/-- `cop` -/
def FragEnv.cop (env : FragEnv) (left : ℕ) : ℕ := if env.last left then left else env.nfb * 8

/-- `tmp`, the offset and the flag -/
def FragEnv.tmp (env : FragEnv) (left ofo : ℕ) : ℕ :=
  (if env.omf || !env.last left then ipMf else 0) + ofo % ipMf

/-- `while (left)`: every turn takes something from `left`, which bounds their number. -/
def fragLoop (env : FragEnv) : ℕ → ℕ → List Pbuf → (left ofo poff : ℕ) → FragOutcome
  | 0, _, _, _, _, _ => ⟨[], none⟩
  | turns + 1, k, p, left, ofo, poff =>
    if left = 0 then ⟨[], some .ok⟩
    else
      match fragTurn env.memory env.odd env.hdr k (env.cop left) (env.tmp left ofo) poff p with
      | none => ⟨[], none⟩
      | some (.error e) => ⟨[], some e⟩
      | some (.ok (packet, m)) =>
        let rest := fragLoop env turns (k + 1) m.p (left - env.cop left) (u16 (ofo + env.nfb : ℕ))
          m.newpbuflen
        { rest with sent := packet :: rest.sent }

/-- `ip_frag` -/
def ipFrag (memory : FragMemory) (odd : Pbuf → Bool) (mtu : ℕ) (p : List Pbuf) : FragOutcome :=
  if mtu < ipHlen + 8 then ⟨[], some .val⟩
  else
    let hdr := (bytes p).take ipHlen
    let tmp := headerWord hdr 6
    let left := u16 ((totLen p : ℤ) - ipHlen)
    fragLoop ⟨memory, odd, mtu, hdr, decide (tmp / ipMf % 2 = 1)⟩ (left + 1) 0 p left (tmp % ipMf) ipHlen

/-! ### What is sent -/

/-- The fields of a packet, read from its bytes -/
def packetLen (f : List Pbuf) : ℕ := headerWord (bytes f) 2
def packetOffset (f : List Pbuf) : ℕ := headerWord (bytes f) 6 % ipMf
def moreFragments (f : List Pbuf) : Bool := headerWord (bytes f) 6 / ipMf % 2 = 1
def packetData (f : List Pbuf) : List UInt8 := (bytes f).drop ipHlen

/-- The packets that are sent tile the packet `p`. -/
structure Tiles (mtu : ℕ) (p : List Pbuf) (out : FragOutcome) : Prop where
  ret : out.ret = some .ok
  lengths : ∀ f ∈ out.sent,
    totLen f ≤ mtu ∧ totLen f = ipHlen + (packetData f).length ∧ packetLen f = totLen f
  first : ∀ f ∈ out.sent.head?, packetOffset f = packetOffset p
  next : out.sent.IsChain fun f g => packetOffset g = packetOffset f + (packetData f).length / 8
  inner : ∀ f ∈ out.sent.dropLast, 8 ∣ (packetData f).length ∧ moreFragments f = true
  last : ∀ f ∈ out.sent.getLast?, moreFragments f = moreFragments p
  data : out.sent.flatMap packetData = packetData p

/-- Fragment `k` is not the last one. -/
def Continues (mtu : ℕ) (p : List Pbuf) (k : ℕ) : Prop :=
  k * ((mtu - ipHlen) / 8 * 8) + (mtu - ipHlen) < totLen p - ipHlen

/-- For every fragment but the last: the pbuf with the last byte of the fragment has 20 bytes from the
first byte of the fragment on, and the offset of the next fragment fits in its field. -/
def Fragmentable (mtu : ℕ) (p : List Pbuf) : Prop :=
  ∀ k, Continues mtu p k →
    ipHlen ≤ held (ipHlen + k * ((mtu - ipHlen) / 8 * 8))
      (ipHlen + (k + 1) * ((mtu - ipHlen) / 8 * 8) - 1) (p.map Pbuf.data) ∧
    packetOffset p + (k + 1) * ((mtu - ipHlen) / 8) < ipMf

/-! ### The cursor -/

variable {p q r : Pbuf} {d ps rs c : List Pbuf} {left i n : ℕ} {ref : ℕ → Option ℕ}

theorem bytes_eq_flatten (d : List Pbuf) : bytes d = (d.map Pbuf.data).flatten := List.flatMap_def

theorem advance_data (p : Pbuf) (n : ℕ) : (advance p n).data = p.data.drop n := by
  have hdata : (advance p n).data = (p.mem.drop (p.payload + min n p.len)).take (p.len - n) := rfl
  rw [hdata, Pbuf.data, List.drop_take, List.drop_drop]
  rcases le_total n p.len with h | h
  · rw [min_eq_left h]
  · rw [Nat.sub_eq_zero_of_le h, List.take_zero, List.take_zero]

theorem mirror_data (p : Pbuf) (n addr : ℕ) : (mirror p n addr).data = p.data.take n := by
  have hdata : (mirror p n addr).data = (p.data.take n).take (p.data.take n).length := rfl
  rw [hdata, List.take_length]

theorem mirror_wellFormed (p : Pbuf) (n addr : ℕ) : WellFormed [mirror p n addr] := ⟨rfl, trivial⟩

theorem mirror_totLen (p : Pbuf) (addr : ℕ) (h : n ≤ p.len) : totLen [mirror p n addr] = n := by
  have hlen : totLen [mirror p n addr] = (p.data.take n).length := rfl
  rw [hlen, List.length_take, Pbuf.data_length, min_eq_left h]

/-- The first pbuf of a chain keeps its length when another chain is added. -/
theorem pbufCat_head {t : List Pbuf} (h : pbufCat (r :: rs) t = some c) :
    ∃ r' rs', c = r' :: rs' ∧ r'.len = r.len :=
  ⟨_, _, pbufCat_eq h, rfl⟩

/-- The loop over the pbufs has put the first `left` bytes of `d` behind the pbufs `r :: rs`. -/
structure Mirrors (d : List Pbuf) (left : ℕ) (r : Pbuf) (rs : List Pbuf) (m : Mirrored) : Prop where
  rambuf : ∃ r' rs', m.rambuf = r' :: rs' ∧ r'.len = r.len
  wellFormed : WellFormed m.rambuf
  totLen_eq : totLen m.rambuf = totLen (r :: rs) + left
  bytes_eq : bytes m.rambuf = bytes (r :: rs) ++ (bytes d).take left
  cursor : ∃ q qs, m.p = q :: qs ∧ q.len = held 0 (left - 1) (d.map Pbuf.data) ∧
    Cut left (d.map Pbuf.data) ((advance q m.newpbuflen :: qs).map Pbuf.data)

/-- An empty pbuf is passed over. -/
theorem Mirrors.skip {m : Mirrored} (hm : Mirrors ps left r rs m) (hempty : p.len = 0) :
    Mirrors (p :: ps) left r rs m := by
  have hdata : p.data.length = p.len := p.data_length
  have hnil : p.data = [] := List.length_eq_zero_iff.mp (hdata.trans hempty)
  obtain ⟨q, qs, hp, hlen, hcut⟩ := hm.cursor
  refine ⟨hm.rambuf, hm.wellFormed, hm.totLen_eq, ?_, q, qs, hp, ?_, ?_⟩
  · rw [hm.bytes_eq, bytes_cons p ps, hnil, List.nil_append]
  · rw [List.map_cons, held_next (by omega), hlen, hdata, hempty, Nat.sub_zero]
  · have htail := (Cut.tail p.data (ps.map Pbuf.data)).trans hcut
    rw [hdata, hempty, Nat.zero_add] at htail
    exact htail

/-- The fragment ends in the pbuf `p`. -/
theorem Mirrors.last {r' : Pbuf} {rs' : List Pbuf} (hpos : 0 < left) (hle : left ≤ p.len)
    (hhead : r'.len = r.len) (hwf : WellFormed (r' :: rs'))
    (htot : totLen (r' :: rs') = totLen (r :: rs) + left)
    (hbytes : bytes (r' :: rs') = bytes (r :: rs) ++ p.data.take left) :
    Mirrors (p :: ps) left r rs ⟨r' :: rs', p :: ps, left⟩ := by
  have hdata : p.data.length = p.len := p.data_length
  refine ⟨⟨r', rs', rfl, hhead⟩, hwf, htot, ?_, p, ps, rfl, ?_, ?_⟩
  · rw [hbytes, bytes_cons p ps, List.take_append_of_le_length (by omega)]
  · rw [List.map_cons, held_first (by omega), hdata]
  · rw [List.map_cons, List.map_cons, advance_data]
    exact Cut.head _ (by omega)

/-- The fragment goes on behind the pbuf `p`. -/
theorem Mirrors.next {r' : Pbuf} {rs' : List Pbuf} {m : Mirrored} (hm : Mirrors ps (left - p.len) r' rs' m)
    (hlt : p.len < left) (hhead : r'.len = r.len)
    (htot : totLen (r' :: rs') = totLen (r :: rs) + p.len)
    (hbytes : bytes (r' :: rs') = bytes (r :: rs) ++ p.data) : Mirrors (p :: ps) left r rs m := by
  have hdata : p.data.length = p.len := p.data_length
  obtain ⟨q, qs, hp, hlen, hcut⟩ := hm.cursor
  obtain ⟨r'', rs'', hr, hhead'⟩ := hm.rambuf
  refine ⟨⟨r'', rs'', hr, hhead'.trans hhead⟩, hm.wellFormed, ?_, ?_, q, qs, hp, ?_, ?_⟩
  · rw [hm.totLen_eq, htot]
    omega
  · have htake : p.data.take left = p.data := List.take_of_length_le (by omega)
    rw [hm.bytes_eq, hbytes, bytes_cons p ps, List.take_append, hdata, List.append_assoc, htake]
  · rw [List.map_cons, held_next (by omega), hlen, hdata]
    congr 1
    omega
  · have htail := (Cut.tail p.data (ps.map Pbuf.data)).trans hcut
    rw [hdata, Nat.add_sub_cancel' hlt.le] at htail
    exact htail

theorem mirrorLoop_spec (href : ∀ i, (ref i).isSome) (hpos : 0 < left) (hle : left ≤ (bytes d).length)
    (hwf : WellFormed (r :: rs)) (hsum : totLen (r :: rs) + left < 2 ^ 16) :
    ∃ m, mirrorLoop ref d left i (r :: rs) = some (.ok m) ∧ Mirrors d left r rs m := by
  induction d generalizing left i r rs with
  | nil =>
    rw [bytes_nil, List.length_nil] at hle
    omega
  | cons p ps ih =>
    rw [bytes_cons, List.length_append, Pbuf.data_length] at hle
    rw [mirrorLoop]
    by_cases hzero : min left p.len = 0
    · rw [if_pos hzero]
      obtain ⟨m, hm, hmirror⟩ := ih (i := i) hpos (by omega) hwf hsum
      exact ⟨m, hm, hmirror.skip (by omega)⟩
    · rw [if_neg hzero]
      obtain ⟨addr, haddr⟩ := Option.isSome_iff_exists.mp (href i)
      have htot := mirror_totLen p addr (min_le_right left p.len)
      obtain ⟨c, hc, hcwf, hctot, hcbytes⟩ := pbufCat_spec (List.cons_ne_nil r rs)
        (List.cons_ne_nil (mirror p (min left p.len) addr) []) hwf (mirror_wellFormed p _ addr) (by omega)
      obtain ⟨r', rs', rfl, hhead⟩ := pbufCat_head hc
      rw [bytes_cons (mirror p _ addr), mirror_data, bytes_nil, List.append_nil] at hcbytes
      rw [haddr]
      dsimp only
      rw [hc, Option.bind_some]
      rw [htot] at hctot
      by_cases hlast : left ≤ p.len
      · rw [min_eq_left hlast] at hctot hcbytes ⊢
        rw [if_pos (Nat.sub_self left)]
        exact ⟨_, rfl, .last hpos hlast hhead hcwf hctot hcbytes⟩
      · have hwhole : p.data.take p.len = p.data := List.take_of_length_le p.data_length.le
        rw [min_eq_right (by omega)] at hctot hcbytes ⊢
        rw [hwhole] at hcbytes
        rw [if_neg (by omega)]
        obtain ⟨m, hm, hmirror⟩ := ih (i := i + 1) (by omega) (by omega) hcwf (by omega : _ + (left - p.len) < _)
        exact ⟨m, hm, hmirror.next (by omega) hhead hctot hcbytes⟩

/-! ### One fragment -/

variable {memory : FragMemory} {odd : Pbuf → Bool} {hdr : List UInt8} {k cop tmp poff mtu : ℕ}

theorem fragHeader_length (hhdr : hdr.length = ipHlen) (len tmp chksum : ℕ) :
    (fragHeader hdr len tmp chksum).length = ipHlen := by
  rw [ipHlen] at hhdr
  simp [fragHeader, hhdr, ipHlen]

/-- The fragment of `cop` bytes of `d`: its lengths, its header, and where it leaves the cursor -/
structure Fragment (hdr : List UInt8) (cop tmp : ℕ) (d : List Pbuf) (packet : List Pbuf) (m : Mirrored) :
    Prop where
  totLen_eq : totLen packet = ipHlen + cop
  bytes_eq : ∃ chksum, bytes packet = fragHeader hdr (cop + ipHlen) tmp chksum ++ (bytes d).take cop
  cursor : ∃ q qs, m.p = q :: qs ∧ q.len = held 0 (cop - 1) (d.map Pbuf.data) ∧
    Cut cop (d.map Pbuf.data) ((advance q m.newpbuflen :: qs).map Pbuf.data)

/-- The assertion stops a fragment that begins in a pbuf of less than 20 bytes. -/
theorem fragTurn_short (hmem : memory.Enough) (hlen : p.len < ipHlen) :
    fragTurn memory odd hdr k cop tmp poff (p :: ps) = none := by
  obtain ⟨block, hblock⟩ := Option.isSome_iff_exists.mp (hmem.1 k)
  rw [fragTurn, hblock]
  exact if_pos hlen

theorem fragTurn_spec (hmem : memory.Enough) (hhdr : hdr.length = ipHlen) (hlen : ipHlen ≤ p.len)
    (hpos : 0 < cop) (hle : cop ≤ (bytes (advance p poff :: ps)).length) (hsum : ipHlen + cop < 2 ^ 16) :
    ∃ packet m, fragTurn memory odd hdr k cop tmp poff (p :: ps) = some (.ok (packet, m)) ∧
      Fragment hdr cop tmp (advance p poff :: ps) packet m := by
  obtain ⟨block, hblock⟩ := Option.isSome_iff_exists.mp (hmem.1 k)
  have hram : WellFormed [ramPbuf .link ipHlen ipHlen_lt block] := ⟨rfl, trivial⟩
  have hramlen : (ramPbuf .link ipHlen ipHlen_lt block).len = ipHlen := rfl
  obtain ⟨c, hc⟩ := writeHead_isSome (l := hdr) [] (hhdr.trans hramlen.symm).le
  obtain ⟨r, rfl, -, hrtot, hrlen, -⟩ := writeHead_eq hc
  obtain ⟨hrwf, hrtotal, hrbytes⟩ := writeHead_spec hram hc
  have hrbytes' : bytes [r] = hdr := by
    have hdrop : (bytes [ramPbuf .link ipHlen ipHlen_lt block]).drop hdr.length = [] := by
      apply List.drop_eq_nil_of_le
      rw [hram.bytes_length, hhdr]
      exact le_refl ipHlen
    rw [hrbytes, hdrop, List.append_nil]
  have hrtotal' : totLen [r] = ipHlen := hrtotal
  obtain ⟨m, hm, hmirror⟩ := mirrorLoop_spec (i := 0) (hmem.2 k) hpos hle hrwf (by omega)
  obtain ⟨r', rs', hrambuf, hhead⟩ := hmirror.rambuf
  have hheader := fragHeader_length hhdr (cop + ipHlen) tmp
  have hroom : ∀ chksum, (fragHeader hdr (cop + ipHlen) tmp chksum).length ≤ r'.len := by
    intro chksum
    rw [hheader, hhead, hrlen, hramlen]
  have hwrite : ∀ chksum, ∃ packet, writeHead (fragHeader hdr (cop + ipHlen) tmp chksum) m.rambuf = some packet := by
    intro chksum
    rw [hrambuf]
    exact writeHead_isSome rs' (hroom chksum)
  obtain ⟨packet, hpacket⟩ := hwrite (inetChksum (m.rambuf.head?.any odd)
    (fragHeader hdr (cop + ipHlen) tmp 0))
  obtain ⟨-, hptot, hpbytes⟩ := writeHead_spec hmirror.wellFormed hpacket
  rw [hheader, hmirror.bytes_eq, hrbytes', List.drop_left' hhdr] at hpbytes
  refine ⟨packet, m, ?_, ⟨?_, ⟨_, hpbytes⟩, hmirror.cursor⟩⟩
  · rw [fragTurn, hblock]
    dsimp only [pbufAllocRam, Option.map_some]
    rw [if_neg (by omega), hc, Option.bind_some, hm, Option.bind_some]
    dsimp only
    rw [hpacket, Option.map_some]
  · rw [hptot, hmirror.totLen_eq, hrtotal']

/-! ### The header of a fragment -/

theorem headerWord_netWord (front back : List UInt8) {x : ℕ} (h : x < 65536) :
    headerWord (front ++ (netWord x ++ back)) front.length = x := by
  have hhigh : (front ++ (netWord x ++ back)).getD front.length 0 = UInt8.ofNat (x / 256) := by
    simp [List.getD_eq_getElem?_getD, netWord]
  have hlow : (front ++ (netWord x ++ back)).getD (front.length + 1) 0 = UInt8.ofNat (x % 256) := by
    simp [List.getD_eq_getElem?_getD, netWord]
  have hdiv : x / 256 < 256 := by omega
  have hmod : x % 256 < 256 := Nat.mod_lt x (by decide)
  rw [headerWord, hhigh, hlow, UInt8.toNat_ofNat_of_lt' hdiv, UInt8.toNat_ofNat_of_lt' hmod]
  exact Nat.div_add_mod x 256

theorem fragHeader_len (hhdr : hdr.length = ipHlen) {len : ℕ} (h : len < 65536) (tmp chksum : ℕ)
    (back : List UInt8) : headerWord (fragHeader hdr len tmp chksum ++ back) 2 = len := by
  have hfront : (hdr.take 2).length = 2 := by
    rw [List.length_take, hhdr]
    rfl
  have hword := headerWord_netWord (hdr.take 2) ((hdr.drop 4).take 2 ++ (netWord tmp ++
    ((hdr.drop 8).take 2 ++ ((memWord chksum ++ (hdr.drop 12).take 8) ++ back)))) h
  rw [hfront] at hword
  rw [fragHeader]
  simpa only [List.append_assoc] using hword

theorem fragHeader_tmp (hhdr : hdr.length = ipHlen) (len : ℕ) (h : tmp < 65536) (chksum : ℕ)
    (back : List UInt8) : headerWord (fragHeader hdr len tmp chksum ++ back) 6 = tmp := by
  have hfront : (hdr.take 2 ++ (netWord len ++ (hdr.drop 4).take 2)).length = 6 := by
    rw [ipHlen] at hhdr
    simp [hhdr]
  have hword := headerWord_netWord (hdr.take 2 ++ (netWord len ++ (hdr.drop 4).take 2))
    ((hdr.drop 8).take 2 ++ ((memWord chksum ++ (hdr.drop 12).take 8) ++ back)) h
  rw [hfront] at hword
  rw [fragHeader]
  simpa only [List.append_assoc] using hword

/-- The packet `f` is the fragment with the data `l` at the offset `ofo`, with these more fragments. -/
structure Shows (f : List Pbuf) (ofo : ℕ) (mf : Bool) (l : List UInt8) : Prop where
  totLen_eq : totLen f = ipHlen + l.length
  packetLen_eq : packetLen f = totLen f
  offset_eq : packetOffset f = ofo % ipMf
  mf_eq : moreFragments f = mf
  data_eq : packetData f = l

theorem Fragment.shows {packet : List Pbuf} {m : Mirrored} {mf : Bool} {ofo : ℕ}
    (h : Fragment hdr cop ((if mf then ipMf else 0) + ofo % ipMf) d packet m) (hhdr : hdr.length = ipHlen)
    (hle : cop ≤ (bytes d).length) (hsum : ipHlen + cop < 2 ^ 16) : Shows packet ofo mf ((bytes d).take cop) := by
  obtain ⟨chksum, hbytes⟩ := h.bytes_eq
  have hmod : ofo % ipMf < ipMf := Nat.mod_lt ofo (by decide)
  have htmp : headerWord (bytes packet) 6 = (if mf then ipMf else 0) + ofo % ipMf := by
    have hlt : (if mf then ipMf else 0) + ofo % ipMf < 65536 := by
      rw [ipMf] at hmod ⊢
      split <;> omega
    rw [hbytes, fragHeader_tmp hhdr _ hlt]
  have hlen : packetLen packet = cop + ipHlen := by
    rw [packetLen, hbytes, fragHeader_len hhdr (by omega)]
  refine ⟨?_, ?_, ?_, ?_, ?_⟩
  · rw [h.totLen_eq, List.length_take, min_eq_left hle]
  · rw [hlen, h.totLen_eq, Nat.add_comm]
  · rw [packetOffset, htmp]
    cases mf
    · rw [if_neg (by decide), Nat.zero_add, Nat.mod_mod]
    · rw [if_pos rfl, Nat.add_mod_left, Nat.mod_mod]
  · rw [moreFragments, htmp]
    cases mf
    · rw [if_neg (by decide), Nat.zero_add, Nat.div_eq_of_lt hmod]
      rfl
    · rw [if_pos rfl, Nat.add_div_left _ (by decide), Nat.div_eq_of_lt hmod]
      rfl
  · rw [packetData, hbytes, List.drop_left' (fragHeader_length hhdr _ _ _)]

/-! ### The loop -/

/-- The packets are the fragments of the data `l`, the first of them at the offset `ofo`. -/
inductive Cuts (env : FragEnv) : ℕ → List UInt8 → List (List Pbuf) → Prop
  | done {ofo : ℕ} : Cuts env ofo [] []
  | last {ofo : ℕ} {l : List UInt8} {f : List Pbuf} (hpos : 0 < l.length)
      (hlast : l.length ≤ env.mtu - ipHlen) (hf : Shows f ofo env.omf l) : Cuts env ofo l [f]
  | more {ofo : ℕ} {l : List UInt8} {f : List Pbuf} {fs : List (List Pbuf)}
      (hmore : env.mtu - ipHlen < l.length) (hf : Shows f ofo true (l.take (env.nfb * 8)))
      (hfs : Cuts env (ofo + env.nfb) (l.drop (env.nfb * 8)) fs) : Cuts env ofo l (f :: fs)

/-- Of the data from the place `base` of the blocks on, every fragment but the last ends in a block that
has 20 bytes from the first byte of the fragment on. -/
def Roomy (env : FragEnv) (blocks : List (List UInt8)) (base left : ℕ) : Prop :=
  ∀ j, j * (env.nfb * 8) + (env.mtu - ipHlen) < left →
    ipHlen ≤ held (base + j * (env.nfb * 8)) (base + (j + 1) * (env.nfb * 8) - 1) blocks

variable {env : FragEnv} {blocks : List (List UInt8)} {base ofo turns : ℕ} {qs : List Pbuf}

theorem nfb_pos (hmtu : ipHlen + 8 ≤ env.mtu) : 0 < env.nfb := by
  rw [FragEnv.nfb, ipHlen] at *
  omega

theorem nfb_le (env : FragEnv) : env.nfb * 8 ≤ env.mtu - ipHlen := Nat.div_mul_le_self _ _

theorem roomy_succ (hmtu : ipHlen + 8 ≤ env.mtu) (hmore : env.mtu - ipHlen < left) :
    Roomy env blocks base left ↔
      ipHlen ≤ held base (base + env.nfb * 8 - 1) blocks ∧
        Roomy env blocks (base + env.nfb * 8) (left - env.nfb * 8) := by
  have hpos := nfb_pos hmtu
  have hle := nfb_le env
  constructor
  · intro h
    have hfirst := h 0 (by omega)
    rw [Nat.zero_mul, Nat.add_zero, Nat.zero_add, Nat.one_mul] at hfirst
    refine ⟨hfirst, fun j hj => ?_⟩
    have hnext := h (j + 1) (by rw [Nat.add_one_mul]; omega)
    rw [Nat.add_one_mul (j + 1), Nat.add_one_mul j] at hnext
    rw [Nat.add_one_mul j]
    have hleft : base + env.nfb * 8 + j * (env.nfb * 8) = base + (j * (env.nfb * 8) + env.nfb * 8) := by omega
    have hright : base + env.nfb * 8 + (j * (env.nfb * 8) + env.nfb * 8) - 1 =
        base + (j * (env.nfb * 8) + env.nfb * 8 + env.nfb * 8) - 1 := by omega
    rw [hleft, hright]
    exact hnext
  · rintro ⟨hfirst, hrest⟩ j hj
    cases j with
    | zero =>
      rw [Nat.zero_mul, Nat.add_zero, Nat.zero_add, Nat.one_mul]
      exact hfirst
    | succ j =>
      rw [Nat.add_one_mul] at hj
      have hnext := hrest j (by omega)
      rw [Nat.add_one_mul] at hnext
      rw [Nat.add_one_mul (j + 1), Nat.add_one_mul j]
      have hleft : base + env.nfb * 8 + j * (env.nfb * 8) = base + (j * (env.nfb * 8) + env.nfb * 8) := by omega
      have hright : base + env.nfb * 8 + (j * (env.nfb * 8) + env.nfb * 8) - 1 =
          base + (j * (env.nfb * 8) + env.nfb * 8 + env.nfb * 8) - 1 := by omega
      rw [← hleft, ← hright]
      exact hnext

/-- A turn of the loop that is not stopped, with what the next one begins with -/
theorem fragTurn_next (hmem : env.memory.Enough) (hhdr : env.hdr.length = ipHlen) (hlen : ipHlen ≤ q.len)
    (hpos : 0 < cop) (hle : cop ≤ (bytes (advance q poff :: qs)).length) (hsum : ipHlen + cop < 2 ^ 16)
    (hcut : Cut base blocks ((advance q poff :: qs).map Pbuf.data)) (mf : Bool) (ofo k : ℕ) :
    ∃ packet m q' qs', fragTurn env.memory env.odd env.hdr k cop ((if mf then ipMf else 0) + ofo % ipMf)
        poff (q :: qs) = some (.ok (packet, m)) ∧ m.p = q' :: qs' ∧
      Shows packet ofo mf ((bytes (advance q poff :: qs)).take cop) ∧
      q'.len = held base (base + cop - 1) blocks ∧
      Cut (base + cop) blocks ((advance q' m.newpbuflen :: qs').map Pbuf.data) ∧
      bytes (advance q' m.newpbuflen :: qs') = (bytes (advance q poff :: qs)).drop cop := by
  have hspec : ∃ packet m, fragTurn env.memory env.odd env.hdr k cop
        ((if mf then ipMf else 0) + ofo % ipMf) poff (q :: qs) = some (.ok (packet, m)) ∧
      Fragment env.hdr cop ((if mf then ipMf else 0) + ofo % ipMf) (advance q poff :: qs) packet m :=
    fragTurn_spec hmem hhdr hlen hpos hle hsum
  obtain ⟨packet, m, hturn, hfrag⟩ := hspec
  obtain ⟨q', qs', hm, hqlen, hqcut⟩ := hfrag.cursor
  refine ⟨packet, m, q', qs', hturn, hm, hfrag.shows hhdr hle hsum, ?_, hcut.trans hqcut, ?_⟩
  · rw [hqlen, hcut.held_eq, Nat.add_zero, Nat.add_sub_assoc hpos]
  · rw [bytes_eq_flatten, bytes_eq_flatten, hqcut.flatten_eq]

theorem fragLoop_zero (env : FragEnv) (turns k : ℕ) (p : List Pbuf) (ofo poff : ℕ) :
    fragLoop env (turns + 1) k p 0 ofo poff = ⟨[], some .ok⟩ := by rw [fragLoop, if_pos rfl]

theorem fragLoop_stopped (hmem : env.memory.Enough) (hlen : q.len < ipHlen) (hpos : 0 < left) (turns k : ℕ) :
    (fragLoop env turns k (q :: qs) left ofo poff).ret = none := by
  cases turns with
  | zero => rfl
  | succ turns => rw [fragLoop, if_neg (by omega), fragTurn_short hmem hlen]

theorem fragLoop_next {packet : List Pbuf} {m : Mirrored} (hpos : 0 < left)
    (h : fragTurn env.memory env.odd env.hdr k (env.cop left) (env.tmp left ofo) poff ps =
      some (.ok (packet, m))) :
    fragLoop env (turns + 1) k ps left ofo poff =
      ⟨packet :: (fragLoop env turns (k + 1) m.p (left - env.cop left) (u16 (ofo + env.nfb : ℕ))
        m.newpbuflen).sent, (fragLoop env turns (k + 1) m.p (left - env.cop left)
        (u16 (ofo + env.nfb : ℕ)) m.newpbuflen).ret⟩ := by
  rw [fragLoop, if_neg (by omega), h]

theorem Shows.congr {f : List Pbuf} {ofo' : ℕ} {mf : Bool} {l : List UInt8} (h : Shows f ofo mf l)
    (hofo : ofo % ipMf = ofo' % ipMf) : Shows f ofo' mf l :=
  ⟨h.totLen_eq, h.packetLen_eq, h.offset_eq.trans hofo, h.mf_eq, h.data_eq⟩

/-- An offset of 16 bits is right in the 13 bits of its field. -/
theorem offset_wrap (ofo n : ℕ) : u16 (ofo + n : ℕ) % ipMf = (ofo + n) % ipMf := by
  have hwrap : u16 (ofo + n : ℕ) = (ofo + n) % 65536 := by
    rw [u16, wrapU]
    omega
  rw [hwrap, ipMf]
  omega

/-- The loop sends the fragments of what is left, or is stopped by the assertion. -/
theorem fragLoop_spec (hmem : env.memory.Enough) (hhdr : env.hdr.length = ipHlen)
    (hmtu : ipHlen + 8 ≤ env.mtu) {ofo' : ℕ} (hturns : left < turns) (hlen : 0 < left → ipHlen ≤ q.len)
    (hleft : (bytes (advance q poff :: qs)).length = left) (hsum : ipHlen + left < 2 ^ 16)
    (hcut : Cut base blocks ((advance q poff :: qs).map Pbuf.data)) (hofo : ofo % ipMf = ofo' % ipMf) :
    (Roomy env blocks base left →
      (fragLoop env turns k (q :: qs) left ofo poff).ret = some .ok ∧
      Cuts env ofo' (bytes (advance q poff :: qs)) (fragLoop env turns k (q :: qs) left ofo poff).sent) ∧
    (¬ Roomy env blocks base left → (fragLoop env turns k (q :: qs) left ofo poff).ret = none) := by
  induction turns generalizing k q qs left ofo ofo' poff base with
  | zero => omega
  | succ turns ih =>
    rcases Nat.eq_zero_or_pos left with hzero | hpos
    · -- nothing is left
      have hnil : bytes (advance q poff :: qs) = [] := List.length_eq_zero_iff.mp (hleft.trans hzero)
      rw [hnil, hzero, fragLoop_zero]
      exact ⟨fun _ => ⟨rfl, .done⟩, fun hno => absurd (fun j hj => by omega) hno⟩
    · by_cases hlast : left ≤ env.mtu - ipHlen
      · -- the last fragment
        have hcop : env.cop left = left := by rw [FragEnv.cop, FragEnv.last, if_pos (by simpa using hlast)]
        have htmp : env.tmp left ofo = (if env.omf then ipMf else 0) + ofo % ipMf := by
          rw [FragEnv.tmp, FragEnv.last, decide_eq_true hlast, Bool.not_true, Bool.or_false]
        obtain ⟨packet, m, q', qs', hturn, hm, hshows, -, -, -⟩ :=
          fragTurn_next hmem hhdr (hlen hpos) hpos hleft.ge hsum hcut env.omf ofo k
        rw [← htmp] at hturn
        obtain ⟨turns', rfl⟩ : ∃ turns', turns = turns' + 1 := ⟨turns - 1, by omega⟩
        rw [fragLoop_next hpos (by rw [hcop]; exact hturn), hcop, Nat.sub_self, fragLoop_zero]
        have htake : (bytes (advance q poff :: qs)).take left = bytes (advance q poff :: qs) :=
          List.take_of_length_le hleft.le
        rw [htake] at hshows
        refine ⟨fun _ => ⟨rfl, .last (by omega) (by omega) (hshows.congr hofo)⟩, fun hno => ?_⟩
        exact absurd (fun j hj => by omega) hno
      · -- a fragment of `nfb * 8` bytes
        have hmore : env.mtu - ipHlen < left := not_le.mp hlast
        have hnfb := nfb_pos hmtu
        have hle := nfb_le env
        have hcop : env.cop left = env.nfb * 8 := by
          rw [FragEnv.cop, FragEnv.last, if_neg (by simpa using hmore)]
        have htmp : env.tmp left ofo = (if true then ipMf else 0) + ofo % ipMf := by
          rw [FragEnv.tmp, FragEnv.last, decide_eq_false hlast, Bool.not_false, Bool.or_true]
        have hcoppos : 0 < env.nfb * 8 := by omega
        have hcople : env.nfb * 8 ≤ (bytes (advance q poff :: qs)).length := by omega
        obtain ⟨packet, m, q', qs', hturn, hm, hshows, hqlen, hqcut, hqbytes⟩ :=
          fragTurn_next hmem hhdr (hlen hpos) hcoppos hcople (by omega) hcut true ofo k
        rw [← htmp] at hturn
        rw [fragLoop_next hpos (by rw [hcop]; exact hturn), hcop, hm, roomy_succ hmtu hmore, ← hqlen]
        by_cases hroom : ipHlen ≤ q'.len
        · have hleft' : (bytes (advance q' m.newpbuflen :: qs')).length = left - env.nfb * 8 := by
            rw [hqbytes, List.length_drop, hleft]
          have hofo' : u16 (ofo + env.nfb : ℕ) % ipMf = (ofo' + env.nfb) % ipMf := by
            rw [offset_wrap, Nat.add_mod, hofo, ← Nat.add_mod]
          obtain ⟨hgood, hbad⟩ := ih (k := k + 1) (by omega) (fun _ => hroom) hleft' (by omega) hqcut hofo'
          refine ⟨fun hroomy => ?_, fun hno => ?_⟩
          · obtain ⟨hret, hcuts⟩ := hgood hroomy.2
            rw [hqbytes] at hcuts
            exact ⟨hret, .more (by omega) (hshows.congr hofo) hcuts⟩
          · exact hbad fun hrest => hno ⟨hroom, hrest⟩
        · refine ⟨fun hroomy => absurd hroomy.1 hroom, fun _ => ?_⟩
          exact fragLoop_stopped hmem (not_le.mp hroom) (by omega) _ _

/-! ### The tiles -/

variable {l : List UInt8} {sent : List (List Pbuf)}

theorem Cuts.ne_nil (h : Cuts env ofo l sent) (hpos : 0 < l.length) : sent ≠ [] := by
  cases h with
  | done => exact absurd hpos (by simp)
  | last => exact List.cons_ne_nil _ _
  | more => exact List.cons_ne_nil _ _

theorem Cuts.offset (h : Cuts env ofo l sent) : ∀ f ∈ sent.head?, packetOffset f = ofo % ipMf := by
  intro f hf
  cases h with
  | done => cases hf
  | last hpos hlast hshows =>
    cases hf
    exact hshows.offset_eq
  | more hmore hshows hfs =>
    cases hf
    exact hshows.offset_eq

theorem Cuts.lengths (h : Cuts env ofo l sent) (hmtu : ipHlen + 8 ≤ env.mtu) : ∀ f ∈ sent,
    totLen f ≤ env.mtu ∧ totLen f = ipHlen + (packetData f).length ∧ packetLen f = totLen f := by
  have hle := nfb_le env
  induction h with
  | done => exact fun f hf => absurd hf List.not_mem_nil
  | last hpos hlast hshows =>
    intro f hf
    cases List.mem_singleton.mp hf
    rw [hshows.packetLen_eq, hshows.totLen_eq, hshows.data_eq]
    exact ⟨by omega, rfl, rfl⟩
  | more hmore hshows hfs ih =>
    intro f hf
    rcases List.mem_cons.mp hf with rfl | hf
    · rw [hshows.packetLen_eq, hshows.totLen_eq, hshows.data_eq, List.length_take]
      exact ⟨by omega, rfl, rfl⟩
    · exact ih f hf

theorem Cuts.data (h : Cuts env ofo l sent) : sent.flatMap packetData = l := by
  induction h with
  | done => rfl
  | last hpos hlast hshows => rw [List.flatMap_singleton, hshows.data_eq]
  | more hmore hshows hfs ih => rw [List.flatMap_cons, ih, hshows.data_eq, List.take_append_drop]

theorem drop_nfb_pos (h : env.mtu - ipHlen < l.length) : 0 < (l.drop (env.nfb * 8)).length := by
  have := nfb_le env
  rw [List.length_drop]
  omega

theorem Cuts.inner (h : Cuts env ofo l sent) :
    ∀ f ∈ sent.dropLast, 8 ∣ (packetData f).length ∧ moreFragments f = true := by
  have hle := nfb_le env
  induction h with
  | done => exact fun f hf => absurd hf List.not_mem_nil
  | last hpos hlast hshows => exact fun f hf => absurd hf List.not_mem_nil
  | more hmore hshows hfs ih =>
    intro f hf
    rw [List.dropLast_cons_of_ne_nil (hfs.ne_nil (drop_nfb_pos hmore))] at hf
    rcases List.mem_cons.mp hf with rfl | hf
    · rw [hshows.data_eq, List.length_take, min_eq_left (by omega)]
      exact ⟨Nat.dvd_mul_left 8 env.nfb, hshows.mf_eq⟩
    · exact ih f hf

theorem Cuts.last_mf (h : Cuts env ofo l sent) : ∀ f ∈ sent.getLast?, moreFragments f = env.omf := by
  induction h with
  | done => exact fun f hf => absurd hf (by simp)
  | last hpos hlast hshows =>
    intro f hf
    cases hf
    exact hshows.mf_eq
  | @more _ _ _ fs hmore hshows hfs ih =>
    intro f hf
    obtain ⟨g, gs, rfl⟩ := List.exists_cons_of_ne_nil (hfs.ne_nil (drop_nfb_pos hmore))
    rw [List.getLast?_cons_cons] at hf
    exact ih f hf

/-- The offsets are exact as long as they fit in their field. -/
theorem Cuts.next_iff (h : Cuts env ofo l sent) (hofo : ofo < ipMf) :
    (sent.IsChain fun f g => packetOffset g = packetOffset f + (packetData f).length / 8) ↔
      ∀ k, k * (env.nfb * 8) + (env.mtu - ipHlen) < l.length → ofo + (k + 1) * env.nfb < ipMf := by
  have hle := nfb_le env
  induction h with
  | done => exact iff_of_true .nil fun k hk => absurd hk (by simp)
  | last hpos hlast hshows => exact iff_of_true (.singleton _) fun k hk => by omega
  | @more ofo l f fs hmore hshows hfs ih =>
    obtain ⟨g, gs, rfl⟩ := List.exists_cons_of_ne_nil (hfs.ne_nil (drop_nfb_pos hmore))
    have hg : packetOffset g = (ofo + env.nfb) % ipMf := hfs.offset g rfl
    have hdata : (packetData f).length / 8 = env.nfb := by
      rw [hshows.data_eq, List.length_take, min_eq_left (by omega)]
      exact Nat.mul_div_cancel _ (by decide)
    rw [List.isChain_cons_cons, hg, hdata, hshows.offset_eq, Nat.mod_eq_of_lt hofo]
    rw [List.length_drop] at ih
    constructor
    · rintro ⟨hfirst, hrest⟩ k hk
      have hlt : ofo + env.nfb < ipMf := by
        rw [← hfirst]
        exact Nat.mod_lt _ (by decide)
      cases k with
      | zero => omega
      | succ k =>
        rw [Nat.add_one_mul] at hk
        have hnext := (ih hlt).mp hrest k (by omega)
        rw [Nat.add_one_mul (k + 1)]
        omega
    · intro hall
      have hlt : ofo + env.nfb < ipMf := by
        have hfirst := hall 0 (by omega)
        omega
      refine ⟨Nat.mod_eq_of_lt hlt, (ih hlt).mpr fun k hk => ?_⟩
      have hnext := hall (k + 1) (by rw [Nat.add_one_mul]; omega)
      rw [Nat.add_one_mul (k + 1)] at hnext
      omega

theorem headerWord_take {n : ℕ} (h : i + 1 < n) (l : List UInt8) : headerWord (l.take n) i = headerWord l i := by
  simp only [headerWord, List.getD_eq_getElem?_getD, List.getElem?_take_of_lt h,
    List.getElem?_take_of_lt (Nat.lt_of_succ_lt h)]

/-- What stays the same while `p` is cut -/
def packetEnv (memory : FragMemory) (odd : Pbuf → Bool) (mtu : ℕ) (p : List Pbuf) : FragEnv :=
  ⟨memory, odd, mtu, (bytes p).take ipHlen, moreFragments p⟩

theorem ipFrag_eq {p : List Pbuf} (hmtu : ipHlen + 8 ≤ mtu) (hge : ipHlen ≤ totLen p) :
    ipFrag memory odd mtu p = fragLoop (packetEnv memory odd mtu p) (totLen p - ipHlen + 1) 0 p
      (totLen p - ipHlen) (packetOffset p) ipHlen := by
  have hlt := totLen_lt p
  have hleft : u16 ((totLen p : ℤ) - ipHlen) = totLen p - ipHlen := by
    rw [← Int.natCast_sub hge]
    exact wrapU_natCast (by omega)
  have hword : headerWord ((bytes p).take ipHlen) 6 = headerWord (bytes p) 6 := headerWord_take (by decide) _
  rw [ipFrag, if_neg (by omega)]
  dsimp only
  rw [hword, hleft]
  rfl

/-- `ip_frag` refuses an MTU that leaves no room for 8 bytes, and otherwise tiles exactly the packets of
which every fragment but the last ends where the assertion allows the next one to begin, with offsets that
fit in their field. -/
theorem ipFrag_tiles_iff {p : List Pbuf} (hmem : memory.Enough) (hwf : WellFormed p)
    (hhead : ∃ q qs, p = q :: qs ∧ ipHlen ≤ q.len) :
    (mtu < ipHlen + 8 → ipFrag memory odd mtu p = ⟨[], some .val⟩) ∧
      (ipHlen + 8 ≤ mtu → (Tiles mtu p (ipFrag memory odd mtu p) ↔ Fragmentable mtu p)) := by
  refine ⟨fun hmtu => by rw [ipFrag, if_pos hmtu], fun hmtu => ?_⟩
  obtain ⟨q, qs, rfl, hqlen⟩ := hhead
  have htot : totLen (q :: qs) = (bytes (q :: qs)).length := hwf.bytes_length.symm
  have hge : ipHlen ≤ totLen (q :: qs) := by
    rw [htot, bytes_cons, List.length_append, Pbuf.data_length]
    omega
  have hlt := totLen_lt (q :: qs)
  have hhdr : ((bytes (q :: qs)).take ipHlen).length = ipHlen := by
    rw [List.length_take]
    omega
  have hcut : Cut ipHlen ((q :: qs).map Pbuf.data) ((advance q ipHlen :: qs).map Pbuf.data) := by
    rw [List.map_cons, List.map_cons, advance_data]
    exact Cut.head _ (by rw [Pbuf.data_length]; exact hqlen)
  have hbytes : bytes (advance q ipHlen :: qs) = packetData (q :: qs) := by
    rw [bytes_eq_flatten, hcut.flatten_eq, ← bytes_eq_flatten, packetData]
  have hdata : (packetData (q :: qs)).length = totLen (q :: qs) - ipHlen := by
    rw [packetData, List.length_drop, htot]
  have hofo : packetOffset (q :: qs) < ipMf := Nat.mod_lt _ (by decide)
  have hrest : (bytes (advance q ipHlen :: qs)).length = totLen (q :: qs) - ipHlen := by rw [hbytes, hdata]
  rw [ipFrag_eq hmtu hge]
  generalize henv : packetEnv memory odd mtu (q :: qs) = env
  have hmem' : env.memory.Enough := henv ▸ hmem
  have hhdr' : env.hdr.length = ipHlen := henv ▸ hhdr
  have hmtu' : env.mtu = mtu := henv ▸ rfl
  have homf : env.omf = moreFragments (q :: qs) := henv ▸ rfl
  subst hmtu'
  obtain ⟨hgood, hbad⟩ := fragLoop_spec (k := 0) hmem' hhdr' hmtu (Nat.lt_succ_self _) (fun _ => hqlen) hrest
    (by omega) hcut (rfl : packetOffset (q :: qs) % ipMf = packetOffset (q :: qs) % ipMf)
  constructor
  · intro htiles
    have hroomy : Roomy env ((q :: qs).map Pbuf.data) ipHlen (totLen (q :: qs) - ipHlen) := by
      by_contra hno
      have hret := htiles.ret
      rw [hbad hno] at hret
      cases hret
    obtain ⟨-, hcuts⟩ := hgood hroomy
    have hnext := (hcuts.next_iff hofo).mp htiles.next
    rw [hrest] at hnext
    exact fun k hk => ⟨hroomy k hk, hnext k hk⟩
  · intro hfrag
    obtain ⟨hret, hcuts⟩ := hgood fun j hj => (hfrag j hj).1
    refine ⟨hret, hcuts.lengths hmtu, ?_, ?_, hcuts.inner, homf ▸ hcuts.last_mf, ?_⟩
    · intro f hf
      rw [hcuts.offset f hf]
      exact Nat.mod_eq_of_lt hofo
    · refine (hcuts.next_iff hofo).mpr fun k hk => ?_
      rw [hrest] at hk
      exact (hfrag k hk).2
    · rw [hcuts.data, hbytes]

/-- Memory of zeros -/
def zeroMemory : FragMemory where
  ram _ := some ⟨0, .replicate (layerOffset .link + ipHlen) 0, List.length_replicate⟩
  ref _ _ := some 0

theorem zeroMemory_enough : zeroMemory.Enough := ⟨fun _ => rfl, fun _ _ => rfl⟩

/-- A packet of UDP between two hosts, with the word of the header that has the flags and the offset -/
def udpPacket (word : ℕ) (data : List UInt8) : List UInt8 :=
  [0x45, 0] ++ netWord (ipHlen + data.length) ++ [0, 1] ++ netWord word ++
    [64, 17, 0, 0, 10, 0, 0, 1, 10, 0, 0, 2] ++ data

/-- 16 bytes of data in the pbuf of the header -/
def shortData : List UInt8 := udpPacket 0 (.replicate 16 0x61)

theorem shortData_lt : shortData.length < 2 ^ 16 := by decide

def shortPacket : List Pbuf := [dataPbuf shortData shortData_lt 0]

/-- 40 bytes of data -/
def longData : List UInt8 := udpPacket 0 (.replicate 40 0x61)

theorem longData_lt : longData.length < 2 ^ 16 := by decide

def longPacket : List Pbuf := [dataPbuf longData longData_lt 0]

/-- 40 bytes of data at the last offset of all -/
def farData : List UInt8 := udpPacket 0x1fff (.replicate 40 0x61)

theorem farData_lt : farData.length < 2 ^ 16 := by decide

def farPacket : List Pbuf := [dataPbuf farData farData_lt 0]

/-- With an MTU of 28 the second fragment begins in a pbuf of 16 bytes, and the assertion stops the
program; behind the last offset of all the field starts again. -/
theorem ipFrag_asserts :
    ((ipFrag zeroMemory (fun _ => false) 28 shortPacket).ret = none ∧
      ¬ Tiles 28 shortPacket (ipFrag zeroMemory (fun _ => false) 28 shortPacket)) ∧
    (ipFrag zeroMemory (fun _ => false) 44 farPacket).sent.map packetOffset = [8191, 2] ∧
      ¬ Tiles 44 farPacket (ipFrag zeroMemory (fun _ => false) 44 farPacket) := by
  have hret : (ipFrag zeroMemory (fun _ => false) 28 shortPacket).ret = none := by decide +kernel
  have hoffsets : (ipFrag zeroMemory (fun _ => false) 44 farPacket).sent.map packetOffset = [8191, 2] := by
    decide +kernel
  have hdata : (ipFrag zeroMemory (fun _ => false) 44 farPacket).sent.map
      (fun f => (packetData f).length) = [24, 16] := by decide +kernel
  refine ⟨⟨hret, fun h => ?_⟩, hoffsets, fun h => ?_⟩
  · have hok := h.ret
    rw [hret] at hok
    cases hok
  · have hnext := h.next
    generalize (ipFrag zeroMemory (fun _ => false) 44 farPacket).sent = sent at hoffsets hdata hnext
    rcases sent with _ | ⟨f, _ | ⟨g, fs⟩⟩
    · exact absurd (congrArg List.length hoffsets) (by decide)
    · exact absurd (congrArg List.length hoffsets) (by simp)
    · rw [List.map_cons, List.map_cons, List.cons.injEq, List.cons.injEq] at hoffsets hdata
      have hstep := (List.isChain_cons_cons.mp hnext).1
      omega

/-- An MTU of 44 cuts 40 bytes of data into 24 and 16, and one of 27 is refused. -/
theorem ipFrag_tiles_long :
    Tiles 44 longPacket (ipFrag zeroMemory (fun _ => false) 44 longPacket) ∧
      ipFrag zeroMemory (fun _ => false) 27 longPacket = ⟨[], some .val⟩ := by
  have hwf : WellFormed longPacket := ⟨rfl, trivial⟩
  have hhead : ∃ q qs, longPacket = q :: qs ∧ ipHlen ≤ q.len := ⟨_, _, rfl, by decide⟩
  have hfrag : Fragmentable 44 longPacket := by
    intro k hk
    have hzero : k = 0 := by
      have hcontinues : k * 24 + 24 < 40 := hk
      omega
    subst hzero
    exact ⟨by decide +kernel, by decide +kernel⟩
  exact ⟨((ipFrag_tiles_iff zeroMemory_enough hwf hhead).2 (by decide)).mpr hfrag,
    (ipFrag_tiles_iff zeroMemory_enough hwf hhead).1 (by decide)⟩

end QuietLwip.Ip
