import QuietLwip.Buffers.Headers
import QuietLwip.Ip.Validation

/-!
# Packets that are sent

`ip_route` and `ip_output_if` of `ip.c`, up to the interface or the fragmentation. The header goes in
front of the packet, and its total length is the `tot_len` of the first pbuf, whatever that has
become in 16 bits.
-/

namespace QuietLwip.Ip

open Word Buffers OnesComplement

/-- `err_t`. -/
inductive ErrT where
  | ok | mem | buf | timeout | rte | inprogress | val | wouldblock | use | isconn | connWarn
  | abrt | rst | clsd | conn | arg | netif
  deriving DecidableEq, Repr

/-- `ERR_IS_FATAL`. -/
def ErrT.isFatal : ErrT → Bool
  | .abrt | .rst | .clsd | .conn | .arg | .netif => true
  | _ => false

/-- `ip_route`: of the interfaces with this very address it is the last one, and only without another
one on that network. -/
def ipRoute (netifs : List Netif) (netifDefault : Option Netif) (dest : IpAddr) : Option Netif :=
  (netifs.find? fun n => n.up && dest != n.ipAddr && dest.netcmp n.ipAddr n.netmask).or
    ((netifs.reverse.find? fun n => n.up && dest == n.ipAddr).or (netifDefault.filter (·.up)))

/-! ### The header -/

/-- `htons`, in memory. -/
def netWord (x : ℕ) : List UInt8 := [UInt8.ofNat (x / 256), UInt8.ofNat (x % 256)]

/-- A word as the machine has it: the checksums are computed in that order. -/
def memWord (x : ℕ) : List UInt8 := [UInt8.ofNat (x % 256), UInt8.ofNat (x / 256)]

def addrBytes (a : IpAddr) : List UInt8 := netWord (a.toNat / 65536) ++ netWord (a.toNat % 65536)

/-- A packet that is passed to `ip_output_if`, with the fields of the header that come with it. -/
structure Packet where
  chain : List Pbuf
  src : IpAddr
  dest : IpAddr
  ttl : UInt8
  tos : UInt8
  proto : UInt8

/-- The source address in the header. -/
def Packet.hdrSrc (k : Packet) (netif : Netif) : IpAddr := if k.src.isAny then netif.ipAddr else k.src

/-- The `struct ip_hdr` for a packet, with this total length, identification and checksum. -/
def Packet.ipHdr (k : Packet) (netif : Netif) (len id chksum : ℕ) : List UInt8 :=
  [0x45, k.tos] ++ netWord len ++ netWord id ++ [0, 0, k.ttl, k.proto] ++ memWord chksum ++
    (addrBytes (k.hdrSrc netif) ++ addrBytes k.dest)

/-- `LWIP_MAKE_U16`. -/
def lwipMakeU16 (a b : UInt8) : ℕ := 256 * a.toNat + b.toNat

/-- The sum of the fields in 32 bits, added up while they are written. -/
def Packet.chkSum (k : Packet) (netif : Netif) (len id : ℕ) : ℕ :=
  lwipMakeU16 k.proto k.ttl + addrSum k.dest + lwipMakeU16 k.tos 0x45 + htons len + htons id +
    addrSum (k.hdrSrc netif)

/-- `iphdr->_chksum`, with `CHECKSUM_GEN_IP_INLINE`. -/
def Packet.chksumInline (k : Packet) (netif : Netif) (len id : ℕ) : ℕ :=
  let chkSum := k.chkSum netif len id
  let chkSum := chkSum / 65536 + chkSum % 65536
  let chkSum := chkSum / 65536 + chkSum
  0xffff - chkSum % 65536

/-- What a packet is handed to: `netif->output`, or `ip_frag`. -/
inductive Sent where
  | output (c : List Pbuf)
  | frag (c : List Pbuf)

def Sent.chain : Sent → List Pbuf
  | .output c | .frag c => c

/-- `ip_output_if`, with the identification `id`. -/
def ipOutputIf (netif : Netif) (id : ℕ) (k : Packet) : Option (Except ErrT Sent) :=
  match k.chain with
  | [] => none
  | p :: _ =>
    -- `LWIP_ASSERT("p->ref == 1", p->ref == 1)`
    if p.ref ≠ 1 then none
    else (pbufHeader k.chain 20).bind fun (failed, c) =>
      if failed ≠ 0 then some (.error .buf)
      else
        let chksum := k.chksumInline netif (totLen c) id
        (writeHead (k.ipHdr netif (totLen c) id chksum) c).map fun c =>
          .ok (if netif.mtu ≠ 0 ∧ totLen c > netif.mtu then .frag c else .output c)

/-! ### Checksums that verify -/

variable {outside : ℕ → UInt8} {netif : Netif} {k : Packet} {sent : Sent}
  {p q : Pbuf} {c ps : List Pbuf} {l rest front : List UInt8} {i id x n : ℕ}

@[simp] theorem netWord_length (x : ℕ) : (netWord x).length = 2 := rfl

@[simp] theorem memWord_length (x : ℕ) : (memWord x).length = 2 := rfl

theorem value_memWord (h : n < 65536) : value (memWord n) = n := by
  have hlow : (UInt8.ofNat (n % 256)).toNat = n % 256 := by
    rw [UInt8.toNat_ofNat_of_lt' (Nat.mod_lt n (by decide))]
  have hhigh : (UInt8.ofNat (n / 256)).toNat = n / 256 := by
    rw [UInt8.toNat_ofNat_of_lt' (by change n / 256 < 256; omega)]
  rw [memWord, value_cons, value_cons, value_nil, hlow, hhigh]
  omega

/-- A checksum is added to the sum of the bytes around it. -/
theorem residue_value_memWord (back : List UInt8) (hfront : front.length % 2 = 0) (hn : n < 65536)
    (x : ℕ) :
    residue (value (front ++ (memWord n ++ back)) + x) =
      residue (value (front ++ (memWord 0 ++ back)) + x + n) := by
  have hsplit : ∀ m < 65536, residue (value (front ++ (memWord m ++ back))) =
      residue (value front + value back + m) := by
    intro m hm
    have hword : (memWord m).length % 2 = 0 := by rw [memWord_length]
    have hback : residue (value (memWord m ++ back)) = residue (m + value back) := by
      rw [residue_value_append hword, value_memWord hm]
    rw [residue_value_append hfront, Nat.add_comm, ← residue_add, hback, residue_add]
    congr 1
    omega
  calc residue (value (front ++ (memWord n ++ back)) + x)
      = residue (value front + value back + n + x) := by
        rw [← residue_add, hsplit n hn, residue_add]
    _ = residue (value front + value back + 0 + (x + n)) := by
        congr 1
        omega
    _ = residue (value (front ++ (memWord 0 ++ back)) + (x + n)) := by
        rw [← residue_add, ← hsplit 0 (by decide), residue_add]
    _ = residue (value (front ++ (memWord 0 ++ back)) + x + n) := by rw [Nat.add_assoc]

/-- The checksum of a header verifies. -/
theorem verifies_inetChksum (odd : Bool) (back : List UInt8) (hfront : front.length % 2 = 0)
    (hlen : (front ++ (memWord 0 ++ back)).length < 2 ^ 16) :
    Verifies (front ++ (memWord (inetChksum odd (front ++ (memWord 0 ++ back))) ++ back)) := by
  have hlt : inetChksum odd (front ++ (memWord 0 ++ back)) < 65536 := by
    rw [inetChksum_eq hlen]
    omega
  have hsum := residue_value_memWord back hfront hlt 0
  rw [Nat.add_zero, Nat.add_zero] at hsum
  rw [verifies_iff, hsum]
  exact residue_complement (.inl (inetChksum_eq hlen))

/-! ### What is sent -/

theorem Packet.ipHdr_length (k : Packet) (netif : Netif) (x id n : ℕ) :
    (k.ipHdr netif x id n).length = 20 := rfl

theorem wordSum_netWord (x : ℕ) (l : List UInt8) : wordSum (netWord x ++ l) = htons x + wordSum l := by
  have hword : (UInt8.ofNat (x / 256)).toNat + 256 * (UInt8.ofNat (x % 256)).toNat = htons x := by
    rw [UInt8.toNat_ofNat', UInt8.toNat_ofNat', htons, swap]
    omega
  rw [← hword]
  rfl

theorem wordSum_addrBytes (a : IpAddr) (l : List UInt8) :
    wordSum (addrBytes a ++ l) = addrSum a + wordSum l := by
  rw [addrBytes, List.append_assoc, wordSum_netWord, wordSum_netWord, addrSum, Nat.add_assoc]

/-- The fields add up to the words of the header without its checksum. -/
theorem Packet.chkSum_eq (k : Packet) (netif : Netif) (x id : ℕ) :
    k.chkSum netif x id = wordSum (k.ipHdr netif x id 0) := by
  have haddrs : wordSum (addrBytes (k.hdrSrc netif) ++ addrBytes k.dest) =
      addrSum (k.hdrSrc netif) + addrSum k.dest := by
    have hdest := wordSum_addrBytes k.dest []
    rw [List.append_nil] at hdest
    rw [wordSum_addrBytes, hdest, wordSum, Nat.add_zero]
  have hbehind : wordSum ([0, 0, k.ttl, k.proto] ++ (memWord 0 ++
      (addrBytes (k.hdrSrc netif) ++ addrBytes k.dest))) =
      k.ttl.toNat + 256 * k.proto.toNat + (addrSum (k.hdrSrc netif) + addrSum k.dest) := by
    rw [← haddrs]
    simp [wordSum, memWord]
  have hfront : wordSum (k.ipHdr netif x id 0) = 0x45 + 256 * k.tos.toNat + (htons x + (htons id +
      wordSum ([0, 0, k.ttl, k.proto] ++ (memWord 0 ++
        (addrBytes (k.hdrSrc netif) ++ addrBytes k.dest))))) := by
    rw [← wordSum_netWord id, ← wordSum_netWord x]
    rfl
  rw [hfront, hbehind, Packet.chkSum, lwipMakeU16, lwipMakeU16]
  change _ + _ + (256 * k.tos.toNat + 0x45) + _ + _ + _ = _
  omega

/-- The checksum that is added up field by field is that of the general routine, wherever the header
lies. -/
theorem Packet.chksumInline_eq (k : Packet) (netif : Netif) (odd : Bool) (x id : ℕ) :
    k.chksumInline netif x id = inetChksum odd (k.ipHdr netif x id 0) := by
  have hlen : (k.ipHdr netif x id 0).length < 2 ^ 16 := by
    change 20 < 2 ^ 16
    decide
  have hlt : k.chkSum netif x id < 2 ^ 31 := by
    rw [k.chkSum_eq]
    exact wordSum_lt hlen
  have hfold : fold (fold (k.chkSum netif x id)) = residue (value (k.ipHdr netif x id 0)) := by
    rw [fold_fold (by omega), k.chkSum_eq, residue_wordSum]
  rw [inetChksum_eq hlen, ← hfold, Packet.chksumInline, fold, fold]
  -- after the first carry the sum is below 2^17, and the second one leaves the high word alone
  omega

/-- The header with its checksum verifies. -/
theorem Packet.ipHdr_verifies (k : Packet) (netif : Netif) (x id : ℕ) :
    Verifies (k.ipHdr netif x id (k.chksumInline netif x id)) := by
  have hfront : ([0x45, k.tos] ++ netWord x ++ netWord id ++ [0, 0, k.ttl, k.proto]).length % 2 = 0 := by
    simp
  have hver := verifies_inetChksum false (addrBytes (k.hdrSrc netif) ++ addrBytes k.dest) hfront
    (by simp [addrBytes])
  rw [k.chksumInline_eq netif false]
  simpa only [Packet.ipHdr, List.append_assoc] using hver

/-- The lengths of a packet that is sent are what it has in bytes, the header in front of what
`ip_output_if` was given. -/
def Sent.Sound (sent : Sent) (k : Packet) (netif : Netif) (id : ℕ) : Prop :=
  WellFormed sent.chain ∧ ∃ n,
    bytes sent.chain = k.ipHdr netif (bytes sent.chain).length id n ++ bytes k.chain ∧
      Verifies (k.ipHdr netif (bytes sent.chain).length id n)

/-- What `ip_output_if` sends, with the room for its header in the first pbuf. -/
theorem ipOutputIf_ok (h : ipOutputIf netif id k = some (.ok sent)) : ∃ p ps q r,
    k.chain = p :: ps ∧ Shown 20 p q ∧ sent.chain = r :: ps ∧
      writeHead (k.ipHdr netif q.totLen id (k.chksumInline netif q.totLen id)) (q :: ps) =
        some (r :: ps) ∧
      sent = if netif.mtu ≠ 0 ∧ totLen (r :: ps) > netif.mtu then .frag (r :: ps)
        else .output (r :: ps) := by
  rw [ipOutputIf] at h
  split at h
  · cases h
  rename_i p ps hchain
  split at h
  · cases h
  obtain ⟨⟨failed, c⟩, hshow, h⟩ := Option.bind_eq_some_iff.mp h
  dsimp only at h
  split at h
  · cases h
  rename_i hfailed
  obtain ⟨c', hwrite, h⟩ := Option.map_eq_some_iff.mp h
  rw [hchain, not_not.mp hfailed] at hshow
  obtain ⟨q, rfl, hshown⟩ := pbufHeader_shown (by decide) hshow
  obtain ⟨r, rfl, -⟩ := writeHead_eq hwrite
  cases h
  refine ⟨p, ps, q, r, hchain, hshown, ?_, hwrite, rfl⟩
  split <;> rfl

/-- As long as the total length fits in 16 bits, it is right in the header. -/
theorem ipOutputIf_bytes (hwf : WellFormed k.chain) (hfits : totLen k.chain + 20 < 2 ^ 16)
    (h : ipOutputIf netif id k = some (.ok sent)) :
    WellFormed sent.chain ∧ totLen sent.chain = totLen k.chain + 20 ∧
      (∃ r rs, sent.chain = r :: rs ∧ 20 ≤ r.len) ∧
      bytes sent.chain = k.ipHdr netif (totLen k.chain + 20) id
        (k.chksumInline netif (totLen k.chain + 20) id) ++ bytes k.chain := by
  obtain ⟨p, ps, q, r, hchain, hshown, hsent, hwrite, -⟩ := ipOutputIf_ok h
  rw [hchain] at hwf hfits
  obtain ⟨hqwf, htot, -, hdrop⟩ := hshown.spec hwf hfits
  obtain ⟨hrwf, hrtot, hbytes⟩ := writeHead_spec hqwf hwrite
  have hlen : totLen (p :: ps) + 20 = q.totLen := htot.symm
  have hroom : 20 ≤ r.len := by
    obtain ⟨r', hr, hle, -, hrlen, -⟩ := writeHead_eq hwrite
    cases hr
    rw [hrlen]
    exact hle
  rw [hsent, hchain, hlen]
  refine ⟨hrwf, hrtot, ⟨r, ps, rfl, hroom⟩, ?_⟩
  rw [hbytes, Packet.ipHdr_length, hdrop]

/-- As long as the total length fits in 16 bits, what is sent is sound. -/
theorem ipOutputIf_sound (hwf : WellFormed k.chain) (hfits : totLen k.chain + 20 < 2 ^ 16)
    (h : ipOutputIf netif id k = some (.ok sent)) : sent.Sound k netif id := by
  obtain ⟨hswf, htot, -, hbytes⟩ := ipOutputIf_bytes hwf hfits h
  have hlen : (bytes sent.chain).length = totLen k.chain + 20 := hswf.bytes_length.trans htot
  rw [Sent.Sound, hlen]
  exact ⟨hswf, _, hbytes, k.ipHdr_verifies netif _ id⟩

/-- A packet with room for the header is sent, and its total length wraps in 16 bits. -/
theorem ipOutputIf_wraps (hchain : k.chain = p :: ps) (href : p.ref = 1) (htype : p.type = .ram)
    (hroom : 20 ≤ p.payload) (hlen : p.len + 20 < 2 ^ 16) : ∃ sent,
      ipOutputIf netif id k = some (.ok sent) ∧ totLen sent.chain = u16 (p.totLen + 20) ∧
        (bytes sent.chain).length = (bytes k.chain).length + 20 ∧
        sent = if netif.mtu ≠ 0 ∧ totLen sent.chain > netif.mtu then .frag sent.chain
          else .output sent.chain := by
  obtain ⟨q, hshow, hshown⟩ := pbufHeader_shows ps (by decide : 0 < 20) hroom htype
  have hqlen : q.len = p.len + 20 := by
    rw [hshown.len]
    simp only [u16, wrapU]
    omega
  have hhdr : ∀ n, (k.ipHdr netif q.totLen id n).length ≤ q.len := by
    intro n
    rw [Packet.ipHdr_length]
    omega
  obtain ⟨c, hwrite⟩ := writeHead_isSome ps (hhdr (k.chksumInline netif q.totLen id))
  obtain ⟨r, rfl, -, hrtot, hrlen, -⟩ := writeHead_eq hwrite
  refine ⟨if netif.mtu ≠ 0 ∧ totLen (r :: ps) > netif.mtu then .frag (r :: ps)
    else .output (r :: ps), ?_, ?_⟩
  · have hshow' : pbufHeader (p :: ps) 20 = some (0, q :: ps) := hshow
    have hwrite' : writeHead (k.ipHdr netif (totLen (q :: ps)) id
        (k.chksumInline netif (totLen (q :: ps)) id)) (q :: ps) = some (r :: ps) := hwrite
    simp only [ipOutputIf, hchain, href, hshow', Option.bind_some, ne_eq, not_true_eq_false,
      if_false, hwrite', Option.map_some]
  · have hsent : (if netif.mtu ≠ 0 ∧ totLen (r :: ps) > netif.mtu then Sent.frag (r :: ps)
        else .output (r :: ps)).chain = r :: ps := by split <;> rfl
    rw [hsent, hchain, bytes_cons, bytes_cons, List.length_append, List.length_append,
      Pbuf.data_length, Pbuf.data_length]
    refine ⟨?_, by omega, rfl⟩
    change r.totLen = _
    rw [hrtot, hshown.totLen]
    rfl

end QuietLwip.Ip
