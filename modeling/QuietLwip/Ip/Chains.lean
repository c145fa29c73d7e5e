import QuietLwip.Ip.Algorithms
import QuietLwip.Ip.Output

/-!
# The checksum of a chain

`inet_chksum_pbuf` and `inet_chksum_pseudo` with accumulators of 32 bits, for payloads at any
addresses and of any lengths. The sum is swapped behind each pbuf of odd length, and back at the
end, so the checksum is that of the bytes in one piece.
-/

namespace QuietLwip.Ip

open OnesComplement Buffers

/-- What the checksum functions read of a pbuf: the bytes of the payload, and where they lie. -/
structure Payload where
  addr : ℕ
  data : List UInt8
  lenLt : data.length < 2 ^ 16

/-- The bytes of the chain. -/
def payloadBytes (p : List Payload) : List UInt8 := p.flatMap Payload.data

namespace Sums

/-- `inet_chksum`. -/
def inetChksum (addr : ℕ) (data : List UInt8) : UInt16 := ~~~lwipStandardChksum2 addr data

/-- The loop over the pbufs. -/
def pbufLoop : List Payload → UInt32 → Bool → UInt32 × Bool
  | [], acc, swapped => (acc, swapped)
  | q :: qs, acc, swapped =>
    let acc := foldU32T (acc + (lwipStandardChksum2 q.addr q.data).toUInt32)
    if q.data.length % 2 ≠ 0 then pbufLoop qs (swapBytesInWord acc) (!swapped)
    else pbufLoop qs acc swapped

/-- The sum of the chain, swapped back. -/
def pbufSum (p : List Payload) : UInt32 :=
  let (acc, swapped) := pbufLoop p 0 false
  if swapped then swapBytesInWord acc else acc

/-- `(u16_t)~(acc & 0xffffUL)`. -/
def complement (acc : UInt32) : UInt16 :=
  let low := acc &&& 0xffff
  (~~~low).toUInt16

/-- `inet_chksum_pbuf`. -/
def inetChksumPbuf (p : List Payload) : UInt16 := complement (pbufSum p)

/-- `ip4_addr_get_u32`: the address as the machine reads its bytes. -/
def ip4AddrGetU32 (a : IpAddr) : UInt32 :=
  memU32 (UInt8.ofNat (a.toNat / 2 ^ 24)) (UInt8.ofNat (a.toNat / 2 ^ 16 % 256))
    (UInt8.ofNat (a.toNat / 2 ^ 8 % 256)) (UInt8.ofNat (a.toNat % 256))

/-- The two words of an address are added. -/
def addAddr (acc addr : UInt32) : UInt32 :=
  let acc := acc + (addr &&& 0xffff)
  acc + (addr >>> 16 &&& 0xffff)

/-- `inet_chksum_pseudo`. -/
def inetChksumPseudo (p : List Payload) (src dest : IpAddr) (proto : UInt8) (protoLen : UInt16) :
    UInt16 :=
  let acc := addAddr (addAddr (pbufSum p) (ip4AddrGetU32 src)) (ip4AddrGetU32 dest)
  let acc := acc + (lwipHtons proto.toUInt16).toUInt32
  let acc := acc + (lwipHtons protoLen).toUInt32
  complement (foldU32T (foldU32T acc))

end Sums

/-- The pseudo header. -/
def pseudoHeader (src dest : IpAddr) (proto : UInt8) (protoLen : UInt16) : List UInt8 :=
  addrBytes src ++ addrBytes dest ++ [0, proto] ++ netWord protoLen.toNat

namespace Sums

variable {p : List Payload} {src dest : IpAddr} {proto : UInt8} {protoLen : UInt16}

/-! ### What the functions return -/

theorem inetChksum_toNat {data : List UInt8} (addr : ℕ) (h : data.length < 2 ^ 16) :
    (inetChksum addr data).toNat = 0xffff - residue (value data) := by
  rw [inetChksum, UInt16.toNat_not, lwipStandardChksum2_eq addr h]
  rfl

theorem complement_toNat {acc : UInt32} (h : acc.toNat ≤ 0xffff) :
    (complement acc).toNat = 0xffff - acc.toNat := by
  have hlow : (acc &&& 0xffff).toNat = acc.toNat := by
    have hand := Nat.and_two_pow_sub_one_eq_mod acc.toNat 16
    rw [Nat.mod_eq_of_lt (Nat.lt_succ_of_le h)] at hand
    rw [UInt32.toNat_and]
    exact hand
  rw [complement, UInt32.toNat_toUInt16, UInt32.toNat_not, hlow]
  change (4294967295 - acc.toNat) % 65536 = _
  omega

theorem pbufLoop_spec (p : List Payload) (front : List UInt8) (acc : UInt32)
    (hacc : acc.toNat = residue (offBy front * value front)) :
    (pbufLoop p acc (decide (front.length % 2 ≠ 0))).1.toNat =
        residue (offBy (front ++ payloadBytes p) * value (front ++ payloadBytes p)) ∧
      (pbufLoop p acc (decide (front.length % 2 ≠ 0))).2 =
        decide ((front ++ payloadBytes p).length % 2 ≠ 0) := by
  induction p generalizing front acc with
  | nil =>
    have hend : front ++ payloadBytes [] = front := List.append_nil front
    rw [hend]
    exact ⟨hacc, rfl⟩
  | cons q qs ih =>
    have hrest : front ++ payloadBytes (q :: qs) = (front ++ q.data) ++ payloadBytes qs := by
      rw [List.append_assoc]
      rfl
    have hnext : (foldU32T (acc + (lwipStandardChksum2 q.addr q.data).toUInt32)).toNat =
        residue (offBy front * value (front ++ q.data)) := by
      have h1 := residue_le (offBy front * value front)
      have h2 := residue_le (value q.data)
      rw [foldU32T_toNat, UInt32.toNat_add, UInt16.toNat_toUInt32, hacc,
        lwipStandardChksum2_eq q.addr q.lenLt, Nat.mod_eq_of_lt (by omega), fold_offBy]
    rw [pbufLoop, hrest]
    by_cases hodd : q.data.length % 2 = 0
    · obtain ⟨hoff, hflag⟩ := offBy_even front hodd
      rw [if_neg (not_not_intro hodd), ← hflag]
      apply ih (front ++ q.data)
      rw [hnext, hoff]
    · obtain ⟨hoff, hflag⟩ := swap_offBy front hodd
      rw [if_pos hodd, ← hflag]
      apply ih (front ++ q.data)
      rw [swapBytesInWord_toNat, hnext, hoff]

theorem pbufSum_toNat (p : List Payload) : (pbufSum p).toNat = residue (value (payloadBytes p)) := by
  obtain ⟨hsum, hflag⟩ := pbufLoop_spec p [] 0 rfl
  have hend := swap_offBy_end (payloadBytes p)
  have hstart : pbufLoop p 0 (decide (([] : List UInt8).length % 2 ≠ 0)) = pbufLoop p 0 false := rfl
  rw [hstart, List.nil_append] at hsum hflag
  have hswap : (pbufSum p).toNat = if (pbufLoop p 0 false).2 = true then
      swap (pbufLoop p 0 false).1.toNat else (pbufLoop p 0 false).1.toNat := by
    rw [← swapBytesInWord_toNat, ← apply_ite UInt32.toNat]
    rfl
  rw [hswap, hsum, hflag, hend]

theorem inetChksumPbuf_toNat (p : List Payload) :
    (inetChksumPbuf p).toNat = 0xffff - residue (value (payloadBytes p)) := by
  have hsum := pbufSum_toNat p
  have hle := residue_le (value (payloadBytes p))
  rw [inetChksumPbuf, complement_toNat (by omega), hsum]

theorem toNat_ofNat_mod (n : ℕ) : (UInt8.ofNat (n % 256)).toNat = n % 256 :=
  UInt8.toNat_ofNat_of_lt' (Nat.mod_lt n (by decide))

theorem ip4AddrGetU32_toNat (a : IpAddr) : (ip4AddrGetU32 a).toNat =
    htons (a.toNat / 65536) + 65536 * htons (a.toNat % 65536) := by
  have hlt := a.isLt
  have htop : (UInt8.ofNat (a.toNat / 2 ^ 24)).toNat = a.toNat / 2 ^ 24 :=
    UInt8.toNat_ofNat_of_lt' (by change _ < 256; omega)
  rw [ip4AddrGetU32, memU32_toNat, htop, toNat_ofNat_mod, toNat_ofNat_mod, toNat_ofNat_mod]
  simp only [htons, swap]
  omega

theorem htons_lt (x : ℕ) : htons x < 65536 := by
  rw [htons, swap]
  omega

theorem addAddr_toNat (acc : UInt32) (a : IpAddr) (h : acc.toNat < 2 ^ 31) :
    (addAddr acc (ip4AddrGetU32 a)).toNat = acc.toNat + addrSum a := by
  have hlow : (ip4AddrGetU32 a &&& 0xffff).toNat = htons (a.toNat / 65536) := by
    have hand := Nat.and_two_pow_sub_one_eq_mod (ip4AddrGetU32 a).toNat 16
    rw [UInt32.toNat_and]
    refine hand.trans ?_
    have hlt := htons_lt (a.toNat / 65536)
    rw [ip4AddrGetU32_toNat]
    omega
  have hhigh : (ip4AddrGetU32 a >>> 16 &&& 0xffff).toNat = htons (a.toNat % 65536) := by
    have hand := Nat.and_two_pow_sub_one_eq_mod ((ip4AddrGetU32 a).toNat >>> 16) 16
    rw [UInt32.toNat_and, UInt32.toNat_shiftRight]
    refine hand.trans ?_
    have hlt := htons_lt (a.toNat % 65536)
    have hlt' := htons_lt (a.toNat / 65536)
    rw [Nat.shiftRight_eq_div_pow, ip4AddrGetU32_toNat]
    omega
  rw [addAddr, UInt32.toNat_add, UInt32.toNat_add, hlow, hhigh, addrSum]
  simp only [htons, swap]
  omega

theorem addrSum_le (a : IpAddr) : addrSum a ≤ 131070 := by
  simp only [addrSum, htons, swap]
  omega

theorem value_netWord {x : ℕ} (h : x < 65536) : value (netWord x) = htons x := by
  have hhigh : (UInt8.ofNat (x / 256)).toNat = x / 256 :=
    UInt8.toNat_ofNat_of_lt' (by change _ < 256; omega)
  rw [netWord, value_cons, value_cons, value_nil, htons, swap, hhigh, toNat_ofNat_mod]
  omega

theorem residue_netWord {x : ℕ} (h : x < 65536) (back : List UInt8) (y : ℕ) :
    residue (value (netWord x ++ back) + y) = residue (value back + (htons x + y)) := by
  have hlen : (netWord x).length = 2 := rfl
  have hword : (netWord x).length % 2 = 0 := by rw [hlen]
  rw [← residue_add, residue_value_append hword, residue_add, value_netWord h, Nat.add_assoc,
    Nat.add_left_comm]

theorem residue_addrBytes (a : IpAddr) (back : List UInt8) (y : ℕ) :
    residue (value (addrBytes a ++ back) + y) = residue (value back + (addrSum a + y)) := by
  have hlt := a.isLt
  rw [addrBytes, List.append_assoc, residue_netWord (by omega),
    residue_netWord (Nat.mod_lt _ (by decide)), addrSum, Nat.add_left_comm (htons _),
    Nat.add_assoc (htons _)]

/-- The pseudo header adds its words to the sum. -/
theorem residue_pseudoHeader (src dest : IpAddr) (proto : UInt8) (protoLen : UInt16)
    (back : List UInt8) : residue (value (pseudoHeader src dest proto protoLen ++ back)) =
      residue (value back + addrSum src + addrSum dest + htons proto.toNat +
        htons protoLen.toNat) := by
  have hproto : [0, proto] = netWord proto.toNat := by
    have hlt := proto.toNat_lt
    have hhigh : proto.toNat / 256 = 0 := by omega
    have hlow : proto.toNat % 256 = proto.toNat := Nat.mod_eq_of_lt hlt
    rw [netWord, hhigh, hlow, UInt8.ofNat_toNat]
    rfl
  rw [pseudoHeader, hproto]
  simp only [List.append_assoc]
  rw [← Nat.add_zero (value _), residue_addrBytes, residue_addrBytes,
    residue_netWord (lt_trans proto.toNat_lt (by decide)), residue_netWord protoLen.toNat_lt]
  congr 1
  omega

theorem inetChksumPseudo_toNat (p : List Payload) (src dest : IpAddr) (proto : UInt8)
    (protoLen : UInt16) : (inetChksumPseudo p src dest proto protoLen).toNat =
      0xffff - residue (value (pseudoHeader src dest proto protoLen ++ payloadBytes p)) := by
  have hsum := pbufSum_toNat p
  have hle := residue_le (value (payloadBytes p))
  have h1 := addrSum_le src
  have h2 := addrSum_le dest
  have h3 := htons_lt proto.toNat
  have h4 := htons_lt protoLen.toNat
  have hproto : (lwipHtons proto.toUInt16).toUInt32.toNat = htons proto.toNat := by
    rw [UInt16.toNat_toUInt32, lwipHtons_toNat, UInt8.toNat_toUInt16]
  have hlen : (lwipHtons protoLen).toUInt32.toNat = htons protoLen.toNat := by
    rw [UInt16.toNat_toUInt32, lwipHtons_toNat]
  have hsrc := addAddr_toNat (pbufSum p) src (by omega)
  have hdest := addAddr_toNat (addAddr (pbufSum p) (ip4AddrGetU32 src)) dest (by omega)
  have hacc : (addAddr (addAddr (pbufSum p) (ip4AddrGetU32 src)) (ip4AddrGetU32 dest) +
      (lwipHtons proto.toUInt16).toUInt32 + (lwipHtons protoLen).toUInt32).toNat =
      residue (value (payloadBytes p)) + addrSum src + addrSum dest + htons proto.toNat +
        htons protoLen.toNat := by
    rw [UInt32.toNat_add, UInt32.toNat_add, hproto, hlen, hdest, hsrc, hsum]
    omega
  have hfold := residue_pseudoHeader src dest proto protoLen (payloadBytes p)
  rw [Nat.add_assoc, Nat.add_assoc, Nat.add_assoc] at hfold hacc
  have hend : (foldU32T (foldU32T (addAddr (addAddr (pbufSum p) (ip4AddrGetU32 src))
      (ip4AddrGetU32 dest) + (lwipHtons proto.toUInt16).toUInt32 +
        (lwipHtons protoLen).toUInt32))).toNat =
      residue (value (pseudoHeader src dest proto protoLen ++ payloadBytes p)) := by
    rw [foldU32T_toNat, foldU32T_toNat, hacc, fold_fold (by omega), residue_add, hfold]
  have hres := residue_le (value (pseudoHeader src dest proto protoLen ++ payloadBytes p))
  rw [inetChksumPseudo, complement_toNat (by omega), hend]

/-! ### The sums of the other modules -/

theorem inetChksum_eq_nat {data : List UInt8} (addr : ℕ) (h : data.length < 2 ^ 16) :
    (inetChksum addr data).toNat = Ip.inetChksum (addr % 2 == 1) data := by
  rw [inetChksum_toNat addr h, Ip.inetChksum_eq h]

theorem data_lt (q : Pbuf) : q.data.length < 2 ^ 16 := by
  rw [Pbuf.data_length]
  exact q.lenLt

/-- The payload of a pbuf, at its address. -/
def payload (addr : Pbuf → ℕ) (q : Pbuf) : Payload := ⟨addr q, q.data, data_lt q⟩

theorem payloadBytes_payload (addr : Pbuf → ℕ) (c : List Pbuf) :
    payloadBytes (c.map (payload addr)) = bytes c := by
  rw [payloadBytes, bytes, List.flatMap_map]
  rfl

/-- The accumulators of 32 bits compute the sum without them. -/
theorem inetChksumPseudo_eq_nat (addr : Pbuf → ℕ) (c : List Pbuf) (src dest : IpAddr)
    (proto : UInt8) (protoLen : UInt16) :
    (inetChksumPseudo (c.map (payload addr)) src dest proto protoLen).toNat =
      Ip.inetChksumPseudo (fun q => addr q % 2 == 1) c src dest proto.toNat protoLen.toNat := by
  rw [inetChksumPseudo_toNat, payloadBytes_payload, residue_pseudoHeader,
    Ip.inetChksumPseudo_eq c (lt_trans proto.toNat_lt (by decide)) protoLen.toNat_lt]
  simp only [Nat.add_assoc]

/-! ### The checksum and its test -/

/-- What the header holds is the complement of the sum in network order. -/
theorem complement_onesSum {c : UInt16} {l : List UInt8} (h : c.toNat = 0xffff - residue (value l)) :
    (lwipHtons c).toNat = 0xffff - onesSum l := by
  have hle := residue_le (value l)
  rw [lwipHtons_toNat, h, onesSum_eq_swap, htons, swap, swap]
  omega

/-- A checksum in the memory. -/
def stored (c : UInt16) : List UInt8 := memWord c.toNat

/-- The checksum that is stored in its field, whose bytes were 0, completes the sum to all ones;
`x` is what is summed up besides. -/
theorem residue_stored {c : UInt16} {front : List UInt8} (back : List UInt8) {x : ℕ}
    (hfront : front.length % 2 = 0)
    (h : c.toNat = 0xffff - residue (value (front ++ (stored 0 ++ back)) + x)) :
    residue (value (front ++ (stored c ++ back)) + x) = 0xffff := by
  rw [stored, residue_value_memWord back hfront c.toNat_lt]
  exact residue_complement (.inl h)

/-- For a chain of any pbufs: the checksum is that of the bytes in one piece, which is the complement
of their ones' complement sum; this holds with the pseudo header too. Stored in a word of the data
that was 0, it makes the same sum verify. -/
theorem inetChksumPbuf_spec (p : List Payload) (src dest : IpAddr) (proto : UInt8)
    (protoLen : UInt16) :
    ((payloadBytes p).length ≤ 65535 → ∀ addr,
      inetChksumPbuf p = inetChksum addr (payloadBytes p)) ∧
    (lwipHtons (inetChksumPbuf p)).toNat = 0xffff - onesSum (payloadBytes p) ∧
    (lwipHtons (inetChksumPseudo p src dest proto protoLen)).toNat =
      0xffff - onesSum (pseudoHeader src dest proto protoLen ++ payloadBytes p) ∧
    ∀ front back, front.length % 2 = 0 → payloadBytes p = front ++ (stored 0 ++ back) →
      ∀ q, (payloadBytes q = front ++ (stored (inetChksumPbuf p) ++ back) →
          inetChksumPbuf q = 0) ∧
        (payloadBytes q = front ++ (stored (inetChksumPseudo p src dest proto protoLen) ++ back) →
          inetChksumPseudo q src dest proto protoLen = 0) := by
  have hpbuf := inetChksumPbuf_toNat p
  have hpseudo := inetChksumPseudo_toNat p src dest proto protoLen
  refine ⟨fun hlen addr => ?_, complement_onesSum hpbuf, complement_onesSum hpseudo,
    fun front back hfront hp q => ⟨fun hq => ?_, fun hq => ?_⟩⟩
  · apply UInt16.toNat_inj.mp
    rw [hpbuf, inetChksum_toNat addr (Nat.lt_succ_of_le hlen)]
  · apply UInt16.toNat_inj.mp
    rw [hp] at hpbuf
    have hsum := residue_stored (x := 0) back hfront hpbuf
    rw [Nat.add_zero] at hsum
    rw [inetChksumPbuf_toNat, hq, hsum]
    rfl
  · apply UInt16.toNat_inj.mp
    rw [residue_pseudoHeader, hp] at hpseudo
    simp only [Nat.add_assoc] at hpseudo
    have hsum := residue_stored back hfront hpseudo
    rw [inetChksumPseudo_toNat, residue_pseudoHeader, hq]
    simp only [Nat.add_assoc]
    rw [hsum]
    rfl

theorem splitFront_lt : ([1, 2, 0] : List UInt8).length < 2 ^ 16 := by decide

theorem splitBack_lt : ([0, 5] : List UInt8).length < 2 ^ 16 := by decide

/-- A word of zeros that lies in two pbufs. -/
def split : List Payload := [⟨1, [1, 2, 0], splitFront_lt⟩, ⟨3, [0, 5], splitBack_lt⟩]

theorem inetChksumPbuf_split : (payloadBytes split).length ≤ 65535 ∧
    inetChksumPbuf split = inetChksum 0 (payloadBytes split) :=
  ⟨by decide, (inetChksumPbuf_spec split 0 0 6 5).1 (by decide) 0⟩

end Sums

end QuietLwip.Ip
