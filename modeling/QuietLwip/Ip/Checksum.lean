import QuietLwip.Buffers.Chains
import QuietLwip.Foundation.OnesComplement
import QuietLwip.Ip.Address

/-!
# The Internet checksum

`inet_chksum.c` with its second algorithm on a little-endian machine: words are read as the memory
holds them, from an even address on, and the sum is swapped where that was not the first byte. What
comes out is the ones' complement sum of the bytes, wherever they lie and however they are split.
-/

namespace QuietLwip.Ip

open Word Buffers OnesComplement

/-- `lwip_standard_chksum`; `odd` says that the data begins at an odd address. A sum over the length
of a `u16_t` stays within 32 bits. -/
def lwipStandardChksum (odd : Bool) (data : List UInt8) : ℕ :=
  let sum := match odd, data with
    | true, b :: rest => 256 * b.toNat + wordSum rest
    | _, data => wordSum data
  let sum := fold (fold sum)
  if odd then swap sum else sum

/-- `inet_chksum`. -/
def inetChksum (odd : Bool) (data : List UInt8) : ℕ := 0xffff - lwipStandardChksum odd data

/-- The loop of `inet_chksum_pseudo` over the pbufs; `odd` says which ones have their payload at an
odd address. -/
def chksumLoop (odd : Pbuf → Bool) : List Pbuf → ℕ → Bool → ℕ × Bool
  | [], acc, swapped => (acc, swapped)
  | q :: qs, acc, swapped =>
    let acc := fold (acc + lwipStandardChksum (odd q) q.data)
    if q.len % 2 ≠ 0 then chksumLoop odd qs (swap acc) (!swapped)
    else chksumLoop odd qs acc swapped

/-- `inet_chksum_pbuf`. -/
def inetChksumPbuf (odd : Pbuf → Bool) (p : List Pbuf) : ℕ :=
  let (acc, swapped) := chksumLoop odd p 0 false
  let acc := if swapped then swap acc else acc
  0xffff - acc % 65536

/-- `htons`. -/
def htons (x : ℕ) : ℕ := swap x

/-- The two words of an address, as the memory holds them. -/
def addrSum (a : IpAddr) : ℕ := htons (a.toNat / 65536) + htons (a.toNat % 65536)

/-- `inet_chksum_pseudo`. -/
def inetChksumPseudo (odd : Pbuf → Bool) (p : List Pbuf) (src dest : IpAddr) (proto protoLen : ℕ) : ℕ :=
  let (acc, swapped) := chksumLoop odd p 0 false
  let acc := if swapped then swap acc else acc
  let acc := acc + addrSum src + addrSum dest + htons proto + htons protoLen
  0xffff - fold (fold acc)

/-! ### Sums of one buffer -/

variable {data : List UInt8} {odd : Bool} {src dest : IpAddr} {proto protoLen : ℕ}

theorem wordSum_lt (h : data.length < 2 ^ 16) : wordSum data < 2 ^ 31 := by
  have hle := wordSum_le data
  omega

/-- A first byte that is added as the last one of its word, in a sum that is swapped. -/
theorem residue_odd_first {sum : ℕ} {rest : List UInt8} (b : UInt8)
    (hsum : residue sum = residue (value rest)) :
    residue (256 * (sum + 256 * b.toNat)) = residue (value (b :: rest)) := by
  have hrw : residue (sum + 256 * b.toNat) = residue (value rest + 256 * b.toNat) := by
    rw [← residue_add, hsum, residue_add]
  rw [← residue_mul, hrw, residue_mul, value_cons]
  refine residue_congr ?_ (by omega)
  simp only [Nat.ModEq]
  omega

/-- Where the data begins does not matter. -/
theorem lwipStandardChksum_eq (h : data.length < 2 ^ 16) :
    lwipStandardChksum odd data = residue (value data) := by
  have hsum := wordSum_lt h
  cases odd with
  | false =>
    have hlt : wordSum data < 2 ^ 32 := by omega
    rw [← residue_wordSum, ← fold_fold hlt]
    rfl
  | true =>
    cases data with
    | nil => rfl
    | cons b rest =>
      have hb := b.toNat_lt
      have hrest : wordSum rest < 2 ^ 31 :=
        wordSum_lt (lt_of_le_of_lt (Nat.le_succ rest.length) h)
      have hlt : 256 * b.toNat + wordSum rest < 2 ^ 32 := by omega
      change swap (fold (fold (256 * b.toNat + wordSum rest))) = _
      rw [fold_fold hlt, swap_eq_residue (residue_le _), residue_mul, Nat.add_comm,
        residue_odd_first b (residue_wordSum rest)]

theorem inetChksum_eq (h : data.length < 2 ^ 16) :
    inetChksum odd data = 0xffff - residue (value data) := by
  rw [inetChksum, lwipStandardChksum_eq h]

/-- A header passes the test of `ip_input` when its checksum verifies. -/
theorem inetChksum_eq_zero (h : data.length < 2 ^ 16) : inetChksum odd data = 0 ↔ Verifies data := by
  have hle := residue_le (value data)
  rw [inetChksum_eq h, verifies_iff]
  omega

/-! ### Sums of a chain -/

/-- The factor by which the sum is off after a number of bytes. -/
def offBy (l : List UInt8) : ℕ := if l.length % 2 = 0 then 1 else 256

/-- One more pbuf, whether or not the sum is swapped. -/
theorem residue_offBy_append (l l' : List UInt8) :
    residue (offBy l * value (l ++ l')) = residue (offBy l * value l + value l') := by
  rw [offBy]
  split
  case isTrue h => rw [one_mul, one_mul, residue_value_append h]
  case isFalse h =>
    rw [← residue_mul, residue_value_append_odd (by omega), residue_mul, Nat.mul_add,
      Nat.add_comm (256 * value l), ← residue_add, residue_swap_swap, residue_add, Nat.add_comm]

/-- The sum of one more buffer is added. -/
theorem fold_offBy (front l : List UInt8) :
    fold (residue (offBy front * value front) + residue (value l)) =
      residue (offBy front * value (front ++ l)) := by
  have h1 := residue_le (offBy front * value front)
  have h2 := residue_le (value l)
  rw [fold_eq_residue (by omega), residue_add, Nat.add_comm, residue_add, Nat.add_comm,
    residue_offBy_append]

theorem offBy_even {l : List UInt8} (front : List UInt8) (h : l.length % 2 = 0) :
    offBy (front ++ l) = offBy front ∧
      decide ((front ++ l).length % 2 ≠ 0) = decide (front.length % 2 ≠ 0) := by
  have hsame : (front ++ l).length % 2 = front.length % 2 := by
    rw [List.length_append]
    omega
  rw [offBy, offBy, hsame]
  exact ⟨rfl, rfl⟩

/-- Behind a buffer of odd length the sum is off by the other factor. -/
theorem swap_offBy {l : List UInt8} (front : List UInt8) (h : l.length % 2 ≠ 0) :
    swap (residue (offBy front * value (front ++ l))) =
        residue (offBy (front ++ l) * value (front ++ l)) ∧
      decide ((front ++ l).length % 2 ≠ 0) = !decide (front.length % 2 ≠ 0) := by
  have hother : (front ++ l).length % 2 = 1 - front.length % 2 := by
    rw [List.length_append]
    omega
  rw [swap_eq_residue (residue_le _), residue_mul, offBy, offBy, hother]
  obtain hfront | hfront := Nat.mod_two_eq_zero_or_one front.length
  · rw [if_pos hfront, hfront, one_mul]
    exact ⟨rfl, rfl⟩
  · rw [if_neg (by omega), hfront, residue_swap_swap, if_pos rfl, one_mul]
    exact ⟨rfl, rfl⟩

/-- The swap at the end undoes the swaps on the way. -/
theorem swap_offBy_end (l : List UInt8) :
    (if decide (l.length % 2 ≠ 0) = true then swap (residue (offBy l * value l))
      else residue (offBy l * value l)) = residue (value l) := by
  by_cases h : l.length % 2 = 0
  · simp [h, offBy]
  · simp only [h, offBy, ne_eq, not_false_eq_true, decide_true, if_true, if_false]
    rw [swap_eq_residue (residue_le _), residue_mul, residue_swap_swap]

theorem chksumLoop_eq (odd : Pbuf → Bool) (c : List Pbuf) (front : List UInt8) :
    chksumLoop odd c (residue (offBy front * value front)) (decide (front.length % 2 ≠ 0)) =
      (residue (offBy (front ++ bytes c) * value (front ++ bytes c)),
        decide ((front ++ bytes c).length % 2 ≠ 0)) := by
  induction c generalizing front with
  | nil => simp [chksumLoop, bytes]
  | cons q qs ih =>
    have hlen : q.data.length = q.len := by
      have hmem := q.inMem
      rw [Pbuf.data, List.length_take, List.length_drop]
      omega
    have hlt : q.data.length < 2 ^ 16 := by
      rw [hlen]
      exact q.lenLt
    have hrest : front ++ bytes (q :: qs) = (front ++ q.data) ++ bytes qs := by
      rw [List.append_assoc]
      rfl
    rw [chksumLoop, lwipStandardChksum_eq hlt, fold_offBy, hrest, ← hlen]
    by_cases hodd : q.data.length % 2 = 0
    · obtain ⟨hoff, hflag⟩ := offBy_even front hodd
      rw [if_neg (not_not_intro hodd), ← hoff, ← hflag]
      exact ih (front ++ q.data)
    · obtain ⟨hoff, hflag⟩ := swap_offBy front hodd
      rw [if_pos hodd, hoff, ← hflag]
      exact ih (front ++ q.data)

/-- The sum over the pbufs of a chain is that of its bytes. -/
theorem chksumLoop_end (odd : Pbuf → Bool) (c : List Pbuf) :
    (if (chksumLoop odd c 0 false).2 = true then swap (chksumLoop odd c 0 false).1
      else (chksumLoop odd c 0 false).1) = residue (value (bytes c)) := by
  have hloop : chksumLoop odd c 0 false = (residue (offBy (bytes c) * value (bytes c)),
      decide ((bytes c).length % 2 ≠ 0)) := chksumLoop_eq odd c []
  rw [hloop]
  exact swap_offBy_end (bytes c)

/-- `inet_chksum_pbuf` is the checksum of the bytes of the chain. -/
theorem inetChksumPbuf_eq (odd : Pbuf → Bool) (c : List Pbuf) :
    inetChksumPbuf odd c = 0xffff - residue (value (bytes c)) := by
  have hle := residue_le (value (bytes c))
  rw [inetChksumPbuf]
  dsimp only
  rw [chksumLoop_end, Nat.mod_eq_of_lt (by omega)]

/-- The sum of a chain is that of its bytes. -/
theorem inetChksumPseudo_eq {odd : Pbuf → Bool} (c : List Pbuf) (hproto : proto < 65536)
    (hlen : protoLen < 65536) : inetChksumPseudo odd c src dest proto protoLen =
      0xffff - residue (value (bytes c) +
        (addrSum src + addrSum dest + htons proto + htons protoLen)) := by
  have hend := chksumLoop_end odd c
  have hswap : ∀ x < 65536, htons x ≤ 65535 := by
    intro x hx
    rw [htons, swap]
    omega
  have haddr : ∀ a : IpAddr, addrSum a ≤ 131070 := by
    intro a
    have hlt := a.isLt
    have h1 := hswap (a.toNat / 65536) (by omega)
    have h2 := hswap (a.toNat % 65536) (by omega)
    rw [addrSum]
    omega
  have h1 := haddr src
  have h2 := haddr dest
  have h3 := hswap proto hproto
  have h4 := hswap protoLen hlen
  have h5 := residue_le (value (bytes c))
  rw [inetChksumPseudo]
  dsimp only
  rw [hend, fold_fold (by omega)]
  simp only [Nat.add_assoc, residue_add]

end QuietLwip.Ip
