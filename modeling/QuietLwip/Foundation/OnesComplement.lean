import Mathlib.Data.Nat.Digits.Lemmas
import Mathlib.Tactic

/-!
# Sums in ones' complement arithmetic

The Internet checksum adds 16-bit words and puts every carry back in at the low end. What comes out
is the residue of the sum modulo 65535, where a sum that is not 0 has the residue 65535 instead of
0. Because 256 squared is 1 modulo 65535, the bytes of a buffer can be read as one number in base
256, and a buffer in pieces is a number in pieces.
-/

namespace QuietLwip.OnesComplement

variable {x y r : ℕ} {a b : UInt8} {l l' : List UInt8}

/-- The residue modulo 65535 that is 0 for 0 only. -/
def residue (x : ℕ) : ℕ := if x = 0 then 0 else (x - 1) % 65535 + 1

@[simp] theorem residue_zero : residue 0 = 0 := rfl

theorem residue_le (x : ℕ) : residue x ≤ 65535 := by
  rw [residue]
  split <;> omega

theorem residue_eq_zero : residue x = 0 ↔ x = 0 := by
  rw [residue]
  split <;> omega

theorem residue_modEq (x : ℕ) : residue x ≡ x [MOD 65535] := by
  simp only [residue, Nat.ModEq]
  split <;> omega

/-- The residue is the only small number that is congruent and 0 for 0 only. -/
theorem eq_residue (hle : r ≤ 65535) (hmod : r ≡ x [MOD 65535]) (hzero : r = 0 ↔ x = 0) :
    r = residue x := by
  simp only [residue, Nat.ModEq] at *
  split <;> omega

theorem residue_congr (hmod : x ≡ y [MOD 65535]) (hzero : x = 0 ↔ y = 0) : residue x = residue y :=
  eq_residue (residue_le x) ((residue_modEq x).trans hmod) (residue_eq_zero.trans hzero)

/-- A sum may be reduced on the way. -/
theorem residue_add (x y : ℕ) : residue (residue x + y) = residue (x + y) := by
  refine residue_congr ((residue_modEq x).add_right y) ?_
  rw [Nat.add_eq_zero_iff, residue_eq_zero, Nat.add_eq_zero_iff]

theorem residue_mul (x y : ℕ) : residue (x * residue y) = residue (x * y) := by
  refine residue_congr ((residue_modEq y).mul_left x) ?_
  rw [Nat.mul_eq_zero, residue_eq_zero, Nat.mul_eq_zero]

/-- The sum that is all ones: its words add up to the complement of 0. -/
theorem residue_eq_top : residue x = 65535 ↔ x ≠ 0 ∧ 65535 ∣ x := by
  rw [residue, Nat.dvd_iff_mod_eq_zero]
  split <;> omega

/-- A sum and what it lacks to all ones, or all ones in place of the complement 0. -/
theorem residue_complement (h : y = 0xffff - residue x ∨ y = 0xffff ∧ residue x = 0xffff) :
    residue (x + y) = 0xffff := by
  have hle := residue_le x
  have hzero := residue_eq_zero (x := x)
  have hmod := residue_modEq x
  rw [residue_eq_top, Nat.dvd_iff_mod_eq_zero]
  simp only [Nat.ModEq] at hmod
  omega

/-! ### Carries -/

/-- The carry is put back in. -/
def fold (x : ℕ) : ℕ := x / 65536 + x % 65536

theorem fold_modEq (x : ℕ) : fold x ≡ x [MOD 65535] := by
  simp only [fold, Nat.ModEq]
  omega

theorem fold_eq_zero : fold x = 0 ↔ x = 0 := by
  rw [fold]
  omega

theorem residue_fold (x : ℕ) : residue (fold x) = residue x :=
  residue_congr (fold_modEq x) fold_eq_zero

theorem fold_eq_residue (h : x ≤ 0x1fffe) : fold x = residue x := by
  refine eq_residue ?_ (fold_modEq x) fold_eq_zero
  rw [fold]
  omega

/-- Two carries are enough for a sum of 32 bits. -/
theorem fold_fold (h : x < 2 ^ 32) : fold (fold x) = residue x := by
  have hle : fold x ≤ 0x1fffe := by
    rw [fold]
    omega
  rw [fold_eq_residue hle, residue_fold]

/-- The two bytes of a word change places. -/
def swap (x : ℕ) : ℕ := x % 256 * 256 + x / 256 % 256

theorem swap_eq_residue (h : x ≤ 65535) : swap x = residue (256 * x) := by
  refine eq_residue ?_ ?_ ?_
  · rw [swap]
    omega
  · have hcarry : 256 * x = swap x + 65535 * (x / 256) := by
      rw [swap]
      omega
    rw [hcarry, Nat.ModEq, Nat.add_mul_mod_self_left]
  · rw [swap]
    omega

/-- Swapping twice is nothing. -/
theorem residue_swap_swap (x : ℕ) : residue (256 * (256 * x)) = residue x := by
  refine residue_congr ?_ (by omega)
  simp only [Nat.ModEq]
  omega

/-! ### Buffers -/

/-- The bytes as a number, the first one least significant. -/
def value (l : List UInt8) : ℕ := Nat.ofDigits 256 (l.map UInt8.toNat)

@[simp] theorem value_nil : value [] = 0 := rfl

@[simp] theorem value_cons (a : UInt8) (l : List UInt8) : value (a :: l) = a.toNat + 256 * value l := by
  simp [value, Nat.ofDigits_cons]

theorem value_append (l l' : List UInt8) :
    value (l ++ l') = value l + 256 ^ l.length * value l' := by
  simp [value, Nat.ofDigits_append]

/-- A buffer behind one with an even number of bytes. -/
theorem residue_value_append (h : l.length % 2 = 0) :
    residue (value (l ++ l')) = residue (value l + value l') := by
  obtain ⟨k, hk⟩ : ∃ k, l.length = 2 * k := ⟨l.length / 2, by omega⟩
  have hpow : 256 ^ l.length ≡ 1 [MOD 65535] := by
    rw [hk, pow_mul]
    calc (256 ^ 2) ^ k ≡ 1 ^ k [MOD 65535] := Nat.ModEq.pow k (by decide)
      _ = 1 := one_pow k
  rw [value_append]
  refine residue_congr ?_ (by simp)
  calc value l + 256 ^ l.length * value l'
      ≡ value l + 1 * value l' [MOD 65535] := (hpow.mul_right _).add_left _
    _ = value l + value l' := by rw [one_mul]

/-- A buffer behind one with an odd number of bytes. -/
theorem residue_value_append_odd (h : l.length % 2 = 1) :
    residue (value (l ++ l')) = residue (value l + 256 * value l') := by
  obtain ⟨k, hk⟩ : ∃ k, l.length = 2 * k + 1 := ⟨l.length / 2, by omega⟩
  have hpow : 256 ^ l.length ≡ 256 [MOD 65535] := by
    rw [hk, pow_succ, pow_mul]
    calc (256 ^ 2) ^ k * 256 ≡ 1 ^ k * 256 [MOD 65535] :=
          (Nat.ModEq.pow k (by decide)).mul_right _
      _ = 256 := by rw [one_pow, one_mul]
  rw [value_append]
  refine residue_congr ((hpow.mul_right _).add_left _) ?_
  simp

/-- The sum of the words, the first byte of each least significant; an odd byte at the end is a
word of its own. -/
def wordSum : List UInt8 → ℕ
  | [] => 0
  | [a] => a.toNat
  | a :: b :: l => a.toNat + 256 * b.toNat + wordSum l

theorem residue_wordSum (l : List UInt8) : residue (wordSum l) = residue (value l) := by
  refine residue_congr ?_ ?_
  · induction l using wordSum.induct with
    | case1 => rfl
    | case2 a => simp [wordSum, Nat.ModEq]
    | case3 a b l ih =>
      simp only [wordSum, value_cons, Nat.ModEq] at ih ⊢
      omega
  · induction l using wordSum.induct with
    | case1 => rfl
    | case2 a => simp [wordSum]
    | case3 a b l ih =>
      simp only [wordSum, value_cons]
      omega

/-- Each word has 16 bits. -/
theorem wordSum_le (l : List UInt8) : wordSum l ≤ 65535 * ((l.length + 1) / 2) := by
  induction l using wordSum.induct with
  | case1 => exact Nat.zero_le _
  | case2 a =>
    have := a.toNat_lt
    simp only [wordSum, List.length_cons, List.length_nil]
    omega
  | case3 a b l ih =>
    have := a.toNat_lt
    have := b.toNat_lt
    simp only [wordSum, List.length_cons]
    omega

/-- The sum of the words in network order. -/
def netSum : List UInt8 → ℕ
  | [] => 0
  | [a] => 256 * a.toNat
  | a :: b :: l => 256 * a.toNat + b.toNat + netSum l

/-- Addition of two words with the carry put back in. -/
def onesAdd (x y : ℕ) : ℕ := if 65535 < x + y then x + y - 65535 else x + y

/-- The ones' complement sum of the words in network order. -/
def onesSum : List UInt8 → ℕ
  | [] => 0
  | [a] => 256 * a.toNat
  | a :: b :: l => onesAdd (256 * a.toNat + b.toNat) (onesSum l)

theorem onesAdd_eq (hx : x ≤ 65535) (hy : y ≤ 65535) : onesAdd x y = residue (x + y) := by
  simp only [onesAdd, residue]
  split <;> split <;> omega

theorem onesSum_eq (l : List UInt8) : onesSum l = residue (netSum l) := by
  induction l using netSum.induct with
  | case1 => rfl
  | case2 a =>
    have ha := a.toNat_lt
    have hadd := onesAdd_eq (show 256 * a.toNat ≤ 65535 by omega) (Nat.zero_le 65535)
    rw [onesAdd, if_neg (by omega)] at hadd
    exact hadd
  | case3 a b l ih =>
    have ha := a.toNat_lt
    have hb := b.toNat_lt
    rw [onesSum, ih, onesAdd_eq (by omega) (residue_le _), netSum, Nat.add_comm, residue_add,
      Nat.add_comm]

/-- The checksum of the bytes verifies: their words in network order add up, in ones' complement,
to the complement of 0. -/
def Verifies (l : List UInt8) : Prop := netSum l ≠ 0 ∧ 65535 ∣ netSum l

theorem netSum_eq_zero (l : List UInt8) : netSum l = 0 ↔ value l = 0 := by
  induction l using netSum.induct with
  | case1 => rfl
  | case2 a => simp [netSum]
  | case3 a b l ih => simp [netSum, ih, and_assoc]

theorem netSum_modEq (l : List UInt8) : netSum l ≡ 256 * value l [MOD 65535] := by
  induction l using netSum.induct with
  | case1 => rfl
  | case2 a => simp [netSum, Nat.ModEq]
  | case3 a b l ih =>
    simp only [netSum, value_cons, Nat.ModEq] at ih ⊢
    omega

/-- In the other order of the bytes, the sum has its bytes in the other order. -/
theorem onesSum_eq_swap (l : List UInt8) : onesSum l = swap (residue (value l)) := by
  rw [onesSum_eq, swap_eq_residue (residue_le _), residue_mul]
  apply residue_congr (netSum_modEq l)
  rw [netSum_eq_zero, Nat.mul_eq_zero, or_iff_right (by decide)]

/-- The order of the bytes in the words does not matter to it. -/
theorem verifies_iff (l : List UInt8) : Verifies l ↔ residue (value l) = 65535 := by
  rw [residue_eq_top, Verifies, ne_eq, netSum_eq_zero, ne_eq]
  refine and_congr_right fun _ => ?_
  rw [(netSum_modEq l).dvd_iff (dvd_refl 65535)]
  exact (Nat.Coprime.dvd_mul_left (by decide))

end QuietLwip.OnesComplement
