import Mathlib.Data.BitVec
import Mathlib.Tactic

/-!
# Serial numbers

The places of a stream are integers, and what is stored of a place is the place modulo `2 ^ 32`.
The sign of the difference of two serial numbers says which place comes first, as long as the
places are less than half of the number space apart.
-/

namespace QuietLwip.Serial

abbrev Seq := BitVec 32

/-- The distance from `b` to `a`, read as a signed number. -/
def dist (a b : Seq) : ℤ := (a - b).toInt

theorem place_add (p : ℤ) (n : ℕ) : (p : Seq) + (n : Seq) = ((p + n : ℤ) : Seq) := by
  rw [Int.cast_add, Int.cast_natCast]

theorem place_add_one (p : ℤ) : (p : Seq) + 1 = ((p + 1 : ℤ) : Seq) := by
  rw [Int.cast_add, Int.cast_one]

theorem place_sub_one (p : ℤ) : (p : Seq) - 1 = ((p - 1 : ℤ) : Seq) := by
  rw [Int.cast_sub, Int.cast_one]

theorem toInt_place {p : ℤ} (lo : -2147483648 ≤ p) (hi : p < 2147483648) :
    (p : Seq).toInt = p := by
  rw [BitVec.toInt_intCast]
  exact Int.bmod_eq_of_le (by omega) (by omega)

theorem dist_place {p q : ℤ} (lo : -2147483648 ≤ p - q) (hi : p - q < 2147483648) :
    dist (p : Seq) (q : Seq) = p - q := by
  rw [dist, ← Int.cast_sub]
  exact toInt_place lo hi

/-- Half of the number space further, the distance has the wrong sign. -/
theorem dist_half (q : ℤ) : dist ((q + 2147483648 : ℤ) : Seq) (q : Seq) = -2147483648 := by
  rw [dist, ← Int.cast_sub, add_sub_cancel_left]
  rfl

/-- The unsigned distance of two places less than the number space apart. -/
theorem toNat_sub_place {p q : ℤ} (lo : q ≤ p) (hi : p - q < 4294967296) :
    ((p : Seq) - (q : Seq)).toNat = (p - q).toNat := by
  obtain ⟨n, hn⟩ := Int.eq_ofNat_of_zero_le (sub_nonneg.mpr lo)
  rw [← Int.cast_sub, hn, Int.toNat_natCast, Int.cast_natCast, BitVec.natCast_eq_ofNat,
    BitVec.toNat_ofNat]
  exact Nat.mod_eq_of_lt (by omega)

/-- A place one turn of the number space further has the same serial number. -/
theorem place_turn (p : ℤ) : ((p + 4294967296 : ℤ) : Seq) = (p : Seq) := by
  rw [Int.cast_add]
  exact add_zero _

/-- Places less than the number space apart have different serial numbers. -/
theorem place_inj {p q : ℤ} (lo : -4294967296 < p - q) (hi : p - q < 4294967296) :
    (p : Seq) = (q : Seq) ↔ p = q := by
  refine ⟨fun h => ?_, congrArg _⟩
  rcases le_total q p with hle | hle
  · have hsub := toNat_sub_place hle hi
    rw [h, sub_self] at hsub
    have hzero : (0 : Seq).toNat = 0 := rfl
    omega
  · have hsub := toNat_sub_place hle (by omega : q - p < 4294967296)
    rw [h, sub_self] at hsub
    have hzero : (0 : Seq).toNat = 0 := rfl
    omega

/-- Every serial number is that of a place. -/
theorem exists_place (a : Seq) (q : ℤ) : ∃ p : ℤ, (p : Seq) = a ∧ q ≤ p ∧ p < q + 4294967296 := by
  refine ⟨q + (a - (q : Seq)).toNat, ?_, by omega, ?_⟩
  · rw [Int.cast_add, Int.cast_natCast, BitVec.natCast_eq_ofNat, BitVec.ofNat_toNat,
      BitVec.setWidth_eq]
    ring
  · have := (a - (q : Seq)).isLt
    omega

end QuietLwip.Serial
