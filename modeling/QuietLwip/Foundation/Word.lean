import Mathlib.Tactic

/-!
# Fixed-width C integers

Machine integers are mathematical integers with an explicit truncation at every
place where the code stores a result. A signed result that leaves its range is
undefined in C; here it wraps as the two's-complement machine makes it.
-/

namespace QuietLwip.Word

/-- Truncation to an unsigned value of `bits` bits. -/
def wrapU (bits : ℕ) (x : ℤ) : ℕ := (x % 2 ^ bits).toNat

/-- Truncation to a two's-complement value of `bits` bits. -/
def wrapS (bits : ℕ) (x : ℤ) : ℤ := x.bmod (2 ^ bits)

abbrev u8 (x : ℤ) : ℕ := wrapU 8 x
abbrev u16 (x : ℤ) : ℕ := wrapU 16 x
abbrev u32 (x : ℤ) : ℕ := wrapU 32 x
abbrev u64 (x : ℤ) : ℕ := wrapU 64 x
abbrev s16 (x : ℤ) : ℤ := wrapS 16 x
abbrev s32 (x : ℤ) : ℤ := wrapS 32 x

theorem wrapU_lt (bits : ℕ) (x : ℤ) : wrapU bits x < 2 ^ bits := by
  have hpos : (0 : ℤ) < 2 ^ bits := Int.pow_pos (by decide)
  have hlt := Int.emod_lt_of_pos x hpos
  have hnonneg := Int.emod_nonneg x hpos.ne'
  rw [wrapU]
  zify
  rw [Int.toNat_of_nonneg hnonneg]
  exact hlt

/-- A value already in range is stored unchanged. -/
theorem wrapU_of_lt {bits : ℕ} {x : ℤ} (h0 : 0 ≤ x) (h : x < 2 ^ bits) :
    wrapU bits x = x.toNat := by
  rw [wrapU, Int.emod_eq_of_lt h0 h]

theorem wrapU_natCast {bits n : ℕ} (h : n < 2 ^ bits) : wrapU bits n = n := by
  have hlt : (n : ℤ) < 2 ^ bits := by exact_mod_cast h
  rw [wrapU_of_lt (by omega) hlt, Int.toNat_natCast]

theorem u16_lt (x : ℤ) : u16 x < 65536 := wrapU_lt 16 x

theorem u16_natCast {n : ℕ} (h : n < 65536) : u16 n = n := wrapU_natCast h

/-- A value already in range is stored unchanged. -/
theorem wrapS_of_range {bits : ℕ} {x : ℤ} (hbits : 0 < bits)
    (hlo : -2 ^ (bits - 1) ≤ x) (hhi : x < 2 ^ (bits - 1)) : wrapS bits x = x := by
  obtain ⟨b, rfl⟩ : ∃ b, bits = b + 1 := ⟨bits - 1, by omega⟩
  simp only [Nat.add_sub_cancel] at hlo hhi
  have hpow : ((2 ^ (b + 1) : ℕ) : ℤ) = 2 * 2 ^ b := by push_cast; ring
  refine Int.bmod_eq_of_le ?_ ?_ <;> omega

end QuietLwip.Word
