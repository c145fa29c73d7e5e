import Mathlib.Logic.Function.Iterate
import Mathlib.Tactic.Common

/-!
# Counters that go round a range

A counter that starts again from the lower end of its range behind the upper end visits every
number of the range once in as many steps as the range is long.
-/

namespace QuietLwip.Sweep

variable {lo hi p q : ℕ}

/-- The number after `p` in the range from `lo` to `hi`. -/
def turn (lo hi p : ℕ) : ℕ := if p = hi then lo else p + 1

theorem turn_range (hp : lo ≤ p ∧ p ≤ hi) : lo ≤ turn lo hi p ∧ turn lo hi p ≤ hi := by
  rw [turn]
  split <;> omega

theorem succ_mod (k n : ℕ) :
    (k + 1) % (n + 1) = if k % (n + 1) = n then 0 else k % (n + 1) + 1 := by
  have hlt : k % (n + 1) < n + 1 := Nat.mod_lt k (Nat.succ_pos n)
  rw [← Nat.mod_add_mod]
  split
  · rename_i hend
    rw [hend, Nat.mod_self]
  · exact Nat.mod_eq_of_lt (by omega)

theorem turn_iterate {a n : ℕ} (ha : a ≤ n) (k : ℕ) :
    (turn lo (lo + n))^[k] (lo + a) = lo + (a + k) % (n + 1) := by
  induction k with
  | zero => rw [Function.iterate_zero_apply, Nat.add_zero, Nat.mod_eq_of_lt (by omega)]
  | succ k ih =>
    rw [Function.iterate_succ_apply', ih, turn, ← Nat.add_assoc, succ_mod]
    by_cases hend : (a + k) % (n + 1) = n
    · rw [if_pos hend, if_pos (congrArg (lo + ·) hend), Nat.add_zero]
    · rw [if_neg hend, if_neg fun h => hend (Nat.add_left_cancel h), Nat.add_assoc]

/-- Every number of the range is visited. -/
theorem exists_turn (hp : lo ≤ p ∧ p ≤ hi) (hq : lo ≤ q ∧ q ≤ hi) :
    ∃ k ≤ hi - lo, (turn lo hi)^[k + 1] p = q := by
  obtain ⟨n, rfl⟩ := Nat.exists_eq_add_of_le (Nat.le_trans hp.1 hp.2)
  obtain ⟨a, rfl⟩ := Nat.exists_eq_add_of_le hp.1
  obtain ⟨b, rfl⟩ := Nat.exists_eq_add_of_le hq.1
  have ha : a ≤ n := by omega
  have hb : b ≤ n := by omega
  rw [Nat.add_sub_cancel_left]
  refine ⟨(b + n - a) % (n + 1), Nat.lt_succ_iff.mp (Nat.mod_lt _ (Nat.succ_pos n)), ?_⟩
  have hsum : a + (b + n - a + 1) = b + (n + 1) := by omega
  rw [turn_iterate ha, ← Nat.add_mod_mod, Nat.mod_add_mod, Nat.add_mod_mod, hsum, Nat.add_mod_right,
    Nat.mod_eq_of_lt (by omega)]

end QuietLwip.Sweep
