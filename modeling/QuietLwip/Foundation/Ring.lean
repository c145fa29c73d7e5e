import Mathlib.Tactic

/-!
# Rings addressed by ever-growing counters

A ring of `size` cells is addressed by integers reduced modulo `size`. The
`window` of `n` entries from a counter value on is what the ring holds of a queue;
appending behind it writes the cell of the next counter value, which is none of the
window's cells as long as `n < size`.
-/

namespace QuietLwip.Ring

variable {μ : Type*}

/-- The entries at the counter values `first, .., first + n - 1`. -/
def window (size : ℤ) (cells : ℤ → μ) (first : ℤ) : ℕ → List μ
  | 0 => []
  | n + 1 => cells (first % size) :: window size cells (first + 1) n

@[simp] theorem window_length (size : ℤ) (cells : ℤ → μ) (first : ℤ) (n : ℕ) :
    (window size cells first n).length = n := by
  induction n generalizing first with
  | zero => rfl
  | succ n ih => rw [window, List.length_cons, ih]

theorem window_snoc (size : ℤ) (cells : ℤ → μ) (first : ℤ) (n : ℕ) :
    window size cells first (n + 1) =
      window size cells first n ++ [cells ((first + n) % size)] := by
  induction n generalizing first with
  | zero => simp [window]
  | succ n ih =>
    have hshift : first + 1 + (n : ℤ) = first + ((n + 1 : ℕ) : ℤ) := by push_cast; ring
    rw [window, ih, hshift]
    rfl

theorem window_congr {size : ℤ} {cells cells' : ℤ → μ} {first : ℤ} {n : ℕ}
    (h : ∀ k : ℕ, k < n → cells ((first + k) % size) = cells' ((first + k) % size)) :
    window size cells first n = window size cells' first n := by
  induction n with
  | zero => rfl
  | succ n ih =>
    rw [window_snoc, window_snoc, ih fun k hk => h k (Nat.lt_succ_of_lt hk),
      h n (Nat.lt_succ_self n)]

/-- Distinct counter values less than a full turn apart address distinct cells. -/
theorem index_ne {size first : ℤ} {k n : ℕ} (hk : k < n) (hn : (n : ℤ) < size) :
    (first + k) % size ≠ (first + n) % size := by
  intro h
  have hdvd : size ∣ first + n - (first + k) := Int.ModEq.dvd h
  have hle : size ≤ first + n - (first + k) := Int.le_of_dvd (by omega) hdvd
  omega

/-- Writing the next cell appends to the window. -/
theorem window_push {size : ℤ} (cells : ℤ → μ) (first : ℤ) {n : ℕ} (hn : (n : ℤ) < size)
    (m : μ) :
    window size (Function.update cells ((first + n) % size) m) first (n + 1) =
      window size cells first n ++ [m] := by
  rw [window_snoc, Function.update_self]
  congr 1
  apply window_congr
  intro k hk
  exact Function.update_of_ne (index_ne hk hn) _ _

end QuietLwip.Ring
