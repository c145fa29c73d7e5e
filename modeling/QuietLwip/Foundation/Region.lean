import Mathlib.Tactic

/-!
# Memory regions written front to back

A region is a block of byte cells together with the end of the highest cell
written since it was handed out. `memcpy` into it is `write`; nothing stops a
write behind the block's end, so that a bound on `extent` is a statement of
memory safety.
-/

namespace QuietLwip

structure Region where
  cells : ℕ → UInt8
  /-- end of the highest cell written -/
  extent : ℕ

namespace Region

/-- A fresh region: whatever the cells hold, none has been written. -/
def fresh (cells : ℕ → UInt8) : Region := ⟨cells, 0⟩

/-- Copy `bs` to the cells from `off` on. -/
def write (r : Region) (off : ℕ) (bs : List UInt8) : Region where
  cells i := if off ≤ i then (bs[i - off]?).getD (r.cells i) else r.cells i
  extent := if bs = [] then r.extent else max r.extent (off + bs.length)

/-- The `n` bytes from `off` on. -/
def read (r : Region) (off n : ℕ) : List UInt8 :=
  (List.range n).map fun i => r.cells (off + i)

@[simp] theorem read_length (r : Region) (off n : ℕ) : (r.read off n).length = n := by
  simp [read]

/-- Cells outside the written range keep their contents. -/
theorem write_cells_of_outside {r : Region} {off : ℕ} {bs : List UInt8} {i : ℕ}
    (h : i < off ∨ off + bs.length ≤ i) : (r.write off bs).cells i = r.cells i := by
  simp only [write]
  by_cases hi : off ≤ i
  · rw [if_pos hi, List.getElem?_eq_none (by omega), Option.getD_none]
  · rw [if_neg hi]

theorem write_cells_inside {r : Region} {off : ℕ} {bs : List UInt8} {i : ℕ}
    (h : i < bs.length) : (r.write off bs).cells (off + i) = bs[i] := by
  simp only [write]
  rw [if_pos (Nat.le_add_right off i), Nat.add_sub_cancel_left, List.getElem?_eq_getElem h,
    Option.getD_some]

/-- Appending to the front part read so far. -/
theorem read_write_append (r : Region) (n : ℕ) (bs : List UInt8) :
    (r.write n bs).read 0 (n + bs.length) = r.read 0 n ++ bs := by
  apply List.ext_getElem
  · simp
  · intro i hi hi'
    rw [read_length] at hi
    by_cases hold : i < n
    · rw [List.getElem_append_left (by simpa using hold)]
      simp only [read, List.getElem_map, List.getElem_range, Nat.zero_add]
      exact write_cells_of_outside (Or.inl hold)
    · have hlen : i - n < bs.length := by omega
      rw [List.getElem_append_right (by simpa using Nat.le_of_not_lt hold)]
      simp only [read, List.getElem_map, List.getElem_range, Nat.zero_add, List.length_map,
        List.length_range]
      have hcell : (r.write n bs).cells (n + (i - n)) = bs[i - n] := write_cells_inside hlen
      rw [show n + (i - n) = i by omega] at hcell
      exact hcell

/-- A region written up to `n` is written up to the end of what is appended. -/
theorem extent_write_append {r : Region} {n : ℕ} (h : r.extent = n) (bs : List UInt8) :
    (r.write n bs).extent = n + bs.length := by
  simp only [write]
  by_cases hbs : bs = []
  · rw [if_pos hbs, h, hbs]
    rfl
  · rw [if_neg hbs]
    omega

end Region

end QuietLwip
