import Mathlib.Tactic

/-!
# A stream in blocks

A stream lies in blocks of any lengths, empty ones included, and is consumed from the front: whole blocks
are left behind, and the first one that remains is cut. What a cut leaves is described by places of the
stream that was cut.
-/

namespace QuietLwip.Blocks

variable {α : Type*} {n m : ℕ} {b : List α} {bs d d' d'' : List (List α)}

/-- How many elements the block with the place `i` has from the place `s` on -/
def held : ℕ → ℕ → List (List α) → ℕ
  | _, _, [] => 0
  | s, i, b :: bs => if i < b.length then b.length - s else held (s - b.length) (i - b.length) bs

/-- The blocks `d'` are what is left of `d` without the first `n` elements. -/
structure Cut (n : ℕ) (d d' : List (List α)) : Prop where
  flatten_eq : d'.flatten = d.flatten.drop n
  held_eq : ∀ s i, held s i d' = held (n + s) (n + i) d

theorem Cut.refl (d : List (List α)) : Cut 0 d d where
  flatten_eq := rfl
  held_eq s i := by rw [Nat.zero_add, Nat.zero_add]

theorem Cut.trans (h : Cut n d d') (h' : Cut m d' d'') : Cut (n + m) d d'' where
  flatten_eq := by rw [h'.flatten_eq, h.flatten_eq, List.drop_drop]
  held_eq s i := by rw [h'.held_eq, h.held_eq, Nat.add_assoc, Nat.add_assoc]

/-- The first block is cut. -/
theorem Cut.head (bs : List (List α)) (h : n ≤ b.length) : Cut n (b :: bs) (b.drop n :: bs) where
  flatten_eq := by
    rw [List.flatten_cons, List.flatten_cons, List.drop_append_of_le_length h]
  held_eq s i := by
    rw [held, held, List.length_drop]
    by_cases hi : n + i < b.length
    · rw [if_pos hi, if_pos (by omega)]
      omega
    · rw [if_neg hi, if_neg (by omega)]
      congr 1 <;> omega

/-- The first block is left behind. -/
theorem Cut.tail (b : List α) (bs : List (List α)) : Cut b.length (b :: bs) bs where
  flatten_eq := by rw [List.flatten_cons, List.drop_left]
  held_eq s i := by
    rw [held, if_neg (by omega), Nat.add_sub_cancel_left, Nat.add_sub_cancel_left]

/-- Without a start of its own, a place is held by the whole of its block. -/
theorem held_first {i : ℕ} (h : i < b.length) : held 0 i (b :: bs) = b.length := by
  rw [held, if_pos h, Nat.sub_zero]

theorem held_next {i : ℕ} (h : b.length ≤ i) : held 0 i (b :: bs) = held 0 (i - b.length) bs := by
  rw [held, if_neg (by omega), Nat.zero_sub]

end QuietLwip.Blocks
