import Mathlib.Tactic

/-!
# Arrays filled from the front

The contents of an array of which the first `n` entries are in use are the list
`slots f n`. Appending, copying another array's contents behind them, and the loop that
drops entries by writing those it keeps back in place, all act on that list.
-/

namespace QuietLwip.Slots

variable {α β : Type*}

/-- The entries from `i` up to `n`. -/
def between (f : ℕ → α) (i n : ℕ) : List α := (List.range' i (n - i)).map f

/-- The entries in front of `n`. -/
def slots (f : ℕ → α) (n : ℕ) : List α := between f 0 n

/-- `memcpy(f + n, g, m * sizeof(*g))` -/
def copy (f : ℕ → α) (n : ℕ) (g : ℕ → α) (m : ℕ) (i : ℕ) : α :=
  if n ≤ i ∧ i < n + m then g (i - n) else f i

theorem between_cons (f : ℕ → α) {i n : ℕ} (h : i < n) :
    between f i n = f i :: between f (i + 1) n := by
  obtain ⟨k, hk⟩ : ∃ k, n - i = k + 1 := ⟨n - i - 1, by omega⟩
  have hk' : n - (i + 1) = k := by omega
  rw [between, between, hk, hk', List.range'_succ, List.map_cons]

theorem between_eq_nil (f : ℕ → α) {i n : ℕ} (h : n ≤ i) : between f i n = [] := by
  rw [between, Nat.sub_eq_zero_of_le h]
  rfl

theorem between_congr {f g : ℕ → α} {i n : ℕ} (h : ∀ k, i ≤ k → k < n → f k = g k) :
    between f i n = between g i n := by
  apply List.map_congr_left
  intro k hk
  rw [List.mem_range'_1] at hk
  exact h k hk.1 (by omega)

theorem between_append (f : ℕ → α) {i m n : ℕ} (him : i ≤ m) (hmn : m ≤ n) :
    between f i n = between f i m ++ between f m n := by
  have hlen : n - i = (m - i) + (n - m) := by omega
  have hstart : m = i + 1 * (m - i) := by omega
  rw [between, between, between, ← List.map_append, hlen]
  conv_rhs => rw [hstart]
  rw [← List.range'_append, ← hstart]

@[simp] theorem slots_length (f : ℕ → α) (n : ℕ) : (slots f n).length = n := by
  simp [slots, between]

@[simp] theorem slots_zero (f : ℕ → α) : slots f 0 = [] := rfl

theorem slots_succ (f : ℕ → α) (n : ℕ) : slots f (n + 1) = slots f n ++ [f n] := by
  rw [slots, between_append f (Nat.zero_le n) (Nat.le_succ n), between_cons f (Nat.lt_succ_self n),
    between_eq_nil f le_rfl, slots]

theorem slots_push (f : ℕ → α) (n : ℕ) (x : α) :
    slots (Function.update f n x) (n + 1) = slots f n ++ [x] := by
  rw [slots_succ, Function.update_self]
  congr 1
  apply between_congr
  intro k _ hk
  exact Function.update_of_ne hk.ne _ _

theorem slots_copy (f : ℕ → α) (n : ℕ) (g : ℕ → α) (m : ℕ) :
    slots (copy f n g m) (n + m) = slots f n ++ slots g m := by
  induction m with
  | zero =>
    rw [slots_zero, List.append_nil]
    apply between_congr
    intro k _ hk
    rw [copy, if_neg (by omega)]
  | succ m ih =>
    have hlast : copy f n g (m + 1) (n + m) = g m := by
      rw [copy, if_pos ⟨by omega, by omega⟩, Nat.add_sub_cancel_left]
    have hfront : slots (copy f n g (m + 1)) (n + m) = slots (copy f n g m) (n + m) := by
      apply between_congr
      intro k _ hk
      by_cases hkn : n ≤ k
      · rw [copy, copy, if_pos ⟨hkn, by omega⟩, if_pos ⟨hkn, by omega⟩]
      · rw [copy, copy, if_neg fun h => hkn h.1, if_neg fun h => hkn h.1]
    rw [← Nat.add_assoc, slots_succ, hlast, hfront, ih, slots_succ, List.append_assoc]

/-- Entries moved to the front. -/
theorem slots_shift {f g : ℕ → α} {n m : ℕ} (h : ∀ i, i < m → g i = f (n + i)) :
    slots g m = between f n (n + m) := by
  apply List.ext_getElem
  · simp [slots, between]
  · intro i hi _
    rw [slots_length] at hi
    simp only [slots, between, List.getElem_map, List.getElem_range']
    rw [h _ (by omega)]
    congr 1
    omega

theorem slots_append (f : ℕ → α) {m n : ℕ} (h : m ≤ n) :
    slots f n = slots f m ++ between f m n := between_append f (Nat.zero_le m) h

/-- Two arrays filled side by side. -/
def pair (f : ℕ → α) (g : ℕ → β) (i : ℕ) : α × β := (f i, g i)

theorem pair_update (f : ℕ → α) (g : ℕ → β) (n : ℕ) (x : α) (y : β) :
    pair (Function.update f n x) (Function.update g n y) = Function.update (pair f g) n (x, y) := by
  funext i
  by_cases hi : i = n
  · rw [hi, pair, Function.update_self, Function.update_self, Function.update_self]
  · rw [pair, Function.update_of_ne hi, Function.update_of_ne hi, Function.update_of_ne hi, pair]

theorem pair_copy (f f' : ℕ → α) (g g' : ℕ → β) (n m : ℕ) :
    pair (copy f n f' m) (copy g n g' m) = copy (pair f g) n (pair f' g') m := by
  funext i
  simp only [pair, copy]
  split <;> rfl

/-! ### Dropping entries in place -/

/-- The contents while entry `i` of `n` is looked at and `k` entries have been kept. -/
def kept (f : ℕ → α) (k i n : ℕ) : List α := slots f k ++ between f i n

theorem kept_start (f : ℕ → α) (n : ℕ) : kept f 0 0 n = slots f n := rfl

theorem kept_end (f : ℕ → α) {k i n : ℕ} (h : n ≤ i) : kept f k i n = slots f k := by
  rw [kept, between_eq_nil f h, List.append_nil]

/-- The entry looked at is on its way out. -/
theorem kept_eq (f : ℕ → α) {k i n : ℕ} (h : i < n) :
    kept f k i n = slots f k ++ f i :: between f (i + 1) n := by
  rw [kept, between_cons f h]

/-- Writing an entry back puts it behind those kept so far. -/
theorem kept_update (f : ℕ → α) {k i n : ℕ} (hk : k ≤ i) (x : α) :
    kept (Function.update f k x) (k + 1) (i + 1) n = slots f k ++ x :: between f (i + 1) n := by
  have hrest : between (Function.update f k x) (i + 1) n = between f (i + 1) n := by
    apply between_congr
    intro j hj _
    exact Function.update_of_ne (by omega) _ _
  rw [kept, slots_push, hrest, List.append_assoc]
  rfl

end QuietLwip.Slots
