import Mathlib.Tactic

/-!
# Binary search

The search halves a window of indices and asks on which side of an element the wanted one is: `cmp` is
negative in front of it, positive behind it and zero at it. What it returns is always a hit; that it
misses none needs the answers to fall along the list.
-/

namespace QuietLwip.BinarySearch

variable {α : Type*}

/-- The search in the window from `lo` to `hi`. -/
def searchLoop (cmp : α → ℤ) (l : List α) : ℕ → ℕ → ℕ → Option ℕ
  | 0, _, _ => none
  | fuel + 1, lo, hi =>
    if lo < hi then
      let idx := (lo + hi) / 2
      match l[idx]? with
      | none => none
      | some a =>
        if cmp a < 0 then searchLoop cmp l fuel lo idx
        else if 0 < cmp a then searchLoop cmp l fuel (idx + 1) hi
        else some idx
    else none

/-- The window is shorter after every turn. -/
def search (cmp : α → ℤ) (l : List α) : Option ℕ := searchLoop cmp l l.length 0 l.length

/-- Along the list the answer is first positive, then zero, then negative. -/
def Falling (cmp : α → ℤ) (l : List α) : Prop :=
  l.Pairwise fun a b => (cmp a < 0 → cmp b < 0) ∧ (0 < cmp b → 0 < cmp a)

variable {cmp : α → ℤ} {l : List α} {i lo hi fuel : ℕ} {a b : α}

theorem searchLoop_eq_some (h : searchLoop cmp l fuel lo hi = some i) :
    ∃ a, l[i]? = some a ∧ cmp a = 0 := by
  induction fuel generalizing lo hi with
  | zero => cases h
  | succ fuel ih =>
    rw [searchLoop] at h
    split at h
    · cases ha : l[(lo + hi) / 2]? with
      | none =>
        simp only [ha] at h
        cases h
      | some a =>
        simp only [ha] at h
        split at h
        · exact ih h
        · split at h
          · exact ih h
          · cases h
            exact ⟨a, ha, by omega⟩
    · cases h

theorem Falling.of_getElem? (h : Falling cmp l) {j : ℕ} (ha : l[i]? = some a) (hb : l[j]? = some b)
    (hij : i < j) : (cmp a < 0 → cmp b < 0) ∧ (0 < cmp b → 0 < cmp a) := by
  obtain ⟨hi, rfl⟩ := List.getElem?_eq_some_iff.mp ha
  obtain ⟨hj, rfl⟩ := List.getElem?_eq_some_iff.mp hb
  exact List.pairwise_iff_getElem.mp h i j hi hj hij

/-- What is not found in the window is not there. -/
theorem searchLoop_eq_none (h : Falling cmp l) (hhi : hi ≤ l.length) (hfuel : hi - lo ≤ fuel)
    (hnone : searchLoop cmp l fuel lo hi = none) (hlo : lo ≤ i) (hilt : i < hi)
    (hb : l[i]? = some b) : cmp b ≠ 0 := by
  induction fuel generalizing lo hi with
  | zero => omega
  | succ fuel ih =>
    have hmid : (lo + hi) / 2 < l.length := by omega
    obtain ⟨a, ha⟩ : ∃ a, l[(lo + hi) / 2]? = some a := ⟨_, List.getElem?_eq_getElem hmid⟩
    rw [searchLoop, if_pos (by omega)] at hnone
    simp only [ha] at hnone
    split at hnone
    · next hneg =>
      rcases Nat.lt_trichotomy i ((lo + hi) / 2) with hlt | heq | hgt
      · exact ih (by omega) (by omega) hnone hlo hlt
      · rw [heq, ha] at hb
        cases hb
        omega
      · have := (h.of_getElem? ha hb hgt).1 hneg
        omega
    · split at hnone
      · next hpos =>
        rcases Nat.lt_trichotomy i ((lo + hi) / 2) with hlt | heq | hgt
        · have := (h.of_getElem? hb ha hlt).2 hpos
          omega
        · rw [heq, ha] at hb
          cases hb
          omega
        · exact ih hhi (by omega) hnone hgt hilt
      · cases hnone

theorem search_eq_some (h : search cmp l = some i) : ∃ a, l[i]? = some a ∧ cmp a = 0 :=
  searchLoop_eq_some h

theorem search_eq_none (h : Falling cmp l) (hnone : search cmp l = none) : ∀ b ∈ l, cmp b ≠ 0 := by
  intro b hb
  obtain ⟨i, hi, rfl⟩ := List.mem_iff_getElem.mp hb
  exact searchLoop_eq_none h le_rfl (Nat.sub_le _ _) hnone (Nat.zero_le i) hi
    (List.getElem?_eq_getElem hi)

end QuietLwip.BinarySearch
