import Mathlib.Tactic

/-!
# A counter used as a lock

A lock is a count that is 1 while nobody holds it and 0 while exactly one thread
does. A step of one thread acquires it, releases it or leaves it alone; each of the
three keeps the correspondence between the count and the holders.
-/

namespace QuietLwip.Lock

variable {τ : Type*} {holds holds' : τ → Prop} {c c' : ℕ}

/-- The count `c` and the threads that hold the lock agree. -/
structure Exclusive (holds : τ → Prop) (c : ℕ) : Prop where
  le_one : c ≤ 1
  unique : ∀ a b, holds a → holds b → a = b
  free_iff : c = 1 ↔ ∀ a, ¬ holds a

/-- What the step of a thread does to the count, with whether the thread holds the
lock before and after. -/
inductive Effect (c c' : ℕ) (before after : Prop) : Prop
  | acquire (hc : 0 < c) (hc' : c' = c - 1) (hb : ¬ before) (ha : after)
  | release (hc' : c' = 1) (hb : before) (ha : ¬ after)
  | keep (hc' : c' = c) (h : before ↔ after)

/-- While one thread holds the lock no other does. -/
theorem Exclusive.others (h : Exclusive holds c) {a b : τ} (ha : holds a) (hb : b ≠ a) :
    ¬ holds b := fun hb' => hb (h.unique b a hb' ha)

theorem Exclusive.exists_holder (h : Exclusive holds c) (hc : c = 0) : ∃ a, holds a := by
  by_contra hnone
  have hfree : c = 1 := h.free_iff.mpr fun a ha => hnone ⟨a, ha⟩
  omega

/-- The step of thread `a` keeps the correspondence when it leaves the others' hold
on the lock as it was. -/
theorem Exclusive.step (h : Exclusive holds c) {a : τ}
    (hothers : ∀ b, b ≠ a → (holds' b ↔ holds b)) (he : Effect c c' (holds a) (holds' a)) :
    Exclusive holds' c' := by
  obtain ⟨hle, hunique, hfree⟩ := h
  cases he with
  | acquire hc hc' hb ha =>
    have hnone := hfree.mp (by omega)
    refine ⟨by omega, ?_, ?_⟩
    · intro x y hx hy
      have hxa : x = a := by
        by_contra hne
        exact hnone x ((hothers x hne).mp hx)
      have hya : y = a := by
        by_contra hne
        exact hnone y ((hothers y hne).mp hy)
      rw [hxa, hya]
    · constructor
      · intro h1
        omega
      · intro hall
        exact absurd ha (hall a)
  | release hc' hb ha =>
    refine ⟨by omega, ?_, ?_⟩
    · intro x y hx _
      by_cases hxa : x = a
      · rw [hxa] at hx
        exact absurd hx ha
      · exact absurd (hunique x a ((hothers x hxa).mp hx) hb) hxa
    · constructor
      · intro _ x hx
        by_cases hxa : x = a
        · rw [hxa] at hx
          exact ha hx
        · exact hxa (hunique x a ((hothers x hxa).mp hx) hb)
      · intro _
        exact hc'
  | keep hc' hsame =>
    have hall : ∀ b, holds' b ↔ holds b := by
      intro b
      by_cases hba : b = a
      · rw [hba]
        exact hsame.symm
      · exact hothers b hba
    rw [hc']
    refine ⟨hle, ?_, ?_⟩
    · intro x y hx hy
      exact hunique x y ((hall x).mp hx) ((hall y).mp hy)
    · rw [hfree]
      simp only [hall]

/-- A sum over threads when one of them moves. -/
theorem sum_update {ι α : Type*} [Fintype ι] [DecidableEq ι] (f : ι → α) (g : α → ℤ) (i : ι)
    (a : α) : ∑ j, g (Function.update f i a j) = ∑ j, g (f j) - g (f i) + g a := by
  have hcomp : (fun j => g (Function.update f i a j)) =
      Function.update (fun j => g (f j)) i (g a) := by
    funext j
    by_cases hj : j = i
    · subst hj
      simp only [Function.update_self]
    · simp only [Function.update_of_ne hj]
  rw [hcomp, Finset.sum_update_of_mem (Finset.mem_univ i),
    ← Finset.add_sum_erase _ _ (Finset.mem_univ i), Finset.sdiff_singleton_eq_erase]
  ring

/-! ### Counting threads -/

section Tally

variable {β : Type*} [Fintype τ] {p : β → Prop} [DecidablePred p] {f : τ → β} {a : τ} {b : β}

/-- The number of the threads that stand at a place with `p`. -/
def tally (p : β → Prop) [DecidablePred p] (f : τ → β) : ℕ :=
  (Finset.univ.filter fun a => p (f a)).card

theorem tally_pos (ha : p (f a)) : 0 < tally p f :=
  Finset.card_pos.mpr ⟨a, Finset.mem_filter.mpr ⟨Finset.mem_univ a, ha⟩⟩

theorem tally_eq_zero (hnone : ∀ a, ¬p (f a)) : tally p f = 0 :=
  Finset.card_eq_zero.mpr (Finset.filter_eq_empty_iff.mpr fun a _ => hnone a)

/-- A thread that goes elsewhere takes its share of the count along. -/
theorem tally_update [DecidableEq τ] :
    (tally p (Function.update f a b) : ℤ) =
      tally p f - (if p (f a) then 1 else 0) + (if p b then 1 else 0) := by
  unfold tally
  rw [Finset.natCast_card_filter, Finset.natCast_card_filter]
  exact sum_update f (fun b => if p b then 1 else 0) a b

end Tally

end QuietLwip.Lock
