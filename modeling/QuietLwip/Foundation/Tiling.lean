import Mathlib.Data.List.Chain
import Mathlib.Data.List.Infix

/-!
# Tilings

Blocks that lie one behind the other: each has something in it and begins where the one in front of it
ends. Of the blocks that have arrived so far, those without a hole are a piece of the tiling.
-/

namespace QuietLwip.Tiling

variable {α : Type*}

/-- Each block begins where the one in front of it ends. -/
def Adjoining (start stop : α → ℕ) (l : List α) : Prop := l.IsChain fun x y => stop x = start y

instance (start stop : α → ℕ) (l : List α) : Decidable (Adjoining start stop l) :=
  inferInstanceAs (Decidable (l.IsChain fun x y => stop x = start y))

structure Tiled (start stop : α → ℕ) (l : List α) : Prop where
  pos : ∀ x ∈ l, start x < stop x
  adjoining : Adjoining start stop l

variable {start stop : α → ℕ} {x y : α} {l s front back : List α}

@[simp] theorem adjoining_nil : Adjoining start stop [] := List.isChain_nil

@[simp] theorem adjoining_singleton (x : α) : Adjoining start stop [x] := List.isChain_singleton x

@[simp] theorem adjoining_cons_cons :
    Adjoining start stop (x :: y :: l) ↔ stop x = start y ∧ Adjoining start stop (y :: l) :=
  List.isChain_cons_cons

theorem adjoining_concat :
    Adjoining start stop (l ++ [x]) ↔
      Adjoining start stop l ∧ ∀ y ∈ l.getLast?, stop y = start x := by
  simp [Adjoining, List.isChain_append]

theorem Tiled.tail (h : Tiled start stop (x :: l)) : Tiled start stop l :=
  ⟨fun y hy => h.pos y (List.mem_cons_of_mem x hy), h.adjoining.tail⟩

theorem Tiled.split (h : Tiled start stop (front ++ back)) :
    Tiled start stop front ∧ Tiled start stop back := by
  obtain ⟨hfront, hback, -⟩ := List.isChain_append.mp h.adjoining
  exact ⟨⟨fun y hy => h.pos y (List.mem_append_left back hy), hfront⟩,
    ⟨fun y hy => h.pos y (List.mem_append_right front hy), hback⟩⟩

theorem Tiled.head_le (h : Tiled start stop (x :: l)) : ∀ y ∈ l, stop x ≤ start y := by
  induction l generalizing x with
  | nil => simp
  | cons z l ih =>
    obtain ⟨hxz, -⟩ := adjoining_cons_cons.mp h.adjoining
    intro y hy
    rcases List.mem_cons.mp hy with rfl | hy
    · exact hxz.le
    · have hz := h.pos z (by simp)
      have hzy := ih h.tail y hy
      omega

/-- The blocks come in the order of their places. -/
theorem Tiled.pairwise (h : Tiled start stop l) : l.Pairwise fun x y => stop x ≤ start y := by
  induction l with
  | nil => exact .nil
  | cons x l ih => exact .cons h.head_le (ih h.tail)

theorem Tiled.start_lt (h : Tiled start stop l) : l.Pairwise fun x y => start x < start y := by
  refine h.pairwise.imp_of_mem ?_
  intro x y hx _ hxy
  exact (h.pos x hx).trans_le hxy

theorem Tiled.nodup (h : Tiled start stop l) : l.Nodup := by
  refine h.start_lt.imp ?_
  rintro x _ hlt rfl
  exact lt_irrefl _ hlt

/-- The last block reaches furthest. -/
theorem Tiled.le_last (h : Tiled start stop l) (hx : x ∈ l) (hy : y ∈ l.getLast?) : stop x ≤ stop y := by
  obtain ⟨init, rfl⟩ := List.getLast?_eq_some_iff.mp hy
  rcases List.mem_append.mp hx with hx | hx
  · have hy := h.pos y (by simp)
    have hxy := (List.pairwise_append.mp h.pairwise).2.2 x hx y (by simp)
    omega
  · rw [List.mem_singleton.mp hx]

/-- The last block is the last one of all blocks it is among. -/
theorem Tiled.getLast?_of_sublist (h : Tiled start stop l) (hsub : s.Sublist l) (hx : x ∈ l.getLast?)
    (hxs : x ∈ s) : x ∈ s.getLast? := by
  obtain ⟨init, rfl⟩ := List.getLast?_eq_some_iff.mp hx
  obtain ⟨s₁, s₂, rfl, hs₁, hs₂⟩ := List.sublist_append_iff.mp hsub
  rcases List.sublist_singleton.mp hs₂ with rfl | rfl
  · rw [List.append_nil] at hxs
    exact absurd rfl ((List.nodup_append.mp h.nodup).2.2 x (hs₁.subset hxs) x (by simp))
  · simp

/-- No block lies in front of the first, so only the first one begins there. -/
theorem Tiled.eq_head (h : Tiled start stop (x :: l)) (hy : y ∈ x :: l) (hle : start y ≤ start x) :
    y = x := by
  rcases List.mem_cons.mp hy with rfl | hy
  · rfl
  · have hx := h.pos x (by simp)
    have hxy := h.head_le y hy
    omega

/-- Blocks of a tiling that have no hole and the same beginning are the first ones of it. -/
theorem Tiled.prefix_of_sublist (h : Tiled start stop l) (hsub : s.Sublist l)
    (hs : Adjoining start stop s) (hhead : ∀ x ∈ s.head?, x ∈ l.head?) : s <+: l := by
  induction s generalizing l with
  | nil => exact List.nil_prefix
  | cons x s ih =>
    cases l with
    | nil => simp at hhead
    | cons y l =>
      obtain rfl : y = x := by simpa using hhead x rfl
      refine List.cons_prefix_cons.mpr ⟨rfl, ih h.tail (List.cons_sublist_cons.mp hsub) hs.tail ?_⟩
      intro z hz
      obtain ⟨s, rfl⟩ : ∃ t, s = z :: t := List.head?_eq_some_iff.mp hz
      have hyz : stop y = start z := (adjoining_cons_cons.mp hs).1
      have hzl : z ∈ l := (List.cons_sublist_cons.mp hsub).subset (by simp)
      cases l with
      | nil => simp at hzl
      | cons w l =>
        have hyw : stop y = start w := (adjoining_cons_cons.mp h.adjoining).1
        rw [h.tail.eq_head hzl (by omega)]
        rfl

/-- When they have the same end too, no block is missing. -/
theorem Tiled.eq_of_sublist (h : Tiled start stop l) (hsub : s.Sublist l)
    (hs : Adjoining start stop s) (hhead : ∀ x ∈ s.head?, x ∈ l.head?)
    (hlast : ∀ x ∈ l.getLast?, x ∈ s) : s = l := by
  obtain ⟨rest, rfl⟩ := h.prefix_of_sublist hsub hs hhead
  rcases List.eq_nil_or_concat rest with rfl | ⟨init, x, rfl⟩
  · exact (List.append_nil s).symm
  · have hx : x ∈ s := hlast x (by simp [← List.append_assoc])
    have hnodup := List.nodup_append.mp h.nodup
    exact absurd rfl (hnodup.2.2 x hx x (by simp))

end QuietLwip.Tiling
