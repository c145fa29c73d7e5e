import Mathlib.Data.List.Chain
import Mathlib.Order.Bounds.Basic

/-!
# Replacing a stretch of a linked list

A linked structure is a list whose neighbours are related. An update that rewires the
stretch between two nodes keeps the relation outside the stretch, so that only the new
stretch has to be looked at.
-/

namespace QuietLwip.Splice

variable {α : Type*} {R R' : α → α → Prop}

/-- Replace the nodes `zs` between `b` and `n` by `zs'`. -/
theorem isChain_splice {xs ys : List α} {b n : α} (zs zs' : List α)
    (h : (xs ++ b :: (zs ++ n :: ys)).IsChain R)
    (hfront : ∀ x ∈ xs, ∀ y ∈ xs ++ [b], R x y → R' x y)
    (hmid : (b :: (zs' ++ [n])).IsChain R')
    (hback : ∀ x ∈ n :: ys, ∀ y ∈ ys, R x y → R' x y) :
    (xs ++ b :: (zs' ++ n :: ys)).IsChain R' := by
  rw [List.isChain_split] at h ⊢
  obtain ⟨hxs, hrest⟩ := h
  constructor
  · clear hrest hmid
    induction xs with
    | nil => exact List.isChain_singleton b
    | cons x xs ih =>
      have hih := ih (fun a ha c hc => hfront a (List.mem_cons_of_mem _ ha) c
        (List.mem_cons_of_mem _ hc)) hxs.of_cons
      refine List.IsChain.cons hih ?_
      intro y hy
      have hmem : y ∈ xs ++ [b] := List.mem_of_mem_head? hy
      exact hfront x (List.mem_cons_self ..) y (List.mem_cons_of_mem _ hmem)
        (List.IsChain.rel_head? hxs hy)
  · rw [← List.cons_append, List.isChain_split] at hrest ⊢
    refine ⟨hmid, ?_⟩
    exact List.IsChain.imp_of_mem_tail_imp (fun x y hx hy => hback x hx y hy) hrest.2

/-- Neighbours in the middle of a chain are related. -/
theorem isChain_rel {xs ys : List α} {b n : α} (h : (xs ++ b :: n :: ys).IsChain R) : R b n :=
  (List.isChain_append_cons_cons.mp h).2.1

/-- A node that is not the last one has a successor. -/
theorem exists_split_of_mem {l : List α} {b e : α} (hb : b ∈ l) (hlast : l.getLast? = some e)
    (hne : b ≠ e) : ∃ xs n ys, l = xs ++ b :: n :: ys := by
  obtain ⟨xs, rest, rfl⟩ := List.append_of_mem hb
  cases rest with
  | nil =>
    rw [List.getLast?_append, List.getLast?_singleton, Option.some_or] at hlast
    exact absurd (Option.some.inj hlast) hne
  | cons n ys => exact ⟨xs, n, ys, rfl⟩

/-- The last entry of a sorted list bounds it. -/
theorem le_of_getLast? [Preorder α] {l : List α} {b e : α} (hl : l.Pairwise (· < ·))
    (hlast : l.getLast? = some e) (hb : b ∈ l) : b ≤ e := by
  obtain ⟨front, rfl⟩ := List.getLast?_eq_some_iff.mp hlast
  rcases List.mem_append.mp hb with hin | hend
  · exact ((List.pairwise_append.mp hl).2.2 b hin _ (List.mem_singleton_self _)).le
  · exact (List.mem_singleton.mp hend).le

/-- A scan of a sorted list finds the least entry it looks for. -/
theorem find?_eq_of_isLeast [Preorder α] {l : List α} {p : α → Prop} [DecidablePred p] {b : α}
    (hl : l.Pairwise (· < ·)) (hb : IsLeast {c | c ∈ l ∧ p c} b) : l.find? p = some b := by
  obtain ⟨⟨hmem, hp⟩, hleast⟩ := hb
  obtain ⟨front, back, rfl⟩ := List.append_of_mem hmem
  refine List.find?_eq_some_iff_append.mpr ⟨decide_eq_true hp, front, back, rfl, fun c hc => ?_⟩
  have hlt : c < b := (List.pairwise_append.mp hl).2.2 c hc b (List.mem_cons_self ..)
  rw [Bool.not_eq_true', decide_eq_false_iff_not]
  exact fun hpc => (hleast ⟨List.mem_append_left _ hc, hpc⟩).not_gt hlt

end QuietLwip.Splice
