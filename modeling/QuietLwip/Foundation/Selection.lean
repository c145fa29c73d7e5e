import Mathlib.Data.List.Induction
import Mathlib.Tactic.Common

/-!
# Scans for the best element

A scan of a list keeps one element, which gives way to every later one that is at least as good. Where elements
are not all comparable, what is left is not the best of all but one that none is better than.
-/

namespace QuietLwip.Selection

variable {α : Type*} (ok : α → Prop) (r : α → α → Prop) {l : List α} {a b : α}

/-- The element is one of those that may be taken, and none of these is better. -/
structure Best (l : List α) (b : α) : Prop where
  mem : b ∈ l
  allowed : ok b
  best : ∀ a ∈ l, ok a → r a b → r b a

/-- What the scan has found in the list. -/
def Found (l : List α) : Option α → Prop
  | none => ∀ a ∈ l, ¬ ok a
  | some b => Best ok r l b

section scan

variable [DecidablePred ok] [DecidableRel r]

/-- One turn of the scan. -/
def pick : Option α → α → Option α
  | none, a => if ok a then some a else none
  | some b, a => if ok a ∧ r a b then some a else some b

variable {ok r}

/-- Only what is better than the element found takes its place, so nothing behind it is better. -/
theorem Found.pick (hrefl : ∀ a, r a a) (htrans : ∀ a b c, r a b → r b c → r a c) {found : Option α}
    (h : Found ok r l found) (a : α) : Found ok r (l ++ [a]) (pick ok r found a) := by
  cases found with
  | none =>
    rw [Selection.pick]
    split
    · next ha =>
      refine ⟨List.mem_append_right _ (List.mem_singleton_self a), ha, fun x hx hok _ => ?_⟩
      rcases List.mem_append.mp hx with hx | hx
      · exact absurd hok (h x hx)
      · rw [List.mem_singleton.mp hx]
        exact hrefl a
    · next ha =>
      intro x hx
      rcases List.mem_append.mp hx with hx | hx
      · exact h x hx
      · rwa [List.mem_singleton.mp hx]
  | some b =>
    have hb : Best ok r l b := h
    rw [Selection.pick]
    split
    · next ha =>
      refine ⟨List.mem_append_right _ (List.mem_singleton_self a), ha.1, fun x hx hok hxa => ?_⟩
      rcases List.mem_append.mp hx with hx | hx
      · exact htrans a b x ha.2 (hb.best x hx hok (htrans x a b hxa ha.2))
      · rw [List.mem_singleton.mp hx]
        exact hrefl a
    · next ha =>
      refine ⟨List.mem_append_left _ hb.mem, hb.allowed, fun x hx hok hxb => ?_⟩
      rcases List.mem_append.mp hx with hx | hx
      · exact hb.best x hx hok hxb
      · rw [List.mem_singleton.mp hx] at hok hxb
        exact absurd ⟨hok, hxb⟩ ha

theorem found_foldl (hrefl : ∀ a, r a a) (htrans : ∀ a b c, r a b → r b c → r a c) (l : List α) :
    Found ok r l (l.foldl (pick ok r) none) := by
  induction l using List.reverseRecOn with
  | nil => exact fun a ha => absurd ha List.not_mem_nil
  | append_singleton l a ih =>
    rw [List.foldl_append]
    exact ih.pick hrefl htrans a

end scan

end QuietLwip.Selection
