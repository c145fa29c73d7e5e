import Mathlib.Data.Option.Basic
import Mathlib.Tactic.Common

/-!
# Things in one place at a time

A thing that is in use lies in exactly one place, and any other in none. A step brings one thing in, moves one
or takes one away, and leaves all others where they are: such steps keep this.
-/

namespace QuietLwip.Places

variable {ρ π : Type*} {lies lies' : ρ → π → Prop} {inUse inUse' : ρ → Prop} {r : ρ} {src dst p : π}

/-- What is in use is in one place, and what is in a place is in use. -/
structure Custody (lies : ρ → π → Prop) (inUse : ρ → Prop) : Prop where
  inUse_iff : ∀ r, inUse r ↔ ∃ p, lies r p
  unique : ∀ r p q, lies r p → lies r q → p = q

namespace Custody

theorem inUse_of (h : Custody lies inUse) (hr : lies r p) : inUse r := (h.inUse_iff r).mpr ⟨p, hr⟩

theorem nowhere (h : Custody lies inUse) (hr : ¬ inUse r) (p : π) : ¬ lies r p := fun hp => hr (h.inUse_of hp)

/-- A step that moves nothing. -/
theorem congr (h : Custody lies inUse) (hlies : ∀ x p, lies' x p ↔ lies x p) (huse : ∀ x, inUse' x ↔ inUse x) :
    Custody lies' inUse' where
  inUse_iff x := by
    rw [huse, h.inUse_iff]
    exact exists_congr fun p => (hlies x p).symm
  unique x p q hp hq := h.unique x p q ((hlies x p).mp hp) ((hlies x q).mp hq)

theorem bring (h : Custody lies inUse) (hr : ¬ inUse r)
    (hlies : ∀ x p, lies' x p ↔ lies x p ∨ x = r ∧ p = dst) (huse : ∀ x, inUse' x ↔ inUse x ∨ x = r) :
    Custody lies' inUse' where
  inUse_iff x := by
    simp only [huse, h.inUse_iff, hlies]
    constructor
    · rintro (⟨p, hp⟩ | rfl)
      · exact ⟨p, .inl hp⟩
      · exact ⟨dst, .inr ⟨rfl, rfl⟩⟩
    · rintro ⟨p, hp | ⟨rfl, -⟩⟩
      · exact .inl ⟨p, hp⟩
      · exact .inr rfl
  unique x p q hp hq := by
    rw [hlies] at hp hq
    rcases hp with hp | ⟨rfl, rfl⟩ <;> rcases hq with hq | ⟨hx, rfl⟩
    · exact h.unique x p q hp hq
    · exact absurd (hx ▸ hp) (h.nowhere hr p)
    · exact absurd hq (h.nowhere hr q)
    · rfl

theorem move (h : Custody lies inUse) (hr : lies r src)
    (hlies : ∀ x p, lies' x p ↔ lies x p ∧ ¬ (x = r ∧ p = src) ∨ x = r ∧ p = dst)
    (huse : ∀ x, inUse' x ↔ inUse x) : Custody lies' inUse' where
  inUse_iff x := by
    simp only [huse, h.inUse_iff, hlies]
    constructor
    · rintro ⟨p, hp⟩
      by_cases hx : x = r
      · exact ⟨dst, .inr ⟨hx, rfl⟩⟩
      · exact ⟨p, .inl ⟨hp, fun hxp => hx hxp.1⟩⟩
    · rintro ⟨p, ⟨hp, -⟩ | ⟨rfl, -⟩⟩
      · exact ⟨p, hp⟩
      · exact ⟨src, hr⟩
  unique x p q hp hq := by
    rw [hlies] at hp hq
    rcases hp with ⟨hp, hp'⟩ | ⟨rfl, rfl⟩ <;> rcases hq with ⟨hq, hq'⟩ | ⟨hx, rfl⟩
    · exact h.unique x p q hp hq
    · subst hx
      exact absurd ⟨rfl, h.unique x p src hp hr⟩ hp'
    · exact absurd ⟨rfl, h.unique x q src hq hr⟩ hq'
    · rfl

theorem take (h : Custody lies inUse) (hr : lies r src)
    (hlies : ∀ x p, lies' x p ↔ lies x p ∧ ¬ (x = r ∧ p = src)) (huse : ∀ x, inUse' x ↔ inUse x ∧ x ≠ r) :
    Custody lies' inUse' where
  inUse_iff x := by
    simp only [huse, h.inUse_iff, hlies]
    constructor
    · rintro ⟨⟨p, hp⟩, hx⟩
      exact ⟨p, hp, fun hxp => hx hxp.1⟩
    · rintro ⟨p, hp, hne⟩
      refine ⟨⟨p, hp⟩, ?_⟩
      rintro rfl
      exact hne ⟨rfl, h.unique x p src hp hr⟩
  unique x p q hp hq := h.unique x p q ((hlies x p).mp hp).1 ((hlies x q).mp hq).1

end Custody

end QuietLwip.Places
