import QuietLwip.Foundation.Links
import Mathlib.Data.List.Perm.Basic

/-!
# Searches in a list whose order changes

A search gives the first node that satisfies a predicate. It gives the same in every order of the list if and only
if there is at most one such node.
-/

namespace QuietLwip.Reorder

open Links

variable {α : Type*} {p q : α → Bool} {l l' : List α}

/-- Not more than one node satisfies `p`. -/
def AtMostOne (p : α → Bool) (l : List α) : Prop := ∀ a ∈ l, ∀ b ∈ l, p a = true → p b = true → a = b

theorem AtMostOne.perm (h : AtMostOne p l) (hperm : l'.Perm l) : AtMostOne p l' :=
  fun a ha b hb => h a (hperm.subset ha) b (hperm.subset hb)

theorem AtMostOne.find?_perm (h : AtMostOne p l) (hperm : l'.Perm l) : l'.find? p = l.find? p := by
  cases ha : l.find? p with
  | none =>
    rw [List.find?_eq_none] at ha ⊢
    exact fun b hb => ha b (hperm.subset hb)
  | some a =>
    have hmem := List.mem_of_find?_eq_some ha
    obtain ⟨b, hb⟩ : ∃ b, l'.find? p = some b := by
      rw [← Option.isSome_iff_exists, List.find?_isSome]
      exact ⟨a, hperm.symm.subset hmem, List.find?_some ha⟩
    rw [hb, h b (hperm.subset (List.mem_of_find?_eq_some hb)) a hmem (List.find?_some hb) (List.find?_some ha)]

/-- Nodes that have different keys are told apart by a key. -/
theorem atMostOne_of_keys {κ : Type*} {key : α → κ} (hnodup : (l.map key).Nodup) (k : κ)
    (hp : ∀ a ∈ l, p a = true → key a = k) : AtMostOne p l :=
  fun a ha b hb hpa hpb => List.inj_on_of_nodup_map hnodup ha hb ((hp a ha hpa).trans (hp b hb hpb).symm)

theorem find?_erase [DecidableEq α] {a : α} (ha : p a = true) : (a :: l.erase a).find? p = some a :=
  List.find?_cons_of_pos ha

/-- The first node that satisfies `p`, or else the first that satisfies `q` -/
def firstOf (p q : α → Bool) (l : List α) : Option α := (l.find? p).or (l.find? q)

/-- The order of the list is of no account to `firstOf`. -/
def Unambiguous (p q : α → Bool) (l : List α) : Prop :=
  AtMostOne p l ∧ ((∀ a ∈ l, p a = false) → AtMostOne q l)

theorem firstOf_of_none (h : ∀ a ∈ l, p a = false) : firstOf p q l = l.find? q := by
  have hnone : l.find? p = none := List.find?_eq_none.mpr fun a ha => Bool.eq_false_iff.mp (h a ha)
  rw [firstOf, hnone, Option.none_or]

theorem Unambiguous.firstOf_perm (h : Unambiguous p q l) (hperm : l'.Perm l) :
    firstOf p q l' = firstOf p q l := by
  rw [firstOf, firstOf, h.1.find?_perm hperm]
  cases hp : l.find? p with
  | some a => rfl
  | none =>
    rw [List.find?_eq_none] at hp
    rw [(h.2 fun a ha => Bool.eq_false_iff.mpr (hp a ha)).find?_perm hperm]

theorem unambiguous_of_perm [DecidableEq α] (h : ∀ l' : List α, l'.Perm l → firstOf p q l' = firstOf p q l) :
    Unambiguous p q l := by
  constructor
  · intro a ha b hb hpa hpb
    have hfirst := h _ (List.perm_cons_erase ha).symm
    have hfirst' := h _ (List.perm_cons_erase hb).symm
    rw [firstOf, find?_erase hpa, Option.some_or] at hfirst
    rw [firstOf, find?_erase hpb, Option.some_or] at hfirst'
    exact Option.some.inj (hfirst.trans hfirst'.symm)
  · intro hnone a ha b hb hqa hqb
    have hfirst : ∀ {l' : List α}, l'.Perm l → l'.find? q = firstOf p q l := by
      intro l' hperm
      rw [← h l' hperm, firstOf_of_none fun a ha => hnone a (hperm.subset ha)]
    have hqa' := hfirst (List.perm_cons_erase ha).symm
    have hqb' := hfirst (List.perm_cons_erase hb).symm
    rw [find?_erase hqa] at hqa'
    rw [find?_erase hqb] at hqb'
    exact Option.some.inj (hqa'.trans hqb'.symm)

/-! ### Linked lists -/

variable {next : α → Option α} {h : Option α} {fuel : ℕ} {prev : Option α}

/-- The search of a linked list is the one of its nodes. -/
theorem findFrom_find? (hl : ListAt next h l) (hfuel : l.length ≤ fuel) :
    (findFrom next p fuel prev h).map (Option.map Prod.snd) = some (l.find? p) := by
  induction l generalizing h fuel prev with
  | nil =>
    obtain rfl : h = none := hl
    cases fuel <;> rfl
  | cons a l ih =>
    obtain ⟨rfl, hl⟩ := hl
    cases fuel with
    | zero => exact absurd hfuel (Nat.not_succ_le_zero _)
    | succ fuel =>
      rw [findFrom]
      cases ha : p a with
      | true =>
        rw [if_pos rfl, List.find?_cons_of_pos ha]
        rfl
      | false =>
        rw [if_neg Bool.false_ne_true, List.find?_cons_of_neg (Bool.eq_false_iff.mp ha)]
        exact ih hl (Nat.le_of_succ_le_succ hfuel)

/-- Nodes can be linked in any order. -/
theorem exists_listAt [DecidableEq α] (hnodup : l.Nodup) : ∃ next : α → Option α, ListAt next l.head? l := by
  induction l with
  | nil => exact ⟨fun _ => none, rfl⟩
  | cons a l ih =>
    obtain ⟨ha, hnodup⟩ := List.nodup_cons.mp hnodup
    obtain ⟨next, hnext⟩ := ih hnodup
    exact ⟨_, hnext.push ha⟩

end QuietLwip.Reorder
