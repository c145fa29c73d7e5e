import Mathlib.Tactic

/-!
# Lists of differences

A queue of things to come that keeps with each entry only how much later it is than the one in front of
it. When an entry is due is the sum of the differences up to its own; the sums never decrease along the
list, and a change of one difference moves all entries behind it.
-/

namespace QuietLwip.Deltas

variable {α : Type*} {base d k : ℕ} {a b : α} {l : List (ℕ × α)} {e : ℕ × α}

/-- The entries with the sums of the differences up to their own, counted from `base`. -/
def sums (base : ℕ) : List (ℕ × α) → List (ℕ × α)
  | [] => []
  | (d, a) :: l => (base + d, a) :: sums (base + d) l

/-- The sum of all differences. -/
def total (l : List (ℕ × α)) : ℕ := (l.map Prod.fst).sum

@[simp] theorem sums_nil (base : ℕ) : sums base ([] : List (ℕ × α)) = [] := rfl

@[simp] theorem sums_cons (base d : ℕ) (a : α) (l : List (ℕ × α)) :
    sums base ((d, a) :: l) = (base + d, a) :: sums (base + d) l := rfl

@[simp] theorem total_nil : total ([] : List (ℕ × α)) = 0 := rfl

@[simp] theorem total_cons (d : ℕ) (a : α) (l : List (ℕ × α)) :
    total ((d, a) :: l) = d + total l := rfl

theorem le_of_mem_sums (h : e ∈ sums base l) : base ≤ e.1 := by
  induction l generalizing base with
  | nil => exact absurd h List.not_mem_nil
  | cons f l ih =>
    obtain ⟨d, a⟩ := f
    rcases List.mem_cons.mp h with rfl | h
    · exact Nat.le_add_right base d
    · exact (Nat.le_add_right base d).trans (ih h)

theorem le_total_of_mem_sums (h : e ∈ sums base l) : e.1 ≤ base + total l := by
  induction l generalizing base with
  | nil => exact absurd h List.not_mem_nil
  | cons f l ih =>
    obtain ⟨d, a⟩ := f
    rw [total_cons, ← Nat.add_assoc]
    rcases List.mem_cons.mp h with rfl | h
    · exact Nat.le_add_right (base + d) (total l)
    · exact ih h

/-- The last entry is due at the sum of all differences. -/
theorem total_lt {b : ℕ} (hb : base < b) (h : ∀ e ∈ sums base l, e.1 < b) : base + total l < b := by
  induction l generalizing base with
  | nil => exact hb
  | cons f l ih =>
    obtain ⟨d, a⟩ := f
    obtain ⟨hd, hl⟩ := List.forall_mem_cons.mp h
    rw [total_cons, ← Nat.add_assoc]
    exact ih hd hl

/-- A later base is a larger first difference. -/
theorem sums_add_base (base k d : ℕ) (a : α) (l : List (ℕ × α)) :
    sums (base + k) ((d, a) :: l) = sums base ((k + d, a) :: l) := by
  rw [sums_cons, sums_cons, Nat.add_assoc]

/-- The base is added to every sum. -/
theorem sums_eq_map (base : ℕ) (l : List (ℕ × α)) :
    sums base l = (sums 0 l).map fun e => (base + e.1, e.2) := by
  suffices h : ∀ k, sums (base + k) l = (sums k l).map fun e => (base + e.1, e.2) from h 0
  induction l with
  | nil => exact fun _ => rfl
  | cons f l ih =>
    obtain ⟨d, a⟩ := f
    intro k
    rw [sums_cons, sums_cons, List.map_cons, Nat.add_assoc, ih]

/-- `e` is added behind everything that is due no later. -/
def Inserts (e : ℕ × α) (s s' : List (ℕ × α)) : Prop :=
  ∃ front back, s = front ++ back ∧ s' = front ++ e :: back ∧
    (∀ f ∈ front, f.1 ≤ e.1) ∧ ∀ f ∈ back, e.1 < f.1

theorem Inserts.nil (e : ℕ × α) : Inserts e [] [e] :=
  ⟨[], [], rfl, rfl, fun _ h => absurd h List.not_mem_nil, fun _ h => absurd h List.not_mem_nil⟩

theorem Inserts.cons {f : ℕ × α} {s s' : List (ℕ × α)} (h : Inserts e s s') (hf : f.1 ≤ e.1) :
    Inserts e (f :: s) (f :: s') := by
  obtain ⟨front, back, rfl, rfl, hfront, hback⟩ := h
  exact ⟨f :: front, back, rfl, rfl, List.forall_mem_cons.mpr ⟨hf, hfront⟩, hback⟩

/-- In front of an entry that is due later, whose difference is taken from. -/
theorem inserts_front (base : ℕ) (a b : α) (l : List (ℕ × α)) (hk : k < d) :
    Inserts (base + k, b) (sums base ((d, a) :: l)) (sums base ((k, b) :: (d - k, a) :: l)) := by
  have hsame : sums (base + k) ((d - k, a) :: l) = sums base ((d, a) :: l) := by
    rw [sums_add_base, Nat.add_sub_cancel' hk.le]
  refine ⟨[], sums base ((d, a) :: l), rfl, ?_, fun _ h => absurd h List.not_mem_nil, fun f hf => ?_⟩
  · rw [sums_cons, hsame]
    rfl
  · rw [sums_cons] at hf
    have hle : base + d ≤ f.1 := by
      rcases List.mem_cons.mp hf with rfl | hf
      · exact le_rfl
      · exact le_of_mem_sums hf
    exact lt_of_lt_of_le (Nat.add_lt_add_left hk base) hle

/-- The entries are still in order, by any finer order that the new entry fits in. -/
theorem Inserts.pairwise {r : ℕ × α → ℕ × α → Prop} {s s' : List (ℕ × α)} (h : Inserts e s s')
    (hs : s.Pairwise r) (hfront : ∀ f ∈ s, f.1 ≤ e.1 → r f e) (hback : ∀ f ∈ s, e.1 < f.1 → r e f) :
    s'.Pairwise r := by
  obtain ⟨front, back, rfl, rfl, hlo, hhi⟩ := h
  obtain ⟨hf, hb, hfb⟩ := List.pairwise_append.mp hs
  refine List.pairwise_append.mpr ⟨hf, List.pairwise_cons.mpr ⟨fun f hf => ?_, hb⟩, fun f hf' g hg => ?_⟩
  · exact hback f (List.mem_append_right front hf) (hhi f hf)
  · rcases List.mem_cons.mp hg with rfl | hg
    · exact hfront f (List.mem_append_left back hf') (hlo f hf')
    · exact hfb f hf' g hg

theorem Inserts.mem {s s' : List (ℕ × α)} (h : Inserts e s s') {f : ℕ × α} :
    f ∈ s' ↔ f = e ∨ f ∈ s := by
  obtain ⟨front, back, rfl, rfl, -, -⟩ := h
  simp only [List.mem_append, List.mem_cons]
  tauto

end QuietLwip.Deltas
