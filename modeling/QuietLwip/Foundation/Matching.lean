import Mathlib.Order.Bounds.Basic
import Mathlib.Data.List.Infix
import Mathlib.Tactic

/-!
# A search that goes on behind the first mismatch

A naive search for a pattern tries every place of the text. The search here compares the pattern with
the text and, when they differ, goes on behind the element of the text that differs. It is wrong for a
pattern that overlaps itself: an occurrence that starts inside the part compared is not tried. It finds
the first occurrence when the text in front of it is made of mismatches one behind the other, and for
every text exactly when all elements of the pattern are equal.
-/

namespace QuietLwip.Matching

variable {α : Type*} {pat text v w l : List α} {a : α} {m : ℕ}

/-- `w` is a proper part of the front of the pattern, and then an element that differs. -/
def Mismatch (pat w : List α) : Prop :=
  ∃ v a rest b, pat = v ++ a :: rest ∧ w = v ++ [b] ∧ a ≠ b

/-- Mismatches one behind the other. -/
inductive Mismatches (pat : List α) : List α → Prop
  | nil : Mismatches pat []
  | append {w ws : List α} : Mismatch pat w → Mismatches pat ws → Mismatches pat (w ++ ws)

/-- The pattern occurs in the text at `m`. -/
def OccursAt (pat text : List α) (m : ℕ) : Prop := pat <+: text.drop m

instance [DecidableEq α] : Decidable (OccursAt pat text m) :=
  inferInstanceAs (Decidable (pat <+: text.drop m))

theorem OccursAt.lt_length (h : OccursAt pat text m) (hpat : pat ≠ []) : m < text.length := by
  have hlen := h.length_le
  have hpos := List.length_pos_of_ne_nil hpat
  rw [List.length_drop] at hlen
  omega

theorem occursAt_drop {i : ℕ} : OccursAt pat (text.drop i) m ↔ OccursAt pat text (i + m) := by
  rw [OccursAt, OccursAt, List.drop_drop]

theorem Mismatch.ne_nil (h : Mismatch pat w) : w ≠ [] := by
  obtain ⟨v, a, rest, b, -, rfl, -⟩ := h
  exact List.concat_ne_nil b v

theorem Mismatch.pattern_ne_nil (h : Mismatch pat w) : pat ≠ [] := by
  obtain ⟨v, a, rest, b, rfl, -, -⟩ := h
  simp

theorem Mismatch.length_le (h : Mismatch pat w) : w.length ≤ pat.length := by
  obtain ⟨v, a, rest, b, rfl, rfl, -⟩ := h
  simp

theorem Mismatch.not_prefix (h : Mismatch pat w) : ¬ w <+: pat := by
  obtain ⟨v, a, rest, b, rfl, rfl, hne⟩ := h
  intro hpre
  have hcons : [b] <+: a :: rest := (List.prefix_append_right_inj v).mp hpre
  exact hne (List.cons_prefix_cons.mp hcons).1.symm

/-- A text that begins with a mismatch does not begin with the pattern. -/
theorem Mismatch.not_occurs (h : Mismatch pat w) (hw : w <+: text) : ¬ pat <+: text :=
  fun hpat => h.not_prefix (List.prefix_of_prefix_length_le hw hpat h.length_le)

theorem Mismatch.eq_of_prefix (h : Mismatch pat v) (h' : Mismatch pat w) (hle : v <+: w) : v = w := by
  obtain ⟨u, a, rest, b, rfl, rfl, -⟩ := h'
  obtain hin | hall := List.prefix_concat_iff.mp hle |>.symm
  · exact absurd (hin.trans (List.prefix_append u _)) h.not_prefix
  · exact hall

/-- A text begins with at most one mismatch. -/
theorem Mismatch.unique (h : Mismatch pat v) (h' : Mismatch pat w) (hv : v <+: text)
    (hw : w <+: text) : v = w := by
  obtain hle | hle := List.prefix_or_prefix_of_prefix hv hw
  · exact h.eq_of_prefix h' hle
  · exact (h'.eq_of_prefix h hle).symm

/-- What is in front of an occurrence begins with the mismatch that the text begins with. -/
theorem mismatches_take_iff {k : ℕ} (hk : Mismatch pat (text.take k)) (hm : OccursAt pat text m) :
    Mismatches pat (text.take m) ↔ k ≤ m ∧ Mismatches pat ((text.drop k).take (m - k)) := by
  have hpre := List.take_prefix k text
  have hsplit (hle : k ≤ m) : text.take m = text.take k ++ (text.drop k).take (m - k) := by
    rw [← List.take_add, Nat.add_sub_cancel' hle]
  constructor
  · intro h
    generalize hfront : text.take m = front at h
    cases h with
    | nil =>
      -- the pattern does not occur where the mismatch is
      rcases List.take_eq_nil_iff.mp hfront with rfl | rfl
      · exact absurd hm (hk.not_occurs hpre)
      · rw [List.take_nil] at hk
        exact absurd rfl hk.ne_nil
    | @append w ws hw hws =>
      have hwpre : w <+: text :=
        (List.prefix_append w ws).trans (hfront ▸ List.take_prefix m text)
      obtain rfl := hw.unique hk hwpre hpre
      have hlt := hm.lt_length hk.pattern_ne_nil
      have hlen := congrArg List.length hfront
      simp only [List.length_append, List.length_take] at hlen
      have hle : k ≤ m := by omega
      rw [hsplit hle] at hfront
      rw [List.append_cancel_left hfront]
      exact ⟨hle, hws⟩
  · rintro ⟨hle, h⟩
    rw [hsplit hle]
    exact .append hk h

section Search

variable [DecidableEq α]

/-- How far the pattern and the text agree. -/
def common : List α → List α → ℕ
  | a :: pat, b :: text => if a = b then common pat text + 1 else 0
  | _, _ => 0

theorem common_lt (hlen : pat.length ≤ text.length) (h : ¬ pat <+: text) :
    common pat text < pat.length := by
  induction pat generalizing text with
  | nil => exact absurd List.nil_prefix h
  | cons a pat ih =>
    cases text with
    | nil => exact absurd hlen (by simp)
    | cons b text =>
      rw [common, List.length_cons]
      split
      · next hab =>
        refine Nat.succ_lt_succ (ih (Nat.le_of_succ_le_succ hlen) fun hpre => h ?_)
        exact List.cons_prefix_cons.mpr ⟨hab, hpre⟩
      · exact Nat.succ_pos _

theorem occurs_or_mismatch (hlen : pat.length ≤ text.length) :
    pat <+: text ∨ Mismatch pat (text.take (common pat text + 1)) := by
  induction pat generalizing text with
  | nil => exact .inl (List.nil_prefix)
  | cons a pat ih =>
    cases text with
    | nil => exact absurd hlen (by simp)
    | cons b text =>
      by_cases hab : a = b
      · subst hab
        obtain hpre | ⟨v, c, rest, d, hpat, htext, hne⟩ := ih (Nat.le_of_succ_le_succ hlen)
        · exact .inl (List.cons_prefix_cons.mpr ⟨rfl, hpre⟩)
        · refine .inr ⟨a :: v, c, rest, d, by rw [hpat]; rfl, ?_, hne⟩
          rw [common, if_pos rfl, List.take_succ_cons, htext]
          rfl
      · exact .inr ⟨[], a, pat, b, rfl, by simp [common, hab], hab⟩

/-- The search. -/
def scan (pat text : List α) : Option ℕ :=
  if text.length < pat.length then none
  else if pat <+: text then some 0
  else (scan pat (text.drop (common pat text + 1))).map (common pat text + 1 + ·)
termination_by text.length
decreasing_by
  rename_i hlen hpat
  have hpos : pat ≠ [] := fun h => hpat (h ▸ List.nil_prefix)
  have := List.length_pos_of_ne_nil hpos
  rw [List.length_drop]
  omega

/-- The search returns an occurrence that mismatches lead to. -/
theorem scan_eq_some_iff (hpat : pat ≠ []) :
    scan pat text = some m ↔ OccursAt pat text m ∧ Mismatches pat (text.take m) := by
  fun_induction scan pat text generalizing m with
  | case1 text hshort =>
    refine iff_of_false (by simp) fun h => ?_
    have hlen := h.1.length_le
    rw [List.length_drop] at hlen
    omega
  | case2 text _ hhere =>
    constructor
    · rintro ⟨⟩
      exact ⟨hhere, .nil⟩
    · rintro ⟨hm, hskip⟩
      generalize hfront : text.take m = front at hskip
      cases hskip with
      | nil =>
        rcases List.take_eq_nil_iff.mp hfront with rfl | rfl
        · rfl
        · exact absurd (List.prefix_nil.mp hhere) hpat
      | append hw _ =>
        have hpre := (List.prefix_append _ _).trans (hfront ▸ List.take_prefix m text)
        exact absurd hhere (hw.not_occurs hpre)
  | case3 text hlen hnot ih =>
    have hfirst := (occurs_or_mismatch (not_lt.mp hlen)).resolve_left hnot
    rw [Option.map_eq_some_iff]
    constructor
    · rintro ⟨m', hm', rfl⟩
      obtain ⟨hocc, hskip⟩ := ih.mp hm'
      have hocc := occursAt_drop.mp hocc
      refine ⟨hocc, (mismatches_take_iff hfirst hocc).mpr ⟨Nat.le_add_right _ _, ?_⟩⟩
      rwa [Nat.add_sub_cancel_left]
    · rintro ⟨hocc, hskip⟩
      obtain ⟨hle, hskip⟩ := (mismatches_take_iff hfirst hocc).mp hskip
      rw [← Nat.add_sub_cancel' hle] at hocc
      exact ⟨_, ih.mpr ⟨occursAt_drop.mpr hocc, hskip⟩, Nat.add_sub_cancel' hle⟩

end Search

/-! ### Patterns of one element -/

/-- All elements of the pattern are equal. -/
def Uniform (pat : List α) : Prop := ∀ a ∈ pat, ∀ b ∈ pat, a = b

/-- No occurrence of a uniform pattern reaches over an element that differs. -/
theorem Uniform.le_of_occursAt {k : ℕ} (h : Uniform pat) (hk : Mismatch pat (text.take k))
    (hm : OccursAt pat text m) : k ≤ m := by
  have hlt := hm.lt_length hk.pattern_ne_nil
  obtain ⟨v, a, rest, b, rfl, htake, hne⟩ := hk
  have hlen := congrArg List.length htake
  simp only [List.length_take, List.length_append, List.length_singleton] at hlen
  by_contra hgt
  have hin : v.length - m < (v ++ a :: rest).length := by
    rw [List.length_append, List.length_cons]
    omega
  -- the element that differs, as the occurrence has it
  have hocc := List.prefix_iff_getElem?.mp hm _ hin
  rw [List.getElem?_drop, show m + (v.length - m) = v.length by omega] at hocc
  have hb : text[v.length]? = some b := by
    have := congrArg (·[v.length]?) htake
    simpa [List.getElem?_take, show v.length < k by omega] using this
  rw [hb] at hocc
  have heq : a = (v ++ a :: rest)[v.length - m] := h _ (by simp) _ (List.getElem_mem hin)
  exact hne (heq.trans (Option.some.inj hocc).symm)

/-- A uniform pattern has only mismatches in front of its first occurrence. -/
theorem Uniform.mismatches (h : Uniform pat) (hpat : pat ≠ [])
    (hm : IsLeast {i | OccursAt pat text i} m) : Mismatches pat (text.take m) := by
  classical
  induction hn : text.length using Nat.strong_induction_on generalizing text m with
  | _ n ih =>
    by_cases hpre : pat <+: text
    · obtain rfl : m = 0 := Nat.le_zero.mp (hm.2 hpre)
      exact .nil
    · have hlt := hm.1.lt_length hpat
      have hlen := hm.1.length_le
      rw [List.length_drop] at hlen
      have hfirst : Mismatch pat (text.take (common pat text + 1)) :=
        (occurs_or_mismatch (by omega)).resolve_left hpre
      have hle := h.le_of_occursAt hfirst hm.1
      refine (mismatches_take_iff hfirst hm.1).mpr ⟨hle, ih _ ?_ ⟨?_, fun i hi => ?_⟩ rfl⟩
      · rw [List.length_drop]
        omega
      · change OccursAt pat _ _
        rw [occursAt_drop, Nat.add_sub_cancel' hle]
        exact hm.1
      · have := hm.2 (occursAt_drop.mp hi)
        omega

theorem uniform_of_prefix_cons (h : l <+: a :: l) : ∀ b ∈ l, b = a := by
  induction l with
  | nil => exact fun _ hb => nomatch hb
  | cons c l ih =>
    obtain ⟨rfl, htail⟩ := List.cons_prefix_cons.mp h
    intro b hb
    rcases List.mem_cons.mp hb with rfl | hb
    · rfl
    · exact ih htail b hb

/-- Behind its own first element a pattern that is not uniform is missed. -/
theorem exists_missed (h : ¬ Uniform pat) :
    ∃ a, IsLeast {i | OccursAt pat (a :: pat) i} 1 ∧ ¬ Mismatches pat ((a :: pat).take 1) := by
  cases pat with
  | nil => exact absurd (fun _ ha => nomatch ha) h
  | cons a pat =>
    refine ⟨a, ⟨List.prefix_rfl, fun i hi => ?_⟩, fun hskip => ?_⟩
    · refine Nat.one_le_iff_ne_zero.mpr fun hzero => h fun b hb c hc => ?_
      have hpre : a :: pat <+: a :: a :: pat := by rwa [hzero] at hi
      rw [uniform_of_prefix_cons hpre b hb, uniform_of_prefix_cons hpre c hc]
    · generalize hfront : (a :: a :: pat).take 1 = front at hskip
      cases hskip with
      | nil => cases hfront
      | append hw _ =>
        -- a mismatch of one element differs from the first of the pattern
        obtain ⟨v, c, rest, b, hpat, rfl, hne⟩ := hw
        cases v with
        | nil =>
          cases hpat
          cases hfront
          exact hne rfl
        | cons d v =>
          have := congrArg List.length hfront
          simp at this

end QuietLwip.Matching
