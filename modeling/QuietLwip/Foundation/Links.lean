import Mathlib.Algebra.BigOperators.Group.Finset.Piecewise
import Mathlib.Data.List.Nodup
import Mathlib.Logic.Function.Basic

/-!
# Singly linked lists in a memory

Nodes are linked by a partial function `next`; a list is reached from its head. A list that is
reached is never cyclic, so no node occurs in it twice. What pushing and unlinking a node do
to the links is said in terms of the list of nodes; lists without the node keep theirs.
-/

namespace QuietLwip.Links

variable {α : Type*} {next next' : α → Option α} {h : Option α} {l front back : List α} {a m n : α}

/-- From the head `h` the nodes `l` are reached, in this order. -/
def ListAt (next : α → Option α) : Option α → List α → Prop
  | h, [] => h = none
  | h, a :: l => h = some a ∧ ListAt next (next a) l

theorem ListAt.unique {l' : List α} (hl : ListAt next h l) (hl' : ListAt next h l') : l = l' := by
  induction l generalizing h l' with
  | nil =>
    cases l' with
    | nil => rfl
    | cons b l' => cases hl.symm.trans hl'.1
  | cons a l ih =>
    cases l' with
    | nil => cases hl.1.symm.trans hl'
    | cons b l' =>
      obtain rfl : a = b := Option.some.inj (hl.1.symm.trans hl'.1)
      rw [ih hl.2 hl'.2]

theorem ListAt.head (hl : ListAt next h l) : l.head? = h := by
  cases l with
  | nil => exact hl.symm
  | cons a l => exact hl.1.symm

/-- What is reached from a node of the list. -/
theorem ListAt.from (hl : ListAt next h (front ++ a :: back)) : ListAt next (next a) back := by
  induction front generalizing h with
  | nil => exact hl.2
  | cons b front ih => exact ih hl.2

theorem ListAt.nodup (hl : ListAt next h l) : l.Nodup := by
  induction l generalizing h with
  | nil => exact List.nodup_nil
  | cons a l ih =>
    refine List.nodup_cons.mpr ⟨?_, ih hl.2⟩
    intro ha
    -- the list behind the second `a` would be the list behind the first one
    obtain ⟨front, back, rfl⟩ := List.append_of_mem ha
    have hlen := congrArg List.length (hl.2.unique hl.2.from)
    simp only [List.length_append, List.length_cons] at hlen
    omega

/-- A node that points to itself begins no list. -/
theorem not_listAt_of_self (ha : next a = some a) : ¬ ListAt next (some a) l := by
  intro hl
  cases l with
  | nil => cases hl
  | cons b l =>
    obtain rfl : a = b := Option.some.inj hl.1
    have hrest := hl.2
    rw [ha] at hrest
    exact (List.nodup_cons.mp hl.nodup).1 (List.mem_of_mem_head? hrest.head)

theorem ListAt.congr (hl : ListAt next h l) (hsame : ∀ a ∈ l, next' a = next a) :
    ListAt next' h l := by
  induction l generalizing h with
  | nil => exact hl
  | cons a l ih =>
    refine ⟨hl.1, ?_⟩
    rw [hsame a (List.mem_cons_self ..)]
    exact ih hl.2 fun b hb => hsame b (List.mem_cons_of_mem _ hb)

theorem not_mem_of_nodup (h : (front ++ a :: back).Nodup) : a ∉ front ++ back :=
  (List.nodup_cons.mp (List.nodup_middle.mp h)).1

theorem erase_of_nodup [DecidableEq α] (h : (front ++ a :: back).Nodup) :
    (front ++ a :: back).erase a = front ++ back := by
  have ha : a ∉ front := fun ha => not_mem_of_nodup h (List.mem_append_left _ ha)
  rw [List.erase_append_right _ ha, List.erase_cons_head]

section Update

variable [DecidableEq α]

/-- A list that a node is not in does not depend on its link. -/
theorem ListAt.update (hl : ListAt next h l) (ha : a ∉ l) (p : Option α) :
    ListAt (Function.update next a p) h l := by
  refine hl.congr fun b hb => Function.update_of_ne ?_ _ _
  rintro rfl
  exact ha hb

/-- Pushing a node in front of the list. -/
theorem ListAt.push (hl : ListAt next h l) (ha : a ∉ l) :
    ListAt (Function.update next a h) (some a) (a :: l) := by
  refine ⟨rfl, ?_⟩
  rw [Function.update_self]
  exact hl.update ha h

/-- Behind a node another list goes on. -/
theorem ListAt.relink {q : Option α} {l : List α} (hl : ListAt next h (front ++ m :: back))
    (hq : ListAt next q l) (hm : m ∉ l) :
    ListAt (Function.update next m q) h (front ++ m :: l) := by
  have hnodup := hl.nodup
  induction front generalizing h with
  | nil =>
    refine ⟨hl.1, ?_⟩
    rw [Function.update_self]
    exact hq.update hm _
  | cons b front ih =>
    have hbm : b ≠ m := by
      rintro rfl
      exact (List.nodup_cons.mp hnodup).1 (by simp)
    refine ⟨hl.1, ?_⟩
    rw [Function.update_of_ne hbm]
    exact ih hl.2 (List.nodup_cons.mp hnodup).2

/-- Unlinking a node behind another one. -/
theorem ListAt.unlink (hl : ListAt next h (front ++ m :: n :: back)) :
    ListAt (Function.update next m (next n)) h (front ++ m :: back) := by
  have hback : ListAt next (next n) back := by
    rw [show front ++ m :: n :: back = (front ++ [m]) ++ n :: back by simp] at hl
    exact hl.from
  refine hl.relink hback fun hm => ?_
  exact not_mem_of_nodup hl.nodup (List.mem_append_right _ (List.mem_cons_of_mem _ hm))

/-- Moving a node that has one in front of it to the front. -/
theorem ListAt.toFront (hl : ListAt next h (front ++ m :: n :: back)) :
    ListAt (Function.update (Function.update next m (next n)) n h) (some n)
      (n :: (front ++ m :: back)) := by
  refine hl.unlink.push ?_
  have hnodup : ((front ++ [m]) ++ n :: back).Nodup := by
    rw [List.append_assoc]
    exact hl.nodup
  have hn := not_mem_of_nodup hnodup
  rw [List.append_assoc] at hn
  exact hn

end Update

/-! ### Walks -/

/-- The nodes met on the way from `h` to the end; `none` when there are more than `fuel`. -/
def walk (next : α → Option α) : ℕ → Option α → Option (List α)
  | _, none => some []
  | 0, some _ => none
  | fuel + 1, some a => (walk next fuel (next a)).map (a :: ·)

theorem ListAt.walk {fuel : ℕ} (hl : ListAt next h l) (hfuel : l.length ≤ fuel) :
    walk next fuel h = some l := by
  induction l generalizing h fuel with
  | nil =>
    obtain rfl : h = none := hl
    cases fuel <;> rfl
  | cons a l ih =>
    obtain ⟨rfl, hl⟩ := hl
    cases fuel with
    | zero => exact absurd hfuel (Nat.not_succ_le_zero _)
    | succ fuel =>
      rw [Links.walk, ih hl (Nat.le_of_succ_le_succ hfuel)]
      rfl

/-- A walk that ends has met a list. -/
theorem listAt_of_walk {fuel : ℕ} (hw : walk next fuel h = some l) : ListAt next h l := by
  induction fuel generalizing h l with
  | zero =>
    cases h with
    | none =>
      cases hw
      rfl
    | some a => cases hw
  | succ fuel ih =>
    cases h with
    | none =>
      cases hw
      rfl
    | some a =>
      obtain ⟨l', hl', rfl⟩ := Option.map_eq_some_iff.mp hw
      exact ⟨rfl, ih hl'⟩

variable [DecidableEq α]

/-- The first node met that points to `n`; the outer value is `none` when it is not among the
first `fuel` ones. -/
def findPrev (next : α → Option α) (n : α) : ℕ → Option α → Option (Option α)
  | _, none => some none
  | 0, some _ => none
  | fuel + 1, some m => if next m = some n then some (some m) else findPrev next n fuel (next m)

theorem ListAt.of_findPrev_some {fuel : ℕ} (hl : ListAt next h l)
    (hf : findPrev next n fuel h = some (some m)) :
    ∃ front back, l = front ++ m :: n :: back := by
  induction l generalizing h fuel with
  | nil =>
    obtain rfl : h = none := hl
    cases fuel <;> cases hf
  | cons b l ih =>
    obtain ⟨rfl, hl⟩ := hl
    cases fuel with
    | zero => cases hf
    | succ fuel =>
      rw [findPrev] at hf
      split at hf
      · rename_i hbn
        obtain rfl : b = m := Option.some.inj (Option.some.inj hf)
        rw [hbn] at hl
        cases l with
        | nil => cases hl
        | cons c back =>
          cases hl.1
          exact ⟨[], back, rfl⟩
      · obtain ⟨front, back, rfl⟩ := ih hl hf
        exact ⟨b :: front, back, rfl⟩

theorem ListAt.of_findPrev_none {fuel : ℕ} (hl : ListAt next h l)
    (hf : findPrev next n fuel h = some none) : n ∉ l.tail := by
  induction l generalizing h fuel with
  | nil => exact List.not_mem_nil
  | cons b l ih =>
    obtain ⟨rfl, hl⟩ := hl
    cases fuel with
    | zero => cases hf
    | succ fuel =>
      rw [findPrev] at hf
      split at hf
      · cases hf
      · rename_i hbn
        cases l with
        | nil => exact List.not_mem_nil
        | cons c back =>
          intro hn
          refine (List.mem_cons.mp hn).elim ?_ (ih hl hf)
          rintro rfl
          exact hbn hl.1

/-- The node that the search ends at points to `n`. -/
theorem next_of_findPrev {fuel : ℕ} (hf : findPrev next n fuel h = some (some m)) :
    next m = some n := by
  induction fuel generalizing h with
  | zero => cases h <;> cases hf
  | succ fuel ih =>
    cases h with
    | none => cases hf
    | some b =>
      rw [findPrev] at hf
      split at hf
      · cases hf
        assumption
      · exact ih hf

/-- The first node met that satisfies `p`, with the one met before it; the outer value is `none`
when the first `fuel` nodes do not satisfy `p` and there are more. -/
def findFrom (next : α → Option α) (p : α → Bool) :
    ℕ → Option α → Option α → Option (Option (Option α × α))
  | _, _, none => some none
  | 0, _, some _ => none
  | fuel + 1, prev, some a =>
    if p a then some (some (prev, a)) else findFrom next p fuel (some a) (next a)

omit [DecidableEq α] in
theorem ListAt.of_findFrom {p : α → Bool} {fuel : ℕ} {prev q : Option α} (hl : ListAt next h l)
    (hf : findFrom next p fuel prev h = some (some (q, a))) :
    ∃ front back, l = front ++ a :: back ∧ q = (front.getLast?).or prev := by
  induction l generalizing h fuel prev with
  | nil =>
    obtain rfl : h = none := hl
    cases fuel <;> cases hf
  | cons b l ih =>
    obtain ⟨rfl, hl⟩ := hl
    cases fuel with
    | zero => cases hf
    | succ fuel =>
      rw [findFrom] at hf
      split at hf
      · cases hf
        exact ⟨[], l, rfl, rfl⟩
      · obtain ⟨front, back, rfl, rfl⟩ := ih hl hf
        refine ⟨b :: front, back, rfl, ?_⟩
        cases hfront : front.getLast? with
        | none =>
          rw [List.getLast?_eq_none_iff.mp hfront]
          rfl
        | some c =>
          rw [List.getLast?_cons, hfront]
          rfl

omit [DecidableEq α] in
/-- The search of a list comes to its end. -/
theorem ListAt.findFrom_isSome {p : α → Bool} {fuel : ℕ} {prev : Option α} (hl : ListAt next h l)
    (hfuel : l.length ≤ fuel) : (findFrom next p fuel prev h).isSome := by
  induction l generalizing h fuel prev with
  | nil =>
    obtain rfl : h = none := hl
    cases fuel <;> rfl
  | cons b l ih =>
    obtain ⟨rfl, hl⟩ := hl
    cases fuel with
    | zero => exact absurd hfuel (Nat.not_succ_le_zero _)
    | succ fuel =>
      rw [findFrom]
      split
      · rfl
      · exact ih hl (Nat.le_of_succ_le_succ hfuel)

omit [DecidableEq α] in
theorem findFrom_holds {p : α → Bool} {fuel : ℕ} {prev q : Option α}
    (hf : findFrom next p fuel prev h = some (some (q, a))) : p a = true := by
  induction fuel generalizing h prev with
  | zero => cases h <;> cases hf
  | succ fuel ih =>
    cases h with
    | none => cases hf
    | some b =>
      rw [findFrom] at hf
      split at hf
      · cases hf
        assumption
      · exact ih hf

omit [DecidableEq α] in
theorem ListAt.of_findFrom_none {p : α → Bool} {fuel : ℕ} {prev : Option α}
    (hl : ListAt next h l) (hf : findFrom next p fuel prev h = some none) :
    ∀ b ∈ l, p b = false := by
  induction l generalizing h fuel prev with
  | nil => exact fun b hb => absurd hb List.not_mem_nil
  | cons b l ih =>
    obtain ⟨rfl, hl⟩ := hl
    cases fuel with
    | zero => cases hf
    | succ fuel =>
      rw [findFrom] at hf
      split at hf
      · cases hf
      · rename_i hb
        exact List.forall_mem_cons.mpr ⟨Bool.eq_false_iff.mpr hb, ih hl hf⟩

omit [DecidableEq α] in
/-- Searched to its end, the list is known to have such a node or not. -/
theorem ListAt.findFrom_any {p : α → Bool} {fuel : ℕ} {prev : Option α} (hl : ListAt next h l)
    (hfuel : l.length ≤ fuel) : (findFrom next p fuel prev h).map Option.isSome = some (l.any p) := by
  obtain ⟨found, hfound⟩ := Option.isSome_iff_exists.mp (hl.findFrom_isSome hfuel)
  rw [hfound, Option.map_some]
  apply congrArg some
  symm
  cases found with
  | none =>
    rw [Option.isSome_none, List.any_eq_false]
    exact fun b hb => Bool.eq_false_iff.mp (hl.of_findFrom_none hfound b hb)
  | some found =>
    obtain ⟨front, back, rfl, -⟩ := hl.of_findFrom hfound
    rw [Option.isSome_some, List.any_eq_true]
    exact ⟨found.2, List.mem_append_right _ List.mem_cons_self, findFrom_holds hfound⟩

/-! ### Lists linked in both directions -/

variable {prev prev' : α → Option α} {p : Option α}

/-- Each of the nodes points back to the one in front of it, and the first one to `p`. -/
def BackAt (prev : α → Option α) : Option α → List α → Prop
  | _, [] => True
  | p, a :: l => prev a = p ∧ BackAt prev (some a) l

omit [DecidableEq α] in
theorem BackAt.congr (hl : BackAt prev p l) (hsame : ∀ a ∈ l, prev' a = prev a) :
    BackAt prev' p l := by
  induction l generalizing p with
  | nil => trivial
  | cons a l ih =>
    refine ⟨(hsame a List.mem_cons_self).trans hl.1, ih hl.2 fun b hb => ?_⟩
    exact hsame b (List.mem_cons_of_mem _ hb)

omit [DecidableEq α] in
theorem backAt_append :
    BackAt prev p (front ++ l) ↔ BackAt prev p front ∧ BackAt prev (front.getLast?.or p) l := by
  induction front generalizing p with
  | nil => exact ⟨fun h => ⟨trivial, h⟩, And.right⟩
  | cons a front ih =>
    have hlast : (a :: front).getLast?.or p = front.getLast?.or (some a) := by
      cases hfront : front.getLast? with
      | none => rw [List.getLast?_eq_none_iff.mp hfront]; rfl
      | some b => rw [List.getLast?_cons, hfront]; rfl
    rw [hlast]
    constructor
    · rintro ⟨ha, hrest⟩
      exact ⟨⟨ha, (ih.mp hrest).1⟩, (ih.mp hrest).2⟩
    · rintro ⟨⟨ha, hfront⟩, hrest⟩
      exact ⟨ha, ih.mpr ⟨hfront, hrest⟩⟩

/-- `q->prev = p`, where there is a `q`. -/
def pointBack (prev : α → Option α) (q p : Option α) : α → Option α :=
  q.elim prev fun b => Function.update prev b p

theorem pointBack_of_ne {q : Option α} (ha : q ≠ some a) (p : Option α) :
    pointBack prev q p a = prev a := by
  cases q with
  | none => rfl
  | some b =>
    refine Function.update_of_ne ?_ _ _
    rintro rfl
    exact ha rfl

/-- What the first node of a list points back to can be changed. -/
theorem BackAt.pointBack (hl : BackAt prev p l) (hnodup : l.Nodup) (q : Option α) :
    BackAt (pointBack prev l.head? q) q l := by
  cases l with
  | nil => trivial
  | cons a l =>
    refine ⟨Function.update_self _ _ _, hl.2.congr fun b hb => Function.update_of_ne ?_ _ _⟩
    rintro rfl
    exact (List.nodup_cons.mp hnodup).1 hb

/-- From the head `h` the nodes `l` are reached, and the way back is the same one. -/
structure DoublyAt (next prev : α → Option α) (h : Option α) (l : List α) : Prop where
  forth : ListAt next h l
  back : BackAt prev none l

/-- Pushing a node in front of the list. -/
theorem DoublyAt.push (hl : DoublyAt next prev h l) (ha : a ∉ l) (hprev : prev a = none) :
    DoublyAt (Function.update next a h) (pointBack prev h (some a)) (some a) (a :: l) := by
  refine ⟨hl.forth.push ha, ?_⟩
  have hhead := hl.forth.head
  rw [← hhead]
  refine ⟨?_, hl.back.pointBack hl.forth.nodup _⟩
  cases l with
  | nil => exact hprev
  | cons b l =>
    refine (Function.update_of_ne ?_ _ _).trans hprev
    rintro rfl
    exact ha List.mem_cons_self

/-- Unlinking the first node. -/
theorem DoublyAt.unlink_head (hl : DoublyAt next prev h (a :: back)) :
    DoublyAt next (Links.pointBack prev (next a) (prev a)) (next a) back := by
  refine ⟨hl.forth.2, ?_⟩
  rw [← hl.forth.2.head, hl.back.1]
  exact hl.back.2.pointBack (List.nodup_cons.mp hl.forth.nodup).2 none

omit [DecidableEq α] in
/-- The node in front of another one is where that one points back to. -/
theorem DoublyAt.prev_eq (hl : DoublyAt next prev h (front ++ m :: n :: back)) :
    prev n = some m := (backAt_append.mp hl.back).2.2.1

/-- Unlinking a node behind another one. -/
theorem DoublyAt.unlink (hl : DoublyAt next prev h (front ++ m :: n :: back)) :
    DoublyAt (Function.update next m (next n)) (Links.pointBack prev (next n) (prev n)) h
      (front ++ m :: back) := by
  have hnodup : ((front ++ [m]) ++ n :: back).Nodup := by
    rw [List.append_assoc]
    exact hl.forth.nodup
  obtain ⟨-, hback, hdisj⟩ := List.nodup_append.mp hnodup
  have hlist : ListAt next (next n) back := by
    have hforth := hl.forth
    rw [show front ++ m :: n :: back = (front ++ [m]) ++ n :: back by simp] at hforth
    exact hforth.from
  refine ⟨hl.forth.unlink, ?_⟩
  have hboth := hl.back
  rw [show front ++ m :: n :: back = (front ++ [m]) ++ n :: back by simp, backAt_append] at hboth
  rw [show front ++ m :: back = (front ++ [m]) ++ back by simp, backAt_append, hl.prev_eq]
  refine ⟨hboth.1.congr fun b hb => ?_, ?_⟩
  · rw [← hlist.head]
    cases back with
    | nil => rfl
    | cons c back =>
      refine Function.update_of_ne ?_ _ _
      exact hdisj b hb c (List.mem_cons_of_mem _ List.mem_cons_self)
  · rw [List.getLast?_concat, ← hlist.head]
    exact hboth.2.2.pointBack (List.nodup_cons.mp hback).2 (some m)

/-! ### How many nodes link to a node -/

variable {s : Finset α} {out : α → Option α} {b : α}

/-- The number of the nodes in `s` that link to `b`. -/
def inDegree (s : Finset α) (out : α → Option α) (b : α) : ℕ := (s.filter fun a => out a = some b).card

theorem inDegree_pos_iff : 0 < inDegree s out b ↔ ∃ a ∈ s, out a = some b := by
  rw [inDegree, Finset.card_pos, Finset.filter_nonempty_iff]

/-- A node that links elsewhere takes its share of the count along. -/
theorem inDegree_update (ha : a ∈ s) (p : Option α) (b : α) :
    inDegree s (Function.update out a p) b + (if out a = some b then 1 else 0) =
      inDegree s out b + (if p = some b then 1 else 0) := by
  have hrest : ∑ c ∈ s.erase a, (if Function.update out a p c = some b then 1 else 0) =
      ∑ c ∈ s.erase a, (if out c = some b then 1 else 0) := by
    refine Finset.sum_congr rfl fun c hc => ?_
    rw [Function.update_of_ne (Finset.ne_of_mem_erase hc)]
  have hself : (if Function.update out a p a = some b then 1 else 0) =
      if p = some b then 1 else 0 := by
    rw [Function.update_self]
  simp only [inDegree, Finset.card_filter]
  rw [← Finset.add_sum_erase s _ ha, ← Finset.add_sum_erase s (fun c => if out c = some b then 1 else 0) ha,
    hrest, hself]
  omega

end QuietLwip.Links
