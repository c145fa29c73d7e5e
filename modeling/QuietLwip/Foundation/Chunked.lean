import Mathlib.Tactic

/-!
# Programs that read a stream field by field

A `Reader` asks for a number of elements at a time and goes on with those that it gets. How many it gets
of a stream is up to the cut: at least one and at most as many as it asked for. A program that gives up
as soon as it gets fewer than it asked for cannot hide where the stream was cut: its result and what it
takes from the stream are the same under two cuts exactly when these return the same of every field, up
to the first field that is not returned whole.
-/

namespace QuietLwip.Chunked

variable {α β γ : Type}

/-- A program that ends with a result, or asks for `n` elements. -/
inductive Reader (α β : Type) where
  | done (b : β)
  | read (n : ℕ) (k : List α → Reader α β)

namespace Reader

def bind : Reader α β → (β → Reader α γ) → Reader α γ
  | done b, f => f b
  | read n k, f => read n fun l => (k l).bind f

instance : Monad (Reader α) where
  pure := done
  bind := bind

/-- The elements that a call that asks for `n` returns. -/
def ask (n : ℕ) : Reader α (List α) := read n done

end Reader

/-- How many of `n` elements are returned out of `avail`, when the cut is after `cut` of them. -/
def returned (n avail cut : ℕ) : ℕ := min (min n avail) (max 1 cut)

/-- The result under a cut, and the number of elements taken from the stream. A cut that says no more
returns everything. -/
def Reader.run : Reader α β → List α → List ℕ → β × ℕ
  | done b, _, _ => (b, 0)
  | read n k, s, cuts =>
    let r := returned n s.length (cuts.headD n)
    let x := (k (s.take r)).run (s.drop r) cuts.tail
    (x.1, r + x.2)

/-- The fields that are asked for when each is returned whole, up to one that the stream does not
have. -/
def Reader.fields : Reader α β → List α → List ℕ
  | done _, _ => []
  | read n k, s => n :: if n ≤ s.length then (k (s.take n)).fields (s.drop n) else []

/-- The two cuts return the same of every field, up to the first that is not returned whole. -/
def SameCut : List ℕ → ℕ → List ℕ → List ℕ → Prop
  | [], _, _, _ => True
  | n :: ns, avail, cuts, cuts' =>
    returned n avail (cuts.headD n) = returned n avail (cuts'.headD n) ∧
      (returned n avail (cuts.headD n) = n → SameCut ns (avail - n) cuts.tail cuts'.tail)

/-- A field that is not returned whole ends the program, with a result that `stop` describes. -/
def Reader.Strict (stop : β → Prop) : Reader α β → Prop
  | done _ => True
  | read n k => (∀ l : List α, l.length < n → ∃ b, stop b ∧ k l = done b) ∧
      ∀ l : List α, l.length = n → (k l).Strict stop

variable {stop : β → Prop} {stop' : γ → Prop} {p : Reader α β} {n avail cut : ℕ} {s : List α}
  {cuts cuts' : List ℕ}

theorem returned_le (n avail cut : ℕ) : returned n avail cut ≤ n :=
  (min_le_left _ _).trans (min_le_left _ _)

theorem returned_le_avail (n avail cut : ℕ) : returned n avail cut ≤ avail :=
  (min_le_left _ _).trans (min_le_right _ _)

/-- A field that is delivered whole -/
theorem Reader.run_whole {k : List α → Reader α β} {l : List α} (h : l.length = n) (s : List α) :
    ((read n k).run (l ++ s) []).1 = ((k l).run s []).1 := by
  have hall : returned n (l ++ s).length (([] : List ℕ).headD n) = n := by
    rw [returned, List.length_append, List.headD_nil]
    omega
  rw [run, hall, List.take_left' h, List.drop_left' h]
  rfl

/-- A program that ends behind its only field is strict. -/
theorem Reader.Strict.of_done {k : List α → Reader α β}
    (hshort : ∀ l : List α, l.length < n → ∃ b, stop b ∧ k l = done b)
    (hwhole : ∀ l : List α, l.length = n → ∃ b, k l = done b) : (read n k).Strict stop := by
  refine ⟨hshort, fun l hl => ?_⟩
  obtain ⟨b, hb⟩ := hwhole l hl
  rw [hb]
  trivial

theorem Reader.fields_of_done {k : List α → Reader α β} (h : ∀ l, ∃ b, k l = done b) (s : List α) :
    (read n k).fields s = [n] := by
  obtain ⟨b, hb⟩ := h (s.take n)
  rw [fields, hb, fields]
  split <;> rfl

/-- A program is strict when its parts are, and what the first part ends with when it gives up ends the
whole. -/
theorem Reader.Strict.bind {f : β → Reader α γ} (hp : p.Strict stop)
    (hstop : ∀ b, stop b → ∃ c, stop' c ∧ f b = done c) (hf : ∀ b, (f b).Strict stop') :
    (p >>= f).Strict stop' := by
  induction p with
  | done b => exact hf b
  | read n k ih =>
    obtain ⟨hshort, hwhole⟩ := hp
    refine ⟨fun l hl => ?_, fun l hl => ih l (hwhole l hl)⟩
    obtain ⟨b, hb, hk⟩ := hshort l hl
    obtain ⟨c, hc, hfb⟩ := hstop b hb
    refine ⟨c, hc, ?_⟩
    change (k l).bind f = _
    rw [hk]
    exact hfb

/-- A field that is not returned whole is all that the program still takes. -/
theorem run_of_short {k : List α → Reader α β} (hp : (Reader.read n k).Strict stop)
    (hshort : returned n s.length (cuts.headD n) < n) :
    ∃ b, (Reader.read n k).run s cuts = (b, returned n s.length (cuts.headD n)) ∧
      k (s.take (returned n s.length (cuts.headD n))) = .done b := by
  have hlen : (s.take (returned n s.length (cuts.headD n))).length < n := by
    rw [List.length_take]
    omega
  obtain ⟨b, -, hb⟩ := hp.1 _ hlen
  refine ⟨b, ?_, hb⟩
  simp only [Reader.run, hb, Nat.add_zero]

/-- The cut shows in the number of elements taken, wherever it is not the same. -/
theorem run_eq_iff (hp : p.Strict stop) (s : List α) (cuts cuts' : List ℕ) :
    p.run s cuts = p.run s cuts' ↔ SameCut (p.fields s) s.length cuts cuts' := by
  induction p generalizing s cuts cuts' with
  | done b => exact iff_of_true rfl trivial
  | read n k ih =>
    rw [Reader.fields, SameCut]
    obtain ⟨r, hr⟩ : ∃ r, returned n s.length (cuts.headD n) = r := ⟨_, rfl⟩
    obtain ⟨r', hr'⟩ : ∃ r', returned n s.length (cuts'.headD n) = r' := ⟨_, rfl⟩
    have hle := returned_le n s.length (cuts.headD n)
    have hle' := returned_le n s.length (cuts'.headD n)
    have hrun : (Reader.read n k).run s cuts = (((k (s.take r)).run (s.drop r) cuts.tail).1,
        r + ((k (s.take r)).run (s.drop r) cuts.tail).2) := by rw [← hr]; rfl
    have hrun' : (Reader.read n k).run s cuts' = (((k (s.take r')).run (s.drop r') cuts'.tail).1,
        r' + ((k (s.take r')).run (s.drop r') cuts'.tail).2) := by rw [← hr']; rfl
    rw [hr] at hle ⊢
    rw [hr'] at hle' ⊢
    by_cases heq : r = r'
    · subst heq
      by_cases hwhole : r = n
      · -- both go on behind the field
        have havail : n ≤ s.length := by
          have := returned_le_avail n s.length (cuts.headD n)
          omega
        subst hwhole
        have hlen : (s.take r).length = r := List.length_take_of_le havail
        have hih := ih (s.take r) (hp.2 _ hlen) (s.drop r) cuts.tail cuts'.tail
        rw [List.length_drop] at hih
        rw [if_pos havail, hrun, hrun', ← hih]
        simp only [Nat.add_left_cancel_iff, true_and, true_imp_iff, Prod.ext_iff]
      · -- both give up
        have hshort : returned n s.length (cuts.headD n) < n := by omega
        have hshort' : returned n s.length (cuts'.headD n) < n := by omega
        obtain ⟨b, hb, hk⟩ := run_of_short hp hshort
        obtain ⟨b', hb', hk'⟩ := run_of_short hp hshort'
        rw [hr] at hb hk
        rw [hr'] at hb' hk'
        obtain rfl : b = b' := by simpa using hk.symm.trans hk'
        rw [hb, hb']
        exact iff_of_true rfl ⟨rfl, fun h => absurd h hwhole⟩
    · refine iff_of_false (fun h => ?_) fun h => heq h.1
      -- the run that gets less of the field gives up
      rcases Nat.lt_or_gt_of_ne heq with hlt | hgt
      · obtain ⟨b, hb, -⟩ := run_of_short hp (show returned n s.length (cuts.headD n) < n by omega)
        rw [hr] at hb
        have hsnd := congrArg Prod.snd h
        rw [hb, hrun'] at hsnd
        simp only at hsnd
        omega
      · obtain ⟨b, hb, -⟩ := run_of_short hp (show returned n s.length (cuts'.headD n) < n by omega)
        rw [hr'] at hb
        have hsnd := congrArg Prod.snd h
        rw [hrun, hb] at hsnd
        simp only at hsnd
        omega

end QuietLwip.Chunked
