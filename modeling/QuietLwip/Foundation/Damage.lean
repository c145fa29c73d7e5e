import QuietLwip.Foundation.OnesComplement

/-!
# What a ones' complement sum detects

Bytes are damaged when one byte or two neighbouring ones have become others. Such a change moves the sum
by at most 65535 times a power of two, so that the sum notices it wherever it lies, unless two bytes that
are 0 have become 255 or the other way round.
-/

namespace QuietLwip.OnesComplement

/-- One byte or two neighbouring bytes of `l` have become others in `l'`. -/
structure Damaged (l l' : List UInt8) : Prop where
  cut : ∃ front x y back, l = front ++ (x ++ back) ∧ l' = front ++ (y ++ back) ∧ x.length = y.length ∧
    x.length ≤ 2 ∧ x ≠ y ∧ ¬(x = [0, 0] ∧ y = [255, 255]) ∧ ¬(x = [255, 255] ∧ y = [0, 0])

variable {l l' x y : List UInt8}

theorem Damaged.length (h : Damaged l l') : l'.length = l.length := by
  obtain ⟨front, x, y, back, rfl, rfl, hlen, -⟩ := h
  simp [hlen]

theorem value_lt (l : List UInt8) : value l < 256 ^ l.length := by
  induction l with
  | nil => simp
  | cons a l ih =>
    have ha := a.toNat_lt
    rw [value_cons, List.length_cons, pow_succ]
    omega

theorem value_injective (hlen : x.length = y.length) (h : value x = value y) : x = y := by
  induction x generalizing y with
  | nil => exact (List.length_eq_zero_iff.mp hlen.symm).symm
  | cons a x ih =>
    cases y with
    | nil => cases hlen
    | cons b y =>
      have ha := a.toNat_lt
      have hb := b.toNat_lt
      rw [value_cons, value_cons] at h
      have hab : a = b := UInt8.toNat_inj.mp (by omega)
      rw [hab, ih (Nat.succ.inj hlen) (by omega)]

/-- Two bytes with all their bits set -/
theorem eq_ones (hlen : x.length ≤ 2) (h : value x = 65535) : x = [255, 255] := by
  have hlt := value_lt x
  have htwo : x.length = 2 := by
    interval_cases hx : x.length <;> omega
  exact value_injective htwo (h.trans (by decide))

theorem eq_zeros (hlen : x.length = 2) (h : value x = 0) : x = [0, 0] :=
  value_injective hlen (h.trans (by decide))

/-- The sum of the damaged bytes is another one. -/
theorem Damaged.not_modEq (h : Damaged l l') : ¬ value l ≡ value l' [MOD 65535] := by
  obtain ⟨front, x, y, back, rfl, rfl, hlen, htwo, hne, hup, hdown⟩ := h
  intro hmod
  rw [value_append, value_append, value_append, value_append, hlen] at hmod
  have hcoprime : Nat.gcd 65535 (256 ^ front.length) = 1 := Nat.Coprime.pow_right _ (by decide)
  have hxy : value x ≡ value y [MOD 65535] :=
    (hmod.add_left_cancel' _).cancel_left_of_coprime hcoprime |>.add_right_cancel' _
  have hbound : ∀ z : List UInt8, z.length ≤ 2 → value z ≤ 65535 := by
    intro z hz
    have hlt := value_lt z
    have hpow : 256 ^ z.length ≤ 256 ^ 2 := Nat.pow_le_pow_right (by decide) hz
    omega
  have hx := hbound x htwo
  have hy := hbound y (hlen ▸ htwo)
  have hcases : value x = value y ∨ value x = 0 ∧ value y = 65535 ∨ value x = 65535 ∧ value y = 0 := by
    have hsame := hxy
    simp only [Nat.ModEq] at hsame
    omega
  rcases hcases with heq | ⟨hzero, hones⟩ | ⟨hones, hzero⟩
  · exact hne (value_injective hlen heq)
  · have hy := eq_ones (hlen ▸ htwo) hones
    exact hup ⟨eq_zeros (hlen.trans (by rw [hy]; rfl)) hzero, hy⟩
  · have hx := eq_ones htwo hones
    exact hdown ⟨hx, eq_zeros (hlen.symm.trans (by rw [hx]; rfl)) hzero⟩

/-- A sum that was right with the bytes is not right with the damaged ones. -/
theorem Damaged.residue_ne (h : Damaged l l') (n : ℕ) (hsum : residue (value l + n) = 65535) :
    residue (value l' + n) ≠ 65535 := by
  intro hsum'
  have hmod := residue_modEq (value l + n)
  have hmod' := residue_modEq (value l' + n)
  rw [hsum] at hmod
  rw [hsum'] at hmod'
  exact h.not_modEq ((hmod.symm.trans hmod').add_right_cancel' n)

theorem Damaged.not_verifies (h : Damaged l l') (hsum : Verifies l) : ¬ Verifies l' := by
  rw [verifies_iff] at hsum ⊢
  exact h.residue_ne 0 hsum

/-- The damage is in what lies in front of a place, or else all of it behind it. -/
theorem Damaged.split (h : Damaged l l') (n : ℕ) :
    Damaged (l.take n) (l'.take n) ∨ l'.take n = l.take n ∧ Damaged (l.drop n) (l'.drop n) := by
  obtain ⟨front, x, y, back, rfl, rfl, hlen, htwo, hne, hup, hdown⟩ := h
  rcases Nat.lt_or_ge front.length n with hlow | hhigh
  · rcases Nat.lt_or_ge n (front.length + x.length) with hin | hbehind
    · -- the place is between the two bytes
      obtain ⟨a, b, rfl⟩ : ∃ a b, x = [a, b] := List.length_eq_two.mp (by omega)
      obtain ⟨c, d, rfl⟩ : ∃ c d, y = [c, d] := List.length_eq_two.mp hlen.symm
      obtain rfl : n = front.length + 1 := by
        simp only [List.length_cons, List.length_nil] at hin
        omega
      by_cases hac : a = c
      · subst hac
        refine .inr ⟨by simp [List.take_append], front.drop (front.length + 1), [b], [d], back, ?_, ?_, rfl,
          one_le_two, fun hbd => hne (by rw [hbd]), by simp, by simp⟩
        · simp [List.drop_append]
        · simp [List.drop_append]
      · refine .inl ⟨front, [a], [c], [], ?_, ?_, rfl, one_le_two, fun heq => hac (List.cons.inj heq).1, by simp,
          by simp⟩
        · simp [List.take_append]
        · simp [List.take_append]
    · refine .inl ⟨front, x, y, back.take (n - front.length - x.length), ?_, ?_, hlen, htwo, hne, hup, hdown⟩
      · rw [List.take_append, List.take_append, List.take_of_length_le hlow.le, List.take_of_length_le (by omega)]
      · rw [List.take_append, List.take_append, List.take_of_length_le hlow.le, List.take_of_length_le (by omega),
          hlen]
  · refine .inr ⟨?_, front.drop n, x, y, back, ?_, ?_, hlen, htwo, hne, hup, hdown⟩
    · rw [List.take_append_of_le_length hhigh, List.take_append_of_le_length hhigh]
    · exact List.drop_append_of_le_length hhigh
    · exact List.drop_append_of_le_length hhigh

end QuietLwip.OnesComplement
