import QuietLwip.Buffers.Copy
import QuietLwip.Foundation.Matching

/-!
# Searching a chain

`pbuf_memcmp` compares a chain with memory byte by byte and tells where the first difference is, and
`pbuf_memfind` goes on behind it. `Matching` says what such a search finds. Behind the end of the chain
`pbuf_memcmp` compares with zeros.
-/

namespace QuietLwip.Buffers

open Word Matching

/-- The comparison loop of `pbuf_memcmp`, from byte `i` on. -/
def memcmpLoop (q : List Pbuf) (start i : ℕ) : List UInt8 → ℕ
  | [] => 0
  | b :: s2 =>
    let a := pbufGetAt q (u16 (start + i))
    if a ≠ b then u16 (i + 1) else memcmpLoop q start (i + 1) s2

/-- `pbuf_memcmp(p, offset, s2, n)` for the `n` bytes of `s2` -/
def pbufMemcmp (p : List Pbuf) (offset : ℕ) (s2 : List UInt8) : ℕ :=
  match skipTo offset p with
  | (q :: qs, start) => if start < q.len then memcmpLoop (q :: qs) start 0 s2 else 0xFFFF
  | ([], _) => 0xFFFF

/-- The loop of `pbuf_memfind`; `none`: it does not end within the fuel. -/
def memfindLoop (p : List Pbuf) (mem : List UInt8) (max : ℕ) : ℕ → ℕ → Option ℕ
  | 0, _ => none
  | fuel + 1, i =>
    if i ≤ max then
      let plus := pbufMemcmp p i mem
      if plus = 0 then some i else memfindLoop p mem max fuel (u16 (i + plus))
    else some 0xFFFF

/-- `pbuf_memfind(p, mem, mem_len, start_offset)` for the `mem_len` bytes of `mem` -/
def pbufMemfind (p : List Pbuf) (mem : List UInt8) (startOffset : ℕ) : Option ℕ :=
  let max := u16 (totLen p - mem.length)
  if mem.length + startOffset ≤ totLen p then memfindLoop p mem max (totLen p + 1) startOffset
  else some 0xFFFF

/-- `pbuf_strstr(p, substr)` for the bytes in front of the terminating zero, `none` for `NULL` -/
def pbufStrstr (p : List Pbuf) (substr : Option (List UInt8)) : Option ℕ :=
  match substr with
  | none => some 0xFFFF
  | some s =>
    if s = [] ∨ totLen p = 0xFFFF then some 0xFFFF
    else if 0xFFFF ≤ s.length then some 0xFFFF
    else pbufMemfind p s 0

/-- The byte that `pbuf_memcmp` compares at `offset + i`: a zero behind the end of the chain. The place
is counted from the start of a pbuf on, in 16 bits. -/
def readAt (p : List Pbuf) (offset i : ℕ) : UInt8 :=
  if (skipTo offset p).2 + i < 2 ^ 16 then ((bytes p)[offset + i]?).getD 0
  else ((bytes p)[offset + i - 2 ^ 16]?).getD 0

variable {p q c : List Pbuf} {s text mem : List UInt8} {offset start i m r : ℕ}

/-! ### `pbuf_memcmp` -/

/-- The pbufs that the walk to a byte passes. -/
theorem skipTo_passed (n : ℕ) (c : List Pbuf) :
    ∃ passed, bytes c = passed ++ bytes (skipTo n c).1 ∧ passed.length + (skipTo n c).2 = n := by
  induction c generalizing n with
  | nil => exact ⟨[], rfl, Nat.zero_add n⟩
  | cons q qs ih =>
    rw [skipTo]
    split
    · next hle =>
      obtain ⟨passed, hbytes, hlen⟩ := ih (n - q.len)
      refine ⟨q.data ++ passed, by rw [bytes_cons, hbytes, List.append_assoc], ?_⟩
      rw [List.length_append, Pbuf.data_length]
      omega
    · exact ⟨[], rfl, Nat.zero_add n⟩

/-- What is read from the pbufs that are left. -/
theorem pbufGetAt_skipTo (p : List Pbuf) (hi : i < 2 ^ 16) (hoffset : offset < 2 ^ 16) :
    pbufGetAt (skipTo offset p).1 (u16 ((skipTo offset p).2 + i)) = readAt p offset i := by
  obtain ⟨passed, hbytes, hlen⟩ := skipTo_passed offset p
  have hget (j : ℕ) : (bytes (skipTo offset p).1)[j]? = (bytes p)[passed.length + j]? := by
    rw [hbytes, List.getElem?_append_right (Nat.le_add_right _ _), Nat.add_sub_cancel_left]
  rw [pbufGetAt_eq, hget, readAt]
  split
  · next hlt =>
    have hu16 : u16 (((skipTo offset p).2 : ℤ) + i) = (skipTo offset p).2 + i :=
      u16_natCast hlt
    rw [hu16, ← Nat.add_assoc, hlen]
  · next hge =>
    have hu16 : u16 (((skipTo offset p).2 : ℤ) + i) = (skipTo offset p).2 + i - 2 ^ 16 := by
      simp only [u16, wrapU]
      omega
    rw [hu16, ← Nat.add_sub_assoc (Nat.le_of_not_lt hge), ← Nat.add_assoc, hlen]

/-- The loop tells whether the bytes read begin with the memory, or else the place of the first
difference, plus one. -/
theorem memcmpLoop_eq
    (htext : ∀ j < s.length, text[j]? = some (pbufGetAt q (u16 (start + (i + j : ℕ)))))
    (hlt : i + s.length < 2 ^ 16) :
    memcmpLoop q start i s = if s <+: text then 0 else i + common s text + 1 := by
  induction s generalizing i text with
  | nil => rw [if_pos List.nil_prefix]; rfl
  | cons b s ih =>
    cases text with
    | nil => exact absurd (htext 0 (by simp)) (by simp)
    | cons a text =>
      have ha : pbufGetAt q (u16 (start + i)) = a := (Option.some.inj (htext 0 (by simp))).symm
      rw [List.length_cons] at hlt
      by_cases hab : a = b
      · have hrest : ∀ j < s.length,
            text[j]? = some (pbufGetAt q (u16 (start + (i + 1 + j : ℕ)))) := by
          intro j hj
          have := htext (j + 1) (by simpa using hj)
          rwa [List.getElem?_cons_succ, ← Nat.add_assoc, Nat.add_right_comm] at this
        rw [memcmpLoop, ha, if_neg (not_not.mpr hab), ih hrest (by omega)]
        simp only [List.cons_prefix_cons, hab, true_and, common, if_true]
        split
        · rfl
        · omega
      · have hnot : ¬ b :: s <+: a :: text := fun h =>
          hab (List.cons_prefix_cons.mp h).1.symm
        have hu16 : u16 ((i : ℤ) + 1) = i + 1 := u16_natCast (n := i + 1) (by omega)
        rw [memcmpLoop, ha, if_pos hab, if_neg hnot, common, if_neg (Ne.symm hab), hu16]

/-- `pbuf_memcmp` compares with what `readAt` reads, when the chain has a byte at `offset`. -/
theorem pbufMemcmp_eq (hoffset : offset < 2 ^ 16) (hs : s.length < 2 ^ 16)
    (htext : ∀ j < s.length, text[j]? = some (readAt p offset j)) :
    pbufMemcmp p offset s =
      if offset < (bytes p).length then if s <+: text then 0 else common s text + 1 else 0xFFFF := by
  obtain ⟨-, hhead, hnil⟩ := skipTo_spec offset p
  rw [pbufMemcmp]
  have hread (j : ℕ) (hj : j < s.length) :
      text[j]? = some (pbufGetAt (skipTo offset p).1 (u16 ((skipTo offset p).2 + (0 + j : ℕ)))) := by
    rw [Nat.zero_add, pbufGetAt_skipTo p (by omega) hoffset]
    exact htext j hj
  cases hskip : skipTo offset p with
  | mk rest start =>
    rw [hskip] at hhead hnil hread
    cases rest with
    | nil => rw [if_neg (not_lt.mpr (hnil.mp rfl))]
    | cons q qs =>
      have hin : offset < (bytes p).length := not_le.mp fun h => List.cons_ne_nil _ _ (hnil.mpr h)
      simp only [if_pos hin, if_pos (hhead q rfl)]
      rw [memcmpLoop_eq hread (by omega), Nat.zero_add]

theorem pbufMemcmp_eq_zero_iff (hoffset : offset < 2 ^ 16) (hs : s.length < 2 ^ 16) :
    pbufMemcmp p offset s = 0 ↔
      offset < (bytes p).length ∧ ∀ (i : ℕ) (hi : i < s.length), s[i] = readAt p offset i := by
  have htext : ∀ j < s.length,
      ((List.range s.length).map (readAt p offset))[j]? = some (readAt p offset j) := by
    intro j hj
    rw [List.getElem?_map, List.getElem?_range hj]
    rfl
  have hpre : s <+: (List.range s.length).map (readAt p offset) ↔
      ∀ (i : ℕ) (hi : i < s.length), s[i] = readAt p offset i := by
    rw [List.prefix_iff_getElem?]
    refine forall₂_congr fun i hi => ?_
    rw [htext i hi, Option.some_inj, eq_comm]
  rw [pbufMemcmp_eq hoffset hs htext, ← hpre]
  split
  · next hin =>
    split
    · next h => exact iff_of_true rfl ⟨hin, h⟩
    · next h => exact iff_of_false (Nat.succ_ne_zero _) fun hc => h hc.2
  · next hout => exact iff_of_false (by decide) fun hc => hout hc.1

/-- In front of the end the chain itself is read. -/
theorem readAt_of_lt (hlt : offset + i < (bytes p).length) (htot : (bytes p).length < 2 ^ 16) :
    (bytes p)[offset + i]? = some (readAt p offset i) := by
  obtain ⟨passed, -, hlen⟩ := skipTo_passed offset p
  rw [readAt, if_pos (by omega), List.getElem?_eq_getElem hlt, Option.getD_some]

theorem drop_getElem?_readAt (hle : offset + s.length ≤ (bytes p).length)
    (htot : (bytes p).length < 2 ^ 16) :
    ∀ j < s.length, ((bytes p).drop offset)[j]? = some (readAt p offset j) := by
  intro j hj
  rw [List.getElem?_drop]
  exact readAt_of_lt (by omega) htot

/-- What `pbuf_memcmp` promises. -/
def ComparesAt (text s : List UInt8) (offset r : ℕ) : Prop :=
  r = 0 ↔ offset + s.length ≤ text.length ∧ (text.drop offset).take s.length = s

/-- `pbuf_memcmp` is right unless it compares no bytes at the end of the chain, or bytes across the end
that agree with the zeros behind it. -/
theorem pbufMemcmp_right_iff (hwf : WellFormed p) (hoffset : offset < 2 ^ 16)
    (hs : s.length < 2 ^ 16) :
    ComparesAt (bytes p) s offset (pbufMemcmp p offset s) ↔
      ¬ (s = [] ∧ offset = totLen p) ∧
        ¬ (offset < totLen p ∧ totLen p < offset + s.length ∧
          ∀ (i : ℕ) (hi : i < s.length), s[i] = readAt p offset i) := by
  have htot := hwf.bytes_length
  have hlt := totLen_lt p
  rw [ComparesAt, ← htot]
  by_cases hfit : offset + s.length ≤ (bytes p).length
  · have hover : ¬ (bytes p).length < offset + s.length := not_lt.mpr hfit
    simp only [hfit, hover, true_and, false_and, and_false, not_false_eq_true, and_true]
    by_cases hnil : s = []
    · -- no byte is compared
      subst hnil
      have hzero := pbufMemcmp_eq_zero_iff (p := p) (s := []) hoffset (by decide)
      rw [hzero]
      simp only [List.length_nil, List.take_zero, Nat.not_lt_zero, IsEmpty.forall_iff, implies_true,
        and_true, true_and, iff_true] at hfit ⊢
      omega
    · have hpos := List.length_pos_of_ne_nil hnil
      have hread := drop_getElem?_readAt hfit (by omega)
      rw [pbufMemcmp_eq hoffset hs hread, if_pos (by omega)]
      refine iff_of_true ?_ fun h => hnil h.1
      rw [eq_comm (a := List.take _ _), ← List.prefix_iff_eq_take]
      split
      · next h => exact iff_of_true rfl h
      · next h => exact iff_of_false (Nat.succ_ne_zero _) h
  · have hend : ¬ (s = [] ∧ offset = (bytes p).length) := by
      rintro ⟨rfl, rfl⟩
      exact hfit (by simp)
    have hover : (bytes p).length < offset + s.length := not_le.mp hfit
    simp only [hfit, false_and, iff_false, hend, not_false_eq_true, true_and, hover,
      pbufMemcmp_eq_zero_iff hoffset hs]

/-! ### `pbuf_memfind` -/

/-- The loop from `i` on is a search of the rest of the bytes. -/
theorem memfindLoop_eq (hwf : WellFormed p) (hmem : mem ≠ []) (hlen : mem.length ≤ totLen p)
    (htot : totLen p ≤ 0xFFFE) (fuel : ℕ) (hi : i ≤ totLen p) (hfuel : totLen p + 1 - i ≤ fuel) :
    memfindLoop p mem (totLen p - mem.length) fuel i =
      some (((scan mem ((bytes p).drop i)).map (i + ·)).getD 0xFFFF) := by
  have hbytes := hwf.bytes_length
  have hpos := List.length_pos_of_ne_nil hmem
  induction fuel generalizing i with
  | zero => omega
  | succ fuel ih =>
    have hdrop : ((bytes p).drop i).length = totLen p - i := by rw [List.length_drop, hbytes]
    rw [memfindLoop, scan, hdrop]
    by_cases hmax : i ≤ totLen p - mem.length
    · have hshort : ¬ totLen p - i < mem.length := by omega
      have hin : i < (bytes p).length := by omega
      have hread := drop_getElem?_readAt (show i + mem.length ≤ (bytes p).length by omega) (by omega)
      have hcmp := pbufMemcmp_eq (show i < 2 ^ 16 by omega) (by omega) hread
      rw [if_pos hin] at hcmp
      rw [if_pos hmax, if_neg hshort, hcmp]
      by_cases hpre : mem <+: (bytes p).drop i
      · simp [hpre]
      · have hle := common_lt (by omega) hpre
        obtain ⟨k, hk⟩ : ∃ k, common mem ((bytes p).drop i) = k := ⟨_, rfl⟩
        rw [hk] at hle
        have hu16 : u16 ((i : ℤ) + (k + 1 : ℕ)) = i + (k + 1) :=
          u16_natCast (n := i + (k + 1)) (by omega)
        simp only [hpre, if_false, Nat.succ_ne_zero, hk, hu16]
        rw [ih (by omega) (by omega), ← List.drop_drop, Option.map_map]
        congr 3
        funext m
        exact Nat.add_assoc i (k + 1) m
    · rw [if_neg hmax, if_pos (by omega)]
      rfl

theorem pbufMemfind_eq (hwf : WellFormed p) (hmem : mem ≠ []) (htot : totLen p ≤ 0xFFFE)
    (start : ℕ) : pbufMemfind p mem start =
      some (((scan mem ((bytes p).drop start)).map (start + ·)).getD 0xFFFF) := by
  rw [pbufMemfind]
  by_cases hroom : mem.length + start ≤ totLen p
  · have hmax : u16 ((totLen p : ℤ) - mem.length) = totLen p - mem.length := by
      simp only [u16, wrapU]
      omega
    simp only [if_pos hroom, hmax]
    exact memfindLoop_eq hwf hmem (by omega) htot _ (by omega) (by omega)
  · have hshort : ((bytes p).drop start).length < mem.length := by
      rw [List.length_drop, hwf.bytes_length]
      have := List.length_pos_of_ne_nil hmem
      omega
    simp only [if_neg hroom]
    rw [scan, if_pos hshort]
    rfl

/-- The places from `start` on where the bytes of the pattern occur. -/
def occurrences (text pat : List UInt8) (start : ℕ) : Set ℕ := {m | start ≤ m ∧ OccursAt pat text m}

/-- What `pbuf_memfind` promises: the first place, or `0xFFFF` when there is none. -/
def FindsFirst (text pat : List UInt8) (start r : ℕ) : Prop :=
  IsLeast (occurrences text pat start) r ∨ r = 0xFFFF ∧ occurrences text pat start = ∅

/-- The bytes from `start` to the first place are mismatches one behind the other. -/
def Reached (text pat : List UInt8) (start : ℕ) : Prop :=
  ∀ m, IsLeast (occurrences text pat start) m → Mismatches pat ((text.drop start).take (m - start))

theorem mem_occurrences_add {text pat : List UInt8} :
    start + m ∈ occurrences text pat start ↔ OccursAt pat (text.drop start) m := by
  rw [occursAt_drop]
  exact ⟨And.right, fun h => ⟨Nat.le_add_right _ _, h⟩⟩

/-- The search finds the first place exactly when mismatches lead to it. -/
theorem scan_findsFirst_iff {text pat : List UInt8} (hpat : pat ≠ []) (htext : text.length ≤ 0xFFFE) :
    FindsFirst text pat start (((scan pat (text.drop start)).map (start + ·)).getD 0xFFFF) ↔
      Reached text pat start := by
  have hbound {m : ℕ} (hm : m ∈ occurrences text pat start) : m ≠ 0xFFFF := by
    have := hm.2.lt_length hpat
    omega
  constructor
  · intro h m hm
    obtain ⟨k, rfl⟩ := Nat.exists_eq_add_of_le hm.1.1
    rcases h with hleast | ⟨-, hempty⟩
    · have heq := hleast.unique hm
      cases hscan : scan pat (text.drop start) with
      | none =>
        rw [hscan] at heq
        exact absurd heq.symm (hbound hm.1)
      | some k' =>
        rw [hscan] at heq
        obtain rfl : k' = k := Nat.add_left_cancel heq
        rw [Nat.add_sub_cancel_left]
        exact ((scan_eq_some_iff hpat).mp hscan).2
    · exact absurd hm.1 (hempty ▸ Set.notMem_empty _)
  · intro h
    by_cases hempty : occurrences text pat start = ∅
    · cases hscan : scan pat (text.drop start) with
      | none => exact .inr ⟨rfl, hempty⟩
      | some k =>
        have hmem := mem_occurrences_add.mpr ((scan_eq_some_iff hpat).mp hscan).1
        exact absurd hmem (hempty ▸ Set.notMem_empty _)
    · classical
      obtain ⟨m, hm⟩ : ∃ m, IsLeast (occurrences text pat start) m := by
        obtain ⟨j, hj⟩ := Set.nonempty_iff_ne_empty.mpr hempty
        exact ⟨Nat.find ⟨j, hj⟩, Nat.find_spec ⟨j, hj⟩, fun i hi => Nat.find_min' ⟨j, hj⟩ hi⟩
      obtain ⟨k, rfl⟩ := Nat.exists_eq_add_of_le hm.1.1
      have hskip := h _ hm
      rw [Nat.add_sub_cancel_left] at hskip
      rw [(scan_eq_some_iff hpat).mpr ⟨mem_occurrences_add.mp hm.1, hskip⟩]
      exact .inl hm

/-- A uniform pattern is always reached, and one that is too long to occur behind the first byte. -/
theorem reached_of_uniform {text pat : List UInt8} (hpat : pat ≠ []) (htext : text.length ≤ 0xFFFE)
    (h : Uniform pat ∨ 0xFFFE ≤ pat.length) (start : ℕ) : Reached text pat start := by
  intro m hm
  obtain ⟨k, rfl⟩ := Nat.exists_eq_add_of_le hm.1.1
  rw [Nat.add_sub_cancel_left]
  rcases h with huni | hlong
  · refine huni.mismatches hpat ⟨mem_occurrences_add.mp hm.1, fun i hi => ?_⟩
    exact Nat.le_of_add_le_add_left (hm.2 (mem_occurrences_add.mpr hi))
  · have hlen := (mem_occurrences_add.mp hm.1).length_le
    rw [List.length_drop, List.length_drop] at hlen
    obtain rfl : k = 0 := by omega
    exact .nil

/-- `pbuf_memfind` comes back with the first place exactly when mismatches lead to it. -/
theorem pbufMemfind_spec (hwf : WellFormed p) (hmem : mem ≠ []) (htot : totLen p ≤ 0xFFFE)
    (start : ℕ) : ∃ r, pbufMemfind p mem start = some r ∧
      (FindsFirst (bytes p) mem start r ↔ Reached (bytes p) mem start) :=
  ⟨_, pbufMemfind_eq hwf hmem htot start, scan_findsFirst_iff hmem (hwf.bytes_length.trans_le htot)⟩

theorem pbufStrstr_spec (hwf : WellFormed p) (hs : s ≠ []) (htot : totLen p ≤ 0xFFFE) :
    ∃ r, pbufStrstr p (some s) = some r ∧
      (FindsFirst (bytes p) s 0 r ↔ Reached (bytes p) s 0) := by
  have hguard : ¬ (s = [] ∨ totLen p = 0xFFFF) := by
    rintro (h | h)
    · exact hs h
    · omega
  simp only [pbufStrstr, if_neg hguard]
  split
  · next hlong =>
    have htext := hwf.bytes_length
    have hempty : occurrences (bytes p) s 0 = ∅ := by
      refine Set.eq_empty_of_forall_notMem fun m hm => ?_
      have := hm.2.length_le
      rw [List.length_drop] at this
      omega
    exact ⟨_, rfl, iff_of_true (.inr ⟨rfl, hempty⟩)
      (reached_of_uniform hs (by omega) (.inr (by omega)) 0)⟩
  · exact pbufMemfind_spec hwf hs htot 0

/-- A chain of one pbuf over the bytes. -/
def romChain (data : List UInt8) (hlen : data.length < 2 ^ 16) : List Pbuf := [romPbuf 0 data 0 hlen]

theorem romChain_spec {data : List UInt8} (hlen : data.length < 2 ^ 16) :
    WellFormed (romChain data hlen) ∧ totLen (romChain data hlen) = data.length ∧
      bytes (romChain data hlen) = data := by
  refine ⟨⟨rfl, trivial⟩, rfl, ?_⟩
  rw [romChain, bytes_cons]
  change (data.drop 0).take data.length ++ [] = data
  rw [List.drop_zero, List.take_length, List.append_nil]

/-- The patterns that `pbuf_memfind` finds in every chain. -/
theorem pbufMemfind_always_iff (hmem : mem ≠ []) :
    (∀ p start r, WellFormed p → totLen p ≤ 0xFFFE → pbufMemfind p mem start = some r →
      FindsFirst (bytes p) mem start r) ↔ Uniform mem ∨ 0xFFFE ≤ mem.length := by
  constructor
  · intro h
    by_contra hneither
    push Not at hneither
    obtain ⟨hnot, hshort⟩ := hneither
    obtain ⟨a, hleast, hmissed⟩ := exists_missed hnot
    have hlen : (a :: mem).length ≤ 0xFFFE := hshort
    obtain ⟨hwf, htot, hbytes⟩ := romChain_spec (Nat.lt_of_le_of_lt hlen (by decide))
    obtain ⟨r, hr, hiff⟩ := pbufMemfind_spec hwf hmem (by omega) 0
    have hreached := hiff.mp (h _ 0 r hwf (by omega) hr)
    rw [hbytes] at hreached
    refine hmissed (hreached 1 ⟨⟨Nat.zero_le _, hleast.1⟩, fun i hi => hleast.2 hi.2⟩)
  · intro h p start r hwf htot hr
    obtain ⟨r', hr', hiff⟩ := pbufMemfind_spec hwf hmem htot start
    obtain rfl : r' = r := Option.some.inj (hr'.symm.trans hr)
    exact hiff.mpr (reached_of_uniform hmem (hwf.bytes_length.trans_le htot) h start)

/-- When the searches in a chain are right: a comparison, unless it runs over the end of the chain into
zeros that agree; a search, when only mismatches stand in front of the first place. Every chain is
searched right exactly for patterns of equal bytes. -/
theorem chain_search (mem : List UInt8) (hmem : mem ≠ []) (s : List UInt8) (hs : s.length < 2 ^ 16) :
    (∀ p offset, WellFormed p → offset < 2 ^ 16 →
      (ComparesAt (bytes p) s offset (pbufMemcmp p offset s) ↔
        ¬ (s = [] ∧ offset = totLen p) ∧
          ¬ (offset < totLen p ∧ totLen p < offset + s.length ∧
            ∀ (i : ℕ) (hi : i < s.length), s[i] = readAt p offset i))) ∧
    (∀ p start, WellFormed p → totLen p ≤ 0xFFFE →
      ∃ r, pbufMemfind p mem start = some r ∧
        (FindsFirst (bytes p) mem start r ↔ Reached (bytes p) mem start)) ∧
    (∀ p, WellFormed p → totLen p ≤ 0xFFFE →
      ∃ r, pbufStrstr p (some mem) = some r ∧
        (FindsFirst (bytes p) mem 0 r ↔ Reached (bytes p) mem 0)) ∧
    ((∀ p start r, WellFormed p → totLen p ≤ 0xFFFE → pbufMemfind p mem start = some r →
      FindsFirst (bytes p) mem start r) ↔ Uniform mem ∨ 0xFFFE ≤ mem.length) :=
  ⟨fun _ _ hwf hoffset => pbufMemcmp_right_iff hwf hoffset hs,
    fun _ start hwf htot => pbufMemfind_spec hwf hmem htot start,
    fun _ hwf htot => pbufStrstr_spec hwf hmem htot, pbufMemfind_always_iff hmem⟩

/-- "ab" is not found in "aab", and three bytes are compared equal with two and a zero. -/
theorem pbufMemfind_missed :
    ¬ ((∀ p mem start r, WellFormed p → totLen p ≤ 0xFFFE → mem ≠ [] →
        pbufMemfind p mem start = some r → FindsFirst (bytes p) mem start r) ∧
      ∀ p s offset, WellFormed p → offset < 2 ^ 16 → s.length < 2 ^ 16 →
        ComparesAt (bytes p) s offset (pbufMemcmp p offset s)) ∧
    pbufMemfind (romChain [97, 97, 98] (by decide)) [97, 98] 0 = some 0xFFFF ∧
    pbufMemcmp (romChain [97, 98] (by decide)) 0 [97, 98, 0] = 0 := by
  refine ⟨fun h => ?_, by decide, by decide⟩
  have hfirst := h.1 (romChain [97, 97, 98] (by decide)) [97, 98] 0 0xFFFF (by decide) (by decide)
    (by decide) (by decide)
  have hone : 1 ∈ occurrences (bytes (romChain [97, 97, 98] (by decide))) [97, 98] 0 :=
    ⟨by decide, by decide⟩
  rcases hfirst with hleast | ⟨-, hempty⟩
  · exact absurd (hleast.2 hone) (by decide)
  · exact absurd hone (hempty ▸ Set.notMem_empty _)

/-- "a" is found in "ba". -/
theorem chain_search_uniform :
    FindsFirst (bytes (romChain [98, 97] (by decide))) [97] 0 1 := by
  obtain ⟨-, -, -, halways⟩ := chain_search [97] (by decide) [] (by decide)
  exact halways.mpr (.inl fun a ha b hb => by
    rw [List.mem_singleton.mp ha, List.mem_singleton.mp hb]) _ 0 1 (by decide) (by decide) (by decide)

end QuietLwip.Buffers
