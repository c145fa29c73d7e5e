import QuietLwip.Foundation.Splice
import QuietLwip.Mem.Heap

/-!
# The block list

The headers reached from `ram[0]` along `next`, up to and including the end marker,
are a list of offsets whose neighbours are linked both ways and far enough apart for a
header and `MIN_SIZE_ALIGNED` bytes. The end marker is never coalesced (`used` is 1)
and its `prev` field is not kept up to date.
-/

namespace QuietLwip.Mem

open QuietLwip.Word QuietLwip.Splice

/-- `y` is the block behind `x`. -/
def Linked (h : Heap) (x y : ℕ) : Prop :=
  h.next x = y ∧ (y ≠ MEM_SIZE_ALIGNED → h.prev y = x) ∧
    x + SIZEOF_STRUCT_MEM + MIN_SIZE_ALIGNED ≤ y

theorem Linked.lt {h : Heap} {x y : ℕ} (hl : Linked h x y) : x < y := by
  have := hl.2.2
  unfold SIZEOF_STRUCT_MEM MIN_SIZE_ALIGNED at this
  omega

/-- `ls` are the offsets of the headers, the end marker's included. -/
structure Blocks (h : Heap) (ls : List ℕ) : Prop where
  linked : ls.IsChain (Linked h)
  head : ls.head? = some 0
  last : ls.getLast? = some MEM_SIZE_ALIGNED
  prev_zero : h.prev 0 = 0
  used_end : h.used MEM_SIZE_ALIGNED = true

theorem pairwise_of_linked {h : Heap} {ls : List ℕ} (hl : ls.IsChain (Linked h)) :
    ls.Pairwise (· < ·) := by
  rw [← List.isChain_iff_pairwise]
  exact hl.imp fun _ _ hxy => hxy.lt

theorem Blocks.sorted {h : Heap} {ls : List ℕ} (hb : Blocks h ls) : ls.Pairwise (· < ·) :=
  pairwise_of_linked hb.linked

theorem Blocks.le_end {h : Heap} {ls : List ℕ} (hb : Blocks h ls) {b : ℕ} (hmem : b ∈ ls) :
    b ≤ MEM_SIZE_ALIGNED := le_of_getLast? hb.sorted hb.last hmem

/-- Where the parts of a sorted list around two neighbours lie. -/
theorem Blocks.around {h : Heap} {xs ys : List ℕ} {b n : ℕ}
    (hb : Blocks h (xs ++ b :: n :: ys)) :
    (∀ x ∈ xs, x < b) ∧ b < n ∧ ∀ y ∈ ys, n < y := by
  obtain ⟨-, hbs, hxs⟩ := List.pairwise_append.mp hb.sorted
  obtain ⟨hbn, hns⟩ := List.pairwise_cons.mp hbs
  exact ⟨fun x hx => hxs x hx b (List.mem_cons_self ..), hbn n (List.mem_cons_self ..),
    (List.pairwise_cons.mp hns).1⟩

/-- An update between the blocks `b` and `n` that links a new stretch there. -/
theorem Blocks.splice {h h' : Heap} {xs ys : List ℕ} {b n : ℕ} (zs zs' : List ℕ)
    (hb : Blocks h (xs ++ b :: (zs ++ n :: ys)))
    (hnext : ∀ x, x < b ∨ n ≤ x → h'.next x = h.next x)
    (hprev : ∀ x, x ≤ b ∨ n < x → h'.prev x = h.prev x)
    (hused : h'.used MEM_SIZE_ALIGNED = true)
    (hmid : (b :: (zs' ++ [n])).IsChain (Linked h')) :
    Blocks h' (xs ++ b :: (zs' ++ n :: ys)) := by
  have hsorted := List.pairwise_append.mp hb.sorted
  have hxs : ∀ x ∈ xs, x < b := fun x hx => hsorted.2.2 x hx b (List.mem_cons_self ..)
  have hys : ∀ y ∈ ys, n < y := by
    have htail := (List.pairwise_append.mp (List.pairwise_cons.mp hsorted.2.1).2).2.1
    exact (List.pairwise_cons.mp htail).1
  constructor
  · refine isChain_splice zs zs' hb.linked ?_ hmid ?_
    · rintro x hx y hy ⟨hn, hp, hgap⟩
      have hyb : y ≤ b := by
        rcases List.mem_append.mp hy with hy | hy
        · exact (hxs y hy).le
        · exact (List.mem_singleton.mp hy).le
      rw [Linked, hnext x (Or.inl (hxs x hx)), hprev y (Or.inl hyb)]
      exact ⟨hn, hp, hgap⟩
    · rintro x hx y hy ⟨hn, hp, hgap⟩
      have hnx : n ≤ x := by
        rcases List.mem_cons.mp hx with hx | hx
        · exact hx.ge
        · exact (hys x hx).le
      rw [Linked, hnext x (Or.inr hnx), hprev y (Or.inr (hys y hy))]
      exact ⟨hn, hp, hgap⟩
  · have hhead := hb.head
    cases xs <;> exact hhead
  · have hlast := hb.last
    simp only [List.getLast?_append, List.getLast?_cons] at hlast ⊢
    simpa using hlast
  · rw [hprev 0 (Or.inl (Nat.zero_le b))]
    exact hb.prev_zero
  · exact hused

/-- No two neighbours are both unused. -/
def Coalesced (h : Heap) (ls : List ℕ) : Prop :=
  ls.IsChain fun x y => h.used x = true ∨ h.used y = true

/-- `lfree` is the lowest unused block, or the end marker. -/
structure Lowest (h : Heap) (ls : List ℕ) : Prop where
  mem : h.lfree ∈ ls
  unused : h.lfree ≠ MEM_SIZE_ALIGNED → h.used h.lfree = false
  le : ∀ b ∈ ls, h.used b = false → h.lfree ≤ b

/-- `live` are the pointers handed out and not yet freed, with the sizes asked for: each
is the user data of a used block that is long enough, and each used block is one of them. -/
structure Live (h : Heap) (ls : List ℕ) (live : List (ℕ × ℕ)) : Prop where
  block : ∀ a ∈ live, ∃ b ∈ ls, b ≠ MEM_SIZE_ALIGNED ∧ a.1 = b + SIZEOF_STRUCT_MEM ∧
    h.used b = true ∧ a.1 + a.2 ≤ h.next b
  nodup : (live.map Prod.fst).Nodup
  used : ∀ b ∈ ls, b ≠ MEM_SIZE_ALIGNED → h.used b = true →
    b + SIZEOF_STRUCT_MEM ∈ live.map Prod.fst

/-- The heap's representation invariant. -/
structure Wf (h : Heap) (ls : List ℕ) (live : List (ℕ × ℕ)) : Prop where
  blocks : Blocks h ls
  coalesced : Coalesced h ls
  lowest : Lowest h ls
  live : Live h ls live

theorem Wf.init (ram : ℕ → StructMem) : Wf (memInit ram) [0, MEM_SIZE_ALIGNED] [] := by
  have hused : (memInit ram).used MEM_SIZE_ALIGNED = true := by
    simp [memInit, Heap.used]
  have hfree : (memInit ram).used 0 = false := by
    simp [memInit, Heap.used, MEM_SIZE_ALIGNED]
  have hnext : (memInit ram).next 0 = MEM_SIZE_ALIGNED := by
    simp [memInit, Heap.next, MEM_SIZE_ALIGNED]
  constructor
  · refine ⟨List.isChain_pair.mpr ⟨hnext, fun hne => absurd rfl hne, by decide⟩, rfl, rfl, ?_, hused⟩
    simp [memInit, Heap.prev, MEM_SIZE_ALIGNED]
  · exact List.isChain_pair.mpr (Or.inr hused)
  · exact ⟨by simp [memInit], fun _ => hfree, fun b _ _ => Nat.zero_le b⟩
  · refine ⟨fun _ ha => (List.not_mem_nil ha).elim, List.nodup_nil, ?_⟩
    intro b hb hne hub
    have hzero : b = 0 := by
      rcases List.mem_cons.mp hb with hb | hb
      · exact hb
      · exact absurd (List.mem_singleton.mp hb) hne
    rw [hzero, hfree] at hub
    cases hub

/-! ### The loops -/

/-- `nextFree` finds the first unused block of the rest of the list, or the end marker. -/
theorem nextFree_spec {h : Heap} {ys : List ℕ} :
    ∀ (fuel : ℕ) {cur : ℕ}, (cur :: ys).IsChain (Linked h) →
      (cur :: ys).getLast? = some MEM_SIZE_ALIGNED → MEM_SIZE_ALIGNED < fuel + cur →
      ∃ c ∈ cur :: ys, nextFree h fuel cur = some c ∧
        (c ≠ MEM_SIZE_ALIGNED → h.used c = false) ∧
        ∀ b ∈ cur :: ys, h.used b = false → c ≤ b := by
  induction ys with
  | nil =>
    intro fuel cur _ hlast hfuel
    have hend : cur = MEM_SIZE_ALIGNED := by simpa using hlast
    obtain ⟨f, rfl⟩ : ∃ f, fuel = f + 1 := ⟨fuel - 1, by omega⟩
    refine ⟨cur, List.mem_cons_self .., ?_, fun hne => absurd hend hne, ?_⟩
    · rw [nextFree, if_neg fun hc => hc.2 hend]
    · intro b hb _
      exact (List.mem_singleton.mp hb).ge
  | cons y ys ih =>
    intro fuel cur hchain hlast hfuel
    obtain ⟨hlink, hrest⟩ := List.isChain_cons_cons.mp hchain
    have hlast' : (y :: ys).getLast? = some MEM_SIZE_ALIGNED := by
      rw [List.getLast?_cons_cons] at hlast
      exact hlast
    have hsorted := pairwise_of_linked hchain
    have hcury := hlink.lt
    have hcur : y ≤ MEM_SIZE_ALIGNED :=
      le_of_getLast? hsorted hlast (List.mem_cons_of_mem _ (List.mem_cons_self ..))
    obtain ⟨f, rfl⟩ : ∃ f, fuel = f + 1 := ⟨fuel - 1, by omega⟩
    by_cases hu : h.used cur = true
    · obtain ⟨c, hc, hrun, hfree, hle⟩ := ih f hrest hlast' (by omega)
      refine ⟨c, List.mem_cons_of_mem _ hc, ?_, hfree, ?_⟩
      · rw [nextFree, if_pos ⟨hu, by omega⟩, hlink.1]
        exact hrun
      · intro b hb hub
        rcases List.mem_cons.mp hb with hb | hb
        · rw [hb, hu] at hub
          cases hub
        · exact hle b hb hub
    · refine ⟨cur, List.mem_cons_self .., ?_, fun _ => Bool.eq_false_of_not_eq_true hu, ?_⟩
      · rw [nextFree, if_neg fun hc => hu hc.1]
      · intro b hb _
        rcases List.mem_cons.mp hb with hb | hb
        · exact hb.ge
        · exact ((List.pairwise_cons.mp hsorted).1 b hb).le

/-- The user data of a block that is followed by another one. -/
theorem Linked.room {h : Heap} {x y : ℕ} (hl : Linked h x y) (hy : y ≤ MEM_SIZE_ALIGNED) :
    u64 ((h.next x : ℤ) - (x + SIZEOF_STRUCT_MEM)) = y - x - SIZEOF_STRUCT_MEM := by
  obtain ⟨hnext, -, hgap⟩ := hl
  unfold MEM_SIZE_ALIGNED at hy
  unfold SIZEOF_STRUCT_MEM MIN_SIZE_ALIGNED at *
  simp only [u64, wrapU, hnext]
  omega

/-- An unused block with at least `n` bytes of user data. -/
def Fits (h : Heap) (n b : ℕ) : Prop := h.used b = false ∧ b + SIZEOF_STRUCT_MEM + n ≤ h.next b

instance (h : Heap) (n b : ℕ) : Decidable (Fits h n b) := inferInstanceAs (Decidable (_ ∧ _))

/-- The block behind a block is not behind the end marker. -/
theorem next_le_end {h : Heap} {ls : List ℕ} (hchain : ls.IsChain (Linked h))
    (hlast : ls.getLast? = some MEM_SIZE_ALIGNED) {b : ℕ} (hb : b ∈ ls)
    (hne : b ≠ MEM_SIZE_ALIGNED) : h.next b ≤ MEM_SIZE_ALIGNED := by
  obtain ⟨xs, n, ys, rfl⟩ := exists_split_of_mem hb hlast hne
  rw [(isChain_rel hchain).1]
  exact le_of_getLast? (pairwise_of_linked hchain) hlast (by simp)

/-- `scan` finds the first unused block that is long enough, or comes to an end when there is none:
none of the blocks from `MEM_SIZE_ALIGNED - size` on is long enough. -/
theorem scan_spec {h : Heap} {size : ℕ} (hsize : 0 < size)
    (hused : h.used MEM_SIZE_ALIGNED = true) {ys : List ℕ} :
    ∀ (fuel : ℕ) {cur : ℕ}, (cur :: ys).IsChain (Linked h) →
      (cur :: ys).getLast? = some MEM_SIZE_ALIGNED → MEM_SIZE_ALIGNED < fuel + cur →
      scan h size fuel cur = some none ∧ (∀ b ∈ cur :: ys, ¬ Fits h size b) ∨
        ∃ ptr ∈ cur :: ys, scan h size fuel cur = some (some ptr) ∧ ptr ≠ MEM_SIZE_ALIGNED ∧
          Fits h size ptr ∧ ∀ b ∈ cur :: ys, Fits h size b → ptr ≤ b := by
  have hend : ∀ b, Fits h size b → b ≠ MEM_SIZE_ALIGNED := by
    rintro b ⟨hub, -⟩ rfl
    rw [hused] at hub
    cases hub
  induction ys with
  | nil =>
    intro fuel cur _ hlast hfuel
    have hcur : cur = MEM_SIZE_ALIGNED := by simpa using hlast
    obtain ⟨f, rfl⟩ : ∃ f, fuel = f + 1 := ⟨fuel - 1, by omega⟩
    refine .inl ⟨?_, fun b hb hfits => ?_⟩
    · rw [scan, if_neg (by omega)]
    · exact hend b hfits ((List.mem_singleton.mp hb).trans hcur)
  | cons y ys ih =>
    intro fuel cur hchain hlast hfuel
    obtain ⟨hlink, hrest⟩ := List.isChain_cons_cons.mp hchain
    have hlast' : (y :: ys).getLast? = some MEM_SIZE_ALIGNED := by
      rw [List.getLast?_cons_cons] at hlast
      exact hlast
    have hsorted := pairwise_of_linked hchain
    have hcury := hlink.lt
    have hy : y ≤ MEM_SIZE_ALIGNED := le_of_getLast? hsorted hlast
      (List.mem_cons_of_mem _ (List.mem_cons_self ..))
    have hle : ∀ b ∈ cur :: y :: ys, cur ≤ b := by
      intro b hb
      rcases List.mem_cons.mp hb with hb | hb
      · exact hb.ge
      · exact ((List.pairwise_cons.mp hsorted).1 b hb).le
    obtain ⟨f, rfl⟩ : ∃ f, fuel = f + 1 := ⟨fuel - 1, by omega⟩
    have hroom := hlink.room hy
    by_cases hstop : cur < MEM_SIZE_ALIGNED - size
    · rw [scan, if_pos hstop, hroom]
      by_cases hfit : h.used cur = false ∧ size ≤ y - cur - SIZEOF_STRUCT_MEM
      · right
        refine ⟨cur, List.mem_cons_self .., if_pos hfit, by omega, ⟨hfit.1, ?_⟩,
          fun b hb _ => hle b hb⟩
        rw [hlink.1]
        omega
      · have hcur : ¬ Fits h size cur := by
          rintro ⟨hub, hlen⟩
          rw [hlink.1] at hlen
          exact hfit ⟨hub, by omega⟩
        rw [if_neg hfit, hlink.1]
        rcases ih f hrest hlast' (by omega) with ⟨hnone, hnot⟩ | ⟨ptr, hptr, hrun, hne, hfits, hleast⟩
        · refine .inl ⟨hnone, fun b hb => ?_⟩
          rcases List.mem_cons.mp hb with rfl | hb
          · exact hcur
          · exact hnot b hb
        · refine .inr ⟨ptr, List.mem_cons_of_mem _ hptr, hrun, hne, hfits, fun b hb hb' => ?_⟩
          rcases List.mem_cons.mp hb with rfl | hb
          · exact absurd hb' hcur
          · exact hleast b hb hb'
    · left
      refine ⟨by rw [scan, if_neg hstop], fun b hb hfits => ?_⟩
      have hnext := next_le_end hchain hlast hb (hend b hfits)
      have hlen := hfits.2
      have := hle b hb
      unfold SIZEOF_STRUCT_MEM at hlen
      omega

end QuietLwip.Mem
