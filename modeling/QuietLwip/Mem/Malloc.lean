import QuietLwip.Mem.Invariant

/-!
# `mem_malloc` keeps the invariant

The block that the scan finds is taken; what is left of it becomes a block of its own if
it is long enough. When the block was the lowest free one, `lfree` moves up to the next.
-/

namespace QuietLwip.Mem

open QuietLwip.Word QuietLwip.Splice

/-- What taking the unused block `ptr` does to the list; `lfree` is not yet moved. -/
structure Taken (h h' : Heap) (ls ls' : List ℕ) (live : List (ℕ × ℕ)) (ptr r : ℕ) : Prop where
  blocks : Blocks h' ls'
  coalesced : Coalesced h' ls'
  live : Live h' ls' ((ptr + SIZEOF_STRUCT_MEM, r) :: live)
  lfree : h'.lfree = h.lfree
  ptr_mem : ptr ∈ ls'
  ptr_used : h'.used ptr = true
  old : ∀ b ∈ ls, b ≠ ptr → b ∈ ls' ∧ h'.used b = h.used b
  new : ∀ b ∈ ls', h'.used b = false → ptr < b ∨ b ∈ ls ∧ h.used b = false

theorem Live.take {h h' : Heap} {ls ls' : List ℕ} {live : List (ℕ × ℕ)} (hl : Live h ls live)
    {ptr r : ℕ} (hmem : ptr ∈ ls') (hne : ptr ≠ MEM_SIZE_ALIGNED) (hfree : h.used ptr = false)
    (hused : h'.used ptr = true) (hlen : ptr + SIZEOF_STRUCT_MEM + r ≤ h'.next ptr)
    (hkeep : ∀ b ∈ ls, b ≠ ptr → h.used b = true →
      b ∈ ls' ∧ h'.used b = true ∧ h'.next b = h.next b)
    (hback : ∀ b ∈ ls', b ≠ ptr → h'.used b = true → b ∈ ls ∧ h.used b = true) :
    Live h' ls' ((ptr + SIZEOF_STRUCT_MEM, r) :: live) := by
  have hptr : ∀ b, h.used b = true → b ≠ ptr := by
    rintro b hub rfl
    rw [hfree] at hub
    cases hub
  refine ⟨?_, ?_, ?_⟩
  · intro a ha
    rcases List.mem_cons.mp ha with rfl | ha
    · exact ⟨ptr, hmem, hne, rfl, hused, hlen⟩
    · obtain ⟨b, hb, hbe, hab, hub, hfit⟩ := hl.block a ha
      obtain ⟨hb', hub', hnext⟩ := hkeep b hb (hptr b hub) hub
      exact ⟨b, hb', hbe, hab, hub', by rw [hnext]; exact hfit⟩
  · refine List.nodup_cons.mpr ⟨?_, hl.nodup⟩
    intro hin
    obtain ⟨a, ha, hap⟩ := List.mem_map.mp hin
    obtain ⟨b, -, -, hab, hub, -⟩ := hl.block a ha
    exact hptr b hub (Nat.add_right_cancel (hab.symm.trans hap))
  · intro b hb hbe hub
    by_cases hbp : b = ptr
    · rw [hbp]
      exact List.mem_cons_self ..
    · obtain ⟨hb', hub'⟩ := hback b hb hbp hub
      exact List.mem_cons_of_mem _ (hl.used b hb' hbe hub')

/-- The block is taken whole. -/
theorem Wf.takeWhole {h : Heap} {xs ys : List ℕ} {live : List (ℕ × ℕ)} {ptr n r : ℕ}
    (hw : Wf h (xs ++ ptr :: n :: ys) live) (hfree : h.used ptr = false)
    (hr : ptr + SIZEOF_STRUCT_MEM + r ≤ n) :
    Taken h (h.setUsed ptr true) (xs ++ ptr :: n :: ys) (xs ++ ptr :: n :: ys) live ptr r := by
  have hlink := isChain_rel hw.blocks.linked
  have hlt := hlink.lt
  have hn : n ≤ MEM_SIZE_ALIGNED := hw.blocks.le_end (by simp)
  have hother : ∀ b, b ≠ ptr → (h.setUsed ptr true).used b = h.used b := by
    intro b hb
    rw [Heap.setUsed_used, Function.update_of_ne hb]
  have hself : (h.setUsed ptr true).used ptr = true := by
    rw [Heap.setUsed_used, Function.update_self]
  have hmono : ∀ b, h.used b = true → (h.setUsed ptr true).used b = true := by
    intro b hub
    by_cases hb : b = ptr
    · rw [hb]
      exact hself
    · rw [hother b hb]
      exact hub
  refine ⟨⟨?_, hw.blocks.head, hw.blocks.last, ?_, ?_⟩, ?_, ?_, rfl, by simp, hself, ?_, ?_⟩
  · refine hw.blocks.linked.imp ?_
    rintro x y ⟨hx, hy, hgap⟩
    rw [Linked, Heap.setUsed_next, Heap.setUsed_prev]
    exact ⟨hx, hy, hgap⟩
  · rw [Heap.setUsed_prev]
    exact hw.blocks.prev_zero
  · exact hmono _ hw.blocks.used_end
  · exact List.IsChain.imp (fun x y hxy => hxy.imp (hmono x) (hmono y)) hw.coalesced
  · refine hw.live.take (by simp) (by omega) hfree hself ?_ ?_ ?_
    · rw [Heap.setUsed_next, hlink.1]
      exact hr
    · intro b hb _ hub
      exact ⟨hb, hmono b hub, by rw [Heap.setUsed_next]⟩
    · intro b hb hbp hub
      rw [hother b hbp] at hub
      exact ⟨hb, hub⟩
  · exact fun b hb hbp => ⟨hb, hother b hbp⟩
  · intro b hb hub
    refine Or.inr ⟨hb, ?_⟩
    by_contra hub'
    rw [hmono b (Bool.eq_true_of_not_eq_false hub')] at hub
    cases hub

/-- The block is split at `c`. -/
theorem Wf.takeSplit {h : Heap} {xs ys : List ℕ} {live : List (ℕ × ℕ)} {ptr c n r : ℕ}
    (hw : Wf h (xs ++ ptr :: n :: ys) live) (hfree : h.used ptr = false)
    (hbc : ptr + SIZEOF_STRUCT_MEM + MIN_SIZE_ALIGNED ≤ c)
    (hcn : c + SIZEOF_STRUCT_MEM + MIN_SIZE_ALIGNED ≤ n) (hr : ptr + SIZEOF_STRUCT_MEM + r ≤ c) :
    Taken h ((linkAfter h ptr c n).setUsed ptr true) (xs ++ ptr :: n :: ys)
      (xs ++ ptr :: c :: n :: ys) live ptr r := by
  have hsplit : Blocks (linkAfter h ptr c n) (xs ++ ptr :: c :: n :: ys) :=
    Blocks.linkAfter [] hw.blocks hbc hcn
  have hn : n ≤ MEM_SIZE_ALIGNED := hw.blocks.le_end (by simp)
  unfold SIZEOF_STRUCT_MEM MIN_SIZE_ALIGNED at hbc hcn
  have hnew : c ∉ xs ++ ptr :: n :: ys := hw.blocks.not_mem_gap (by omega) (by omega)
  have husedEq : ((linkAfter h ptr c n).setUsed ptr true).used =
      Function.update (Function.update h.used c false) ptr true := by
    rw [Heap.setUsed_used, linkAfter_used]
  have hself : ((linkAfter h ptr c n).setUsed ptr true).used ptr = true := by
    rw [husedEq, Function.update_self]
  have hother : ∀ b ∈ xs ++ ptr :: n :: ys, b ≠ ptr →
      ((linkAfter h ptr c n).setUsed ptr true).used b = h.used b := by
    intro b hb hbp
    have hbc : b ≠ c := by
      rintro rfl
      exact hnew hb
    rw [husedEq, Function.update_of_ne hbp, Function.update_of_ne hbc]
  have hcfree : ((linkAfter h ptr c n).setUsed ptr true).used c = false := by
    rw [husedEq, Function.update_of_ne (by omega), Function.update_self]
  have hmono : ∀ b ∈ xs ++ ptr :: n :: ys, h.used b = true →
      ((linkAfter h ptr c n).setUsed ptr true).used b = true := by
    intro b hb hub
    by_cases hbp : b = ptr
    · rw [hbp]
      exact hself
    · rw [hother b hb hbp]
      exact hub
  have hsub : ∀ b ∈ xs ++ ptr :: n :: ys, b ∈ xs ++ ptr :: c :: n :: ys := by
    intro b hb
    simp only [List.mem_append, List.mem_cons] at hb ⊢
    tauto
  have hsup : ∀ b ∈ xs ++ ptr :: c :: n :: ys, b ≠ c → b ∈ xs ++ ptr :: n :: ys := by
    intro b hb hbc
    simp only [List.mem_append, List.mem_cons] at hb ⊢
    tauto
  refine ⟨⟨?_, hsplit.head, hsplit.last, ?_, ?_⟩, ?_, ?_, ?_, by simp, hself, ?_, ?_⟩
  · refine hsplit.linked.imp ?_
    rintro x y ⟨hx, hy, hgap⟩
    rw [Linked, Heap.setUsed_next, Heap.setUsed_prev]
    exact ⟨hx, hy, hgap⟩
  · rw [Heap.setUsed_prev]
    exact hsplit.prev_zero
  · exact hmono _ (List.mem_of_getLast? hw.blocks.last) hw.blocks.used_end
  · have hun : h.used n = true := by
      rcases isChain_rel hw.coalesced with hp | hp
      · rw [hfree] at hp
        cases hp
      · exact hp
    refine isChain_splice [] [c] hw.coalesced ?_ ?_ ?_
    · intro x hx y hy
      exact Or.imp (hmono x (by simp [hx])) (hmono y (by simp at hy ⊢; tauto))
    · refine List.isChain_cons_cons.mpr ⟨Or.inl hself, List.isChain_pair.mpr (Or.inr ?_)⟩
      exact hmono n (by simp) hun
    · intro x hx y hy
      exact Or.imp (hmono x (by simp at hx ⊢; tauto)) (hmono y (by simp [hy]))
  · refine hw.live.take (by simp) (by omega) hfree hself ?_ ?_ ?_
    · rw [Heap.setUsed_next, linkAfter_next, Function.update_self]
      exact hr
    · intro b hb hbp hub
      have hbc : b ≠ c := by
        rintro rfl
        exact hnew hb
      refine ⟨hsub b hb, hmono b hb hub, ?_⟩
      rw [Heap.setUsed_next, linkAfter_next, Function.update_of_ne hbp, Function.update_of_ne hbc]
    · intro b hb hbp hub
      have hbc : b ≠ c := by
        rintro rfl
        rw [hcfree] at hub
        cases hub
      have hold := hsup b hb hbc
      rw [hother b hold hbp] at hub
      exact ⟨hold, hub⟩
  · rw [Heap.setUsed_lfree, linkAfter_lfree]
  · exact fun b hb hbp => ⟨hsub b hb, hother b hb hbp⟩
  · intro b hb hub
    by_cases hbc : b = c
    · left
      omega
    · have hold := hsup b hb hbc
      refine Or.inr ⟨hold, ?_⟩
      by_contra hub'
      rw [hmono b hold (Bool.eq_true_of_not_eq_false hub')] at hub
      cases hub

theorem takeBlock_spec {h : Heap} {ls : List ℕ} {live : List (ℕ × ℕ)} (hw : Wf h ls live)
    {ptr k r : ℕ} (hptr : ptr ∈ ls) (hne : ptr ≠ MEM_SIZE_ALIGNED) (hfree : h.used ptr = false)
    (hfit : ptr + SIZEOF_STRUCT_MEM + k ≤ h.next ptr) (hk : MIN_SIZE_ALIGNED ≤ k) (hr : r ≤ k) :
    ∃ ls', Taken h (takeBlock h ptr k) ls ls' live ptr r := by
  obtain ⟨xs, n, ys, rfl⟩ := exists_split_of_mem hptr hw.blocks.last hne
  have hlink := isChain_rel hw.blocks.linked
  have hn : n ≤ MEM_SIZE_ALIGNED := hw.blocks.le_end (by simp)
  rw [hlink.1] at hfit
  have hptr2 := (hlink.trim_sizes hn hfit).2
  rw [takeBlock, hlink.room hn, hptr2, hlink.1]
  by_cases hsplit : k + SIZEOF_STRUCT_MEM + MIN_SIZE_ALIGNED ≤ n - ptr - SIZEOF_STRUCT_MEM
  · rw [if_pos hsplit]
    exact ⟨_, hw.takeSplit hfree (by omega) (by omega) (by omega)⟩
  · rw [if_neg hsplit]
    exact ⟨_, hw.takeWhole hfree (by omega)⟩

/-- The block taken was not the lowest free one: `lfree` stays. -/
theorem Taken.wf_of_ne {h h' : Heap} {ls ls' : List ℕ} {live : List (ℕ × ℕ)} {ptr r : ℕ}
    (ht : Taken h h' ls ls' live ptr r) (hl : Lowest h ls) (hne : ptr ≠ h.lfree)
    (hle : h.lfree ≤ ptr) (hend : h.lfree ≠ MEM_SIZE_ALIGNED) :
    Wf h' ls' ((ptr + SIZEOF_STRUCT_MEM, r) :: live) := by
  obtain ⟨hmem, hused⟩ := ht.old h.lfree hl.mem hne.symm
  refine ⟨ht.blocks, ht.coalesced, ⟨?_, fun _ => ?_, ?_⟩, ht.live⟩
  · rw [ht.lfree]
    exact hmem
  · rw [ht.lfree, hused]
    exact hl.unused hend
  · intro b hb hub
    rw [ht.lfree]
    rcases ht.new b hb hub with hlt | ⟨hbold, hbfree⟩
    · omega
    · exact hl.le b hbold hbfree

/-- The block taken was the lowest free one: the next one is found behind it. -/
theorem Taken.wf_of_eq {h h' : Heap} {ls ls' : List ℕ} {live : List (ℕ × ℕ)} {r : ℕ}
    (ht : Taken h h' ls ls' live h.lfree r) (hl : Lowest h ls) :
    ∃ cur, nextFree h' (MEM_SIZE_ALIGNED + 1) h'.lfree = some cur ∧
      (cur = MEM_SIZE_ALIGNED ∨ h'.used cur = false) ∧
      Wf (h'.setLfree cur) ls' ((h.lfree + SIZEOF_STRUCT_MEM, r) :: live) := by
  obtain ⟨xs, ys, rfl⟩ := List.append_of_mem ht.ptr_mem
  have hchain := (List.isChain_append.mp ht.blocks.linked).2.1
  have hlast : (h.lfree :: ys).getLast? = some MEM_SIZE_ALIGNED := by
    have := ht.blocks.last
    simp only [List.getLast?_append, List.getLast?_cons] at this ⊢
    simpa using this
  obtain ⟨cur, hcur, hrun, hunused, hle⟩ :=
    nextFree_spec (MEM_SIZE_ALIGNED + 1) hchain hlast (by omega)
  have hcur' : cur ∈ xs ++ h.lfree :: ys := List.mem_append_right _ hcur
  refine ⟨cur, by rw [ht.lfree]; exact hrun, ?_, ht.blocks.setLfree cur, ht.coalesced,
    ⟨hcur', hunused, ?_⟩, ?_⟩
  · by_cases hend : cur = MEM_SIZE_ALIGNED
    · exact Or.inl hend
    · exact Or.inr (hunused hend)
  · intro b hb hub
    rcases List.mem_append.mp hb with hbx | hby
    · -- what is in front of the old `lfree` is used
      have hlt := (List.pairwise_append.mp ht.blocks.sorted).2.2 b hbx _ (List.mem_cons_self ..)
      rcases ht.new b hb hub with hgt | ⟨hbold, hbfree⟩
      · omega
      · have := hl.le b hbold hbfree
        omega
    · exact hle b hby hub
  · exact ⟨ht.live.block, ht.live.nodup, ht.live.used⟩

/-- `mem_malloc` takes the lowest unused block that is long enough, and finds none only if there is
none. -/
theorem memMalloc_spec {h : Heap} {ls : List ℕ} {live : List (ℕ × ℕ)} (hw : Wf h ls live)
    (size : ℕ) :
    memMalloc h size = some (h, none) ∧
        (0 < size → ∀ b ∈ ls, ¬ Fits h (max size MIN_SIZE_ALIGNED) b) ∨
      ∃ h' ls' ptr, memMalloc h size = some (h', some (ptr + SIZEOF_STRUCT_MEM)) ∧
        Wf h' ls' ((ptr + SIZEOF_STRUCT_MEM, size) :: live) ∧
        IsLeast {b | b ∈ ls ∧ Fits h (max size MIN_SIZE_ALIGNED) b} ptr := by
  obtain ⟨k, hk, hkif⟩ : ∃ k, k = max size MIN_SIZE_ALIGNED ∧
      (if size < MIN_SIZE_ALIGNED then MIN_SIZE_ALIGNED else size) = k := by
    refine ⟨_, rfl, ?_⟩
    split <;> omega
  have hmin : 0 < MIN_SIZE_ALIGNED := by decide
  have hnext : ∀ b ∈ ls, b ≠ MEM_SIZE_ALIGNED → h.next b ≤ MEM_SIZE_ALIGNED :=
    fun b hb hne => next_le_end hw.blocks.linked hw.blocks.last hb hne
  have hend : ∀ b, Fits h k b → b ≠ MEM_SIZE_ALIGNED := by
    rintro b ⟨hub, -⟩ rfl
    rw [hw.blocks.used_end] at hub
    cases hub
  rw [memMalloc, ← hk]
  by_cases hzero : size = 0
  · exact .inl ⟨if_pos hzero, fun hpos => absurd hzero hpos.ne'⟩
  rw [if_neg hzero, hkif]
  by_cases hbig : k > MEM_SIZE_ALIGNED
  · refine .inl ⟨if_pos hbig, fun _ b hb hfits => ?_⟩
    have := hnext b hb (hend b hfits)
    have := hfits.2
    omega
  simp only [if_neg hbig]
  obtain ⟨xs, ys, hls⟩ := List.append_of_mem hw.lowest.mem
  have hblocks := hw.blocks
  rw [hls] at hblocks
  have hchain := (List.isChain_append.mp hblocks.linked).2.1
  have hlast : (h.lfree :: ys).getLast? = some MEM_SIZE_ALIGNED := by
    have := hblocks.last
    simp only [List.getLast?_append, List.getLast?_cons] at this ⊢
    simpa using this
  -- what is in front of `lfree` is used, so the scan may begin there
  have hfront : ∀ b ∈ ls, Fits h k b → b ∈ h.lfree :: ys := by
    intro b hb hfits
    have hle := hw.lowest.le b hb hfits.1
    rw [hls] at hb
    rcases List.mem_append.mp hb with hbx | hby
    · have := (List.pairwise_append.mp hblocks.sorted).2.2 b hbx _ (List.mem_cons_self ..)
      omega
    · exact hby
  rcases scan_spec (show 0 < k by omega) hw.blocks.used_end (MEM_SIZE_ALIGNED + 1) hchain hlast
      (by omega) with ⟨hscan, hnot⟩ | ⟨ptr, hptr, hscan, hne, hfits, hleast⟩
  · left
    rw [hscan]
    exact ⟨rfl, fun _ b hb hfits => hnot b (hfront b hb hfits) hfits⟩
  right
  have hmem : ptr ∈ ls := by
    rw [hls]
    exact List.mem_append_right _ hptr
  have hfirst : IsLeast {b | b ∈ ls ∧ Fits h k b} ptr :=
    ⟨⟨hmem, hfits⟩, fun b hb => hleast b (hfront b hb.1 hb.2) hb.2⟩
  obtain ⟨hfree, hfit⟩ := hfits
  obtain ⟨ls', ht⟩ := takeBlock_spec hw hmem hne hfree hfit (by omega) (show size ≤ k by omega)
  have hptrNext := hnext ptr hmem hne
  rw [hscan]
  by_cases hlow : ptr = h.lfree
  · subst hlow
    obtain ⟨cur, hrun, hok, hwf⟩ := ht.wf_of_eq hw.lowest
    refine ⟨_, ls', _, ?_, hwf, hfirst⟩
    simp only [Option.bind_eq_bind, Option.bind_some, ↓reduceIte, hrun, if_pos hok]
    rw [if_pos (by omega)]
    rfl
  · have hle : h.lfree ≤ ptr := hw.lowest.le ptr hmem hfree
    have hlend : h.lfree ≠ MEM_SIZE_ALIGNED := by
      have := hw.blocks.le_end hmem
      omega
    refine ⟨_, ls', _, ?_, ht.wf_of_ne hw.lowest hlow hle hlend, hfirst⟩
    simp only [Option.bind_eq_bind, Option.bind_some, if_neg hlow]
    rw [if_pos (by omega)]
    rfl

end QuietLwip.Mem
