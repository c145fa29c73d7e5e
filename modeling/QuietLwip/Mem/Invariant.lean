import QuietLwip.Mem.Blocks

/-!
# The heap functions keep the invariant

`plug_holes` removes the freed block's unused neighbours from the list, `mem_trim` and
`mem_malloc` put a new unused block behind the shrunk or taken one. Each update rewires
the stretch between two blocks; what is outside it, and the blocks handed out, stay.
-/

namespace QuietLwip.Mem

open QuietLwip.Word QuietLwip.Splice

/-! ### Live pointers -/

/-- The blocks handed out are the same before and after. -/
theorem Live.transfer {h h' : Heap} {ls ls' : List ℕ} {live : List (ℕ × ℕ)} (hl : Live h ls live)
    (hkeep : ∀ b ∈ ls, b ≠ MEM_SIZE_ALIGNED → h.used b = true →
      b ∈ ls' ∧ h'.used b = true ∧ h'.next b = h.next b)
    (hback : ∀ b ∈ ls', b ≠ MEM_SIZE_ALIGNED → h'.used b = true → b ∈ ls ∧ h.used b = true) :
    Live h' ls' live := by
  refine ⟨?_, hl.nodup, ?_⟩
  · intro a ha
    obtain ⟨b, hb, hne, hab, hub, hlen⟩ := hl.block a ha
    obtain ⟨hb', hub', hnext⟩ := hkeep b hb hne hub
    exact ⟨b, hb', hne, hab, hub', by rw [hnext]; exact hlen⟩
  · intro b hb hne hub
    obtain ⟨hb', hub'⟩ := hback b hb hne hub
    exact hl.used b hb' hne hub'

/-- The block of a live pointer, with its neighbourhood. -/
theorem Wf.block_of_live {h : Heap} {ls : List ℕ} {live : List (ℕ × ℕ)} (hw : Wf h ls live)
    {p r : ℕ} (ha : (p, r) ∈ live) :
    ∃ mem xs n ys, p = mem + SIZEOF_STRUCT_MEM ∧ ls = xs ++ mem :: n :: ys ∧ Linked h mem n ∧
      n ≤ MEM_SIZE_ALIGNED ∧ h.used mem = true ∧ p + r ≤ n := by
  obtain ⟨mem, hmem, hne, hp, hused, hlen⟩ := hw.live.block _ ha
  obtain ⟨xs, n, ys, rfl⟩ := exists_split_of_mem hmem hw.blocks.last hne
  have hlink := isChain_rel hw.blocks.linked
  have hn : n ≤ MEM_SIZE_ALIGNED := hw.blocks.le_end (by simp)
  exact ⟨mem, xs, n, ys, hp, rfl, hlink, hn, hused, by rw [← hlink.1]; exact hlen⟩

/-! ### `plug_holes` -/

/-- The state in which `plug_holes(mem)` is called: nothing is wrong but that the
neighbours of `mem` may be unused as well. -/
structure Hole (h : Heap) (ls : List ℕ) (live : List (ℕ × ℕ)) (mem : ℕ) : Prop where
  blocks : Blocks h ls
  mem_mem : mem ∈ ls
  mem_ne : mem ≠ MEM_SIZE_ALIGNED
  unused : h.used mem = false
  coalesced : ls.IsChain fun x y => x = mem ∨ y = mem ∨ h.used x = true ∨ h.used y = true
  lowest : Lowest h ls
  live : Live h ls live

/-- As `Hole`, with the hole behind `mem` plugged. -/
structure FrontHole (h : Heap) (ls : List ℕ) (live : List (ℕ × ℕ)) (mem : ℕ) : Prop where
  blocks : Blocks h ls
  mem_mem : mem ∈ ls
  mem_ne : mem ≠ MEM_SIZE_ALIGNED
  unused : h.used mem = false
  coalesced : ls.IsChain fun x y => y = mem ∨ h.used x = true ∨ h.used y = true
  lowest : Lowest h ls
  live : Live h ls live

/-- The update both halves of `plug_holes` make: what is between `b` and `n` is merged
into `b`. -/
def Heap.merge (h : Heap) (b n : ℕ) : Heap := (h.setNext b n).setPrev n b

@[simp] theorem Heap.merge_next (h : Heap) (b n : ℕ) :
    (h.merge b n).next = Function.update h.next b n := by simp [Heap.merge]

@[simp] theorem Heap.merge_prev (h : Heap) (b n : ℕ) :
    (h.merge b n).prev = Function.update h.prev n b := by simp [Heap.merge]

@[simp] theorem Heap.merge_used (h : Heap) (b n : ℕ) : (h.merge b n).used = h.used := by
  simp [Heap.merge]

@[simp] theorem Heap.merge_lfree (h : Heap) (b n : ℕ) : (h.merge b n).lfree = h.lfree := rfl

theorem Blocks.merge {h : Heap} {xs ys : List ℕ} {b m n : ℕ}
    (hb : Blocks h (xs ++ b :: m :: n :: ys)) : Blocks (h.merge b n) (xs ++ b :: n :: ys) := by
  obtain ⟨hxs, hbm, hmys⟩ := hb.around
  have hmn : m < n := hmys n (List.mem_cons_self ..)
  have hgap : b + SIZEOF_STRUCT_MEM + MIN_SIZE_ALIGNED ≤ m := (isChain_rel hb.linked).2.2
  refine Blocks.splice [m] [] hb ?_ ?_ ?_ ?_
  · intro x hx
    rw [Heap.merge_next, Function.update_of_ne (by omega)]
  · intro x hx
    rw [Heap.merge_prev, Function.update_of_ne (by omega)]
  · rw [Heap.merge_used]
    exact hb.used_end
  · refine List.isChain_pair.mpr ⟨?_, fun _ => ?_, by omega⟩
    · rw [Heap.merge_next, Function.update_self]
    · rw [Heap.merge_prev, Function.update_self]

/-- Merging the unused block `m` into the unused block `b` in front of it, when `lfree`
is not `m`: what is lowest and what is live stays so. -/
theorem Lowest.merge {h : Heap} {xs ys : List ℕ} {b m n : ℕ}
    (hl : Lowest h (xs ++ b :: m :: n :: ys)) (hm : h.lfree ≠ m) :
    Lowest (h.merge b n) (xs ++ b :: n :: ys) := by
  obtain ⟨hmem, hfree, hle⟩ := hl
  constructor
  · rw [Heap.merge_lfree]
    simpa [hm] using hmem
  · rw [Heap.merge_lfree, Heap.merge_used]
    exact hfree
  · rw [Heap.merge_lfree, Heap.merge_used]
    intro c hc
    refine hle c ?_
    simp only [List.mem_append, List.mem_cons] at hc ⊢
    tauto

theorem Live.merge {h : Heap} {xs ys : List ℕ} {live : List (ℕ × ℕ)} {b m n : ℕ}
    (hl : Live h (xs ++ b :: m :: n :: ys) live) (hb : h.used b = false) (hm : h.used m = false) :
    Live (h.merge b n) (xs ++ b :: n :: ys) live := by
  refine hl.transfer ?_ ?_
  · intro c hc _ huc
    have hcm : c ≠ m := by
      rintro rfl
      rw [hm] at huc
      cases huc
    have hcb : c ≠ b := by
      rintro rfl
      rw [hb] at huc
      cases huc
    refine ⟨by simpa [hcm] using hc, by rw [Heap.merge_used]; exact huc, ?_⟩
    rw [Heap.merge_next, Function.update_of_ne hcb]
  · intro c hc _ huc
    rw [Heap.merge_used] at huc
    refine ⟨?_, huc⟩
    simp only [List.mem_append, List.mem_cons] at hc ⊢
    tauto

theorem plugForward_spec {h : Heap} {ls : List ℕ} {live : List (ℕ × ℕ)} {mem : ℕ}
    (hh : Hole h ls live mem) : ∃ ls', FrontHole (plugForward h mem) ls' live mem := by
  obtain ⟨hb, hmem, hne, hunused, hcoal, hlow, hlive⟩ := hh
  obtain ⟨xs, n, ys, rfl⟩ := exists_split_of_mem hmem hb.last hne
  obtain ⟨hxs, hmn, hys⟩ := hb.around
  have hlink := isChain_rel hb.linked
  -- outside the pair of `mem` and its successor nothing is to be done
  have hfront : ∀ x ∈ xs, x ≠ mem := fun x hx => (hxs x hx).ne
  have hback : ∀ x ∈ n :: ys, x ≠ mem := by
    intro x hx
    rcases List.mem_cons.mp hx with hx | hx
    · omega
    · have := hys x hx
      omega
  by_cases hcond : h.used n = false ∧ n ≠ MEM_SIZE_ALIGNED
  · obtain ⟨hun, hnend⟩ := hcond
    obtain ⟨ys, m, rfl⟩ : ∃ ys' m, ys = m :: ys' := by
      cases ys with
      | nil =>
        have hlast := hb.last
        simp at hlast
        exact absurd hlast hnend
      | cons m ys => exact ⟨ys, m, rfl⟩
    have hb' : Blocks h ((xs ++ [mem]) ++ n :: m :: ys) := by simpa using hb
    have hlinkn := isChain_rel hb'.linked
    have hlfree : h.lfree ≠ n := by
      have := hlow.le mem hmem hunused
      omega
    have hplug : plugForward h mem = h.merge mem m := by
      simp only [plugForward, hlink.1, Heap.setNext_next]
      rw [if_pos ⟨by omega, hun, hnend⟩]
      simp only [if_neg hlfree, hlinkn.1,
        Function.update_of_ne (show n ≠ mem by omega), Heap.merge]
    have hnm : n < m := hlinkn.lt
    have hum : h.used m = true := by
      have hc : ((xs ++ [mem]) ++ n :: m :: ys).IsChain
          fun x y => x = mem ∨ y = mem ∨ h.used x = true ∨ h.used y = true := by
        simpa using hcoal
      have hpair := isChain_rel hc
      rw [hun] at hpair
      rcases hpair with hp | hp | hp | hp
      · omega
      · omega
      · cases hp
      · exact hp
    rw [hplug]
    refine ⟨xs ++ mem :: m :: ys, hb.merge, by simp, hne, by rw [Heap.merge_used]; exact hunused,
      ?_, hlow.merge hlfree, hlive.merge hunused hun⟩
    rw [Heap.merge_used]
    refine isChain_splice [n] [] hcoal ?_ ?_ ?_
    · rintro x hx y - (hxm | hrest)
      · exact absurd hxm (hfront x hx)
      · exact hrest
    · exact List.isChain_pair.mpr (Or.inr (Or.inr hum))
    · rintro x hx y - (hxm | hrest)
      · exact absurd hxm (hback x (List.mem_cons_of_mem _ hx))
      · exact hrest
  · have hun : h.used n = true := by
      by_contra hun
      have hnend : n = MEM_SIZE_ALIGNED := by
        by_contra hnend
        exact hcond ⟨Bool.eq_false_of_not_eq_true hun, hnend⟩
      rw [hnend] at hun
      exact hun hb.used_end
    have hplug : plugForward h mem = h := by
      simp only [plugForward, hlink.1]
      rw [if_neg fun hc => hcond hc.2]
    rw [hplug]
    refine ⟨xs ++ mem :: n :: ys, hb, hmem, hne, hunused, ?_, hlow, hlive⟩
    refine isChain_splice [] [] hcoal ?_ ?_ ?_
    · rintro x hx y - (hxm | hrest)
      · exact absurd hxm (hfront x hx)
      · exact hrest
    · exact List.isChain_pair.mpr (Or.inr (Or.inr hun))
    · rintro x hx y - (hxm | hrest)
      · exact absurd hxm (hback x hx)
      · exact hrest

theorem plugBackward_spec {h : Heap} {ls : List ℕ} {live : List (ℕ × ℕ)} {mem : ℕ}
    (hh : FrontHole h ls live mem) : ∃ ls', Wf (plugBackward h mem) ls' live := by
  obtain ⟨hb, hmem, hne, hunused, hcoal, hlow, hlive⟩ := hh
  obtain ⟨xs, n, ys, rfl⟩ := exists_split_of_mem hmem hb.last hne
  obtain ⟨hxs, hmn, hys⟩ := hb.around
  have hlink := isChain_rel hb.linked
  have hback : ∀ y ∈ ys, y ≠ mem := fun y hy => by
    have := hys y hy
    omega
  cases xs using List.reverseRecOn with
  | nil =>
    -- the first block has no predecessor: `prev` is its own offset
    have hzero : mem = 0 := Option.some.inj hb.head
    have hplug : plugBackward h mem = h := by
      simp only [plugBackward]
      rw [if_neg fun hc => hc.1 (by rw [hzero]; exact hb.prev_zero)]
    rw [hplug]
    refine ⟨_, hb, ?_, hlow, hlive⟩
    obtain ⟨hpair, hrest⟩ := List.isChain_cons_cons.mp hcoal
    refine List.isChain_cons_cons.mpr ⟨?_, ?_⟩
    · rcases hpair with hp | hp
      · omega
      · exact hp
    · refine List.IsChain.imp_of_mem_tail_imp ?_ hrest
      rintro x y - hy (hym | hrest)
      · exact absurd hym (hback y hy)
      · exact hrest
  | append_singleton xs p =>
    have hb' : Blocks h (xs ++ p :: mem :: n :: ys) := by simpa using hb
    have hcoal' : (xs ++ p :: mem :: n :: ys).IsChain
        fun x y => y = mem ∨ h.used x = true ∨ h.used y = true := by simpa using hcoal
    have hlinkp := isChain_rel hb'.linked
    have hpm := hlinkp.lt
    have hprev : h.prev mem = p := hlinkp.2.1 hne
    have hun : h.used n = true := by
      have hpair := isChain_rel hcoal
      rw [hunused] at hpair
      rcases hpair with hp | hp | hp
      · omega
      · cases hp
      · exact hp
    have hfront : ∀ y ∈ xs ++ [p], y ≠ mem := fun y hy => (hxs y hy).ne
    by_cases hup : h.used p = false
    · have hlfree : h.lfree ≠ mem := by
        have hpmem : p ∈ xs ++ [p] ++ mem :: n :: ys := by simp
        have := hlow.le p hpmem hup
        omega
      have hplug : plugBackward h mem = h.merge p n := by
        simp only [plugBackward, hprev]
        rw [if_pos ⟨by omega, hup⟩]
        simp only [if_neg hlfree, hlink.1, Heap.setNext_next,
          Function.update_of_ne (show mem ≠ p by omega), Heap.merge]
      have hlow' : Lowest h (xs ++ p :: mem :: n :: ys) := by simpa using hlow
      have hlive' : Live h (xs ++ p :: mem :: n :: ys) live := by simpa using hlive
      rw [hplug]
      refine ⟨xs ++ p :: n :: ys, hb'.merge, ?_, hlow'.merge hlfree, hlive'.merge hup hunused⟩
      rw [Coalesced, Heap.merge_used]
      refine isChain_splice [mem] [] hcoal' ?_ ?_ ?_
      · rintro x - y hy (hym | hrest)
        · exact absurd hym (hfront y hy)
        · exact hrest
      · exact List.isChain_pair.mpr (Or.inr hun)
      · rintro x - y hy (hym | hrest)
        · exact absurd hym (hback y hy)
        · exact hrest
    · have hplug : plugBackward h mem = h := by
        simp only [plugBackward, hprev]
        rw [if_neg fun hc => hup hc.2]
      rw [hplug]
      refine ⟨_, hb, ?_, hlow, hlive⟩
      rw [List.append_assoc]
      refine isChain_splice [] [] hcoal' ?_ ?_ ?_
      · rintro x - y hy (hym | hrest)
        · exact absurd hym (hfront y hy)
        · exact hrest
      · exact List.isChain_pair.mpr (Or.inl (Bool.eq_true_of_not_eq_false hup))
      · rintro x - y hy (hym | hrest)
        · rcases List.mem_cons.mp hy with hyn | hyy
          · omega
          · exact absurd hym (hback y hyy)
        · exact hrest

theorem plugHoles_spec {h : Heap} {ls : List ℕ} {live : List (ℕ × ℕ)} {mem : ℕ}
    (hh : Hole h ls live mem) : ∃ h' ls', plugHoles h mem = some h' ∧ Wf h' ls' live := by
  obtain ⟨ls₁, hfront⟩ := plugForward_spec hh
  obtain ⟨ls₂, hwf⟩ := plugBackward_spec hfront
  refine ⟨_, ls₂, ?_, hwf⟩
  obtain ⟨xs, n, ys, hls⟩ := exists_split_of_mem hh.mem_mem hh.blocks.last hh.mem_ne
  have hb := hh.blocks
  rw [hls] at hb
  have hlink := isChain_rel hb.linked
  have hn : n ≤ MEM_SIZE_ALIGNED := hb.le_end (by simp)
  have hlt := hlink.lt
  rw [plugHoles, if_pos ⟨by omega, hh.unused, by rw [hlink.1]; exact hn⟩]

/-! ### `mem_free` -/

/-- The block is marked unused and `lfree` lowered, then the holes are plugged. -/
theorem memFree_mark (h : Heap) {mem : ℕ} (hused : h.used mem = true)
    (hlt : mem + SIZEOF_STRUCT_MEM < MEM_SIZE_ALIGNED) :
    ∃ h₂, memFree h (some (mem + SIZEOF_STRUCT_MEM)) = plugHoles h₂ mem ∧ h₂.next = h.next ∧
      h₂.prev = h.prev ∧ h₂.used = Function.update h.used mem false ∧
      h₂.lfree = min h.lfree mem := by
  by_cases hlow : mem < h.lfree
  · refine ⟨(h.setUsed mem false).setLfree mem, ?_, by simp, by simp, by simp, ?_⟩
    · simp only [memFree, Nat.add_sub_cancel, hlt, hused, and_self, ↓reduceIte,
        Heap.setUsed_lfree, hlow]
    · simp only [Heap.setLfree_lfree]
      omega
  · refine ⟨h.setUsed mem false, ?_, by simp, by simp, by simp, ?_⟩
    · simp only [memFree, Nat.add_sub_cancel, hlt, hused, and_self, ↓reduceIte,
        Heap.setUsed_lfree, hlow]
    · simp only [Heap.setUsed_lfree]
      omega

theorem memFree_spec {h : Heap} {ls : List ℕ} {live : List (ℕ × ℕ)} (hw : Wf h ls live) {p r : ℕ}
    (ha : (p, r) ∈ live) :
    ∃ h' ls', memFree h (some p) = some h' ∧ Wf h' ls' (live.filter fun a => a.1 ≠ p) := by
  obtain ⟨mem, xs, n, ys, rfl, hls, hlink, hn, hused, -⟩ := hw.block_of_live ha
  have hmem : mem ∈ ls := by
    rw [hls]
    simp
  have hlt := hlink.2.2
  unfold SIZEOF_STRUCT_MEM MIN_SIZE_ALIGNED at hlt
  have hne : mem ≠ MEM_SIZE_ALIGNED := by omega
  have hother : ∀ b, b ≠ mem → Function.update h.used mem false b = h.used b :=
    fun b hb => Function.update_of_ne hb ..
  obtain ⟨h₂, hrun, hnext, hprev, husedEq, hlfree⟩ := memFree_mark h hused
    (show mem + SIZEOF_STRUCT_MEM < MEM_SIZE_ALIGNED by unfold SIZEOF_STRUCT_MEM; omega)
  have hunused : h₂.used mem = false := by rw [husedEq, Function.update_self]
  have hhole : Hole h₂ ls (live.filter fun a => a.1 ≠ mem + SIZEOF_STRUCT_MEM) mem := by
    refine ⟨⟨?_, hw.blocks.head, hw.blocks.last, ?_, ?_⟩, hmem, hne, hunused, ?_, ?_, ?_⟩
    · refine hw.blocks.linked.imp ?_
      rintro x y ⟨hx, hy, hgap⟩
      rw [Linked, hnext, hprev]
      exact ⟨hx, hy, hgap⟩
    · rw [hprev]
      exact hw.blocks.prev_zero
    · rw [husedEq, hother _ (Ne.symm hne)]
      exact hw.blocks.used_end
    · refine List.IsChain.imp ?_ hw.coalesced
      intro x y hxy
      by_cases hx : x = mem
      · exact Or.inl hx
      · by_cases hy : y = mem
        · exact Or.inr (Or.inl hy)
        · rw [husedEq, hother x hx, hother y hy]
          exact Or.inr (Or.inr hxy)
    · constructor
      · rw [hlfree]
        rcases Nat.le_total h.lfree mem with hle | hle
        · rw [min_eq_left hle]
          exact hw.lowest.mem
        · rw [min_eq_right hle]
          exact hmem
      · intro hend
        rcases Nat.lt_or_ge h.lfree mem with hle | hle
        · rw [hlfree, min_eq_left hle.le] at hend ⊢
          rw [husedEq, hother _ (by omega)]
          exact hw.lowest.unused hend
        · rw [hlfree, min_eq_right hle]
          exact hunused
      · intro b hb hub
        rw [hlfree]
        by_cases hbm : b = mem
        · rw [hbm]
          exact min_le_right _ _
        · rw [husedEq, hother b hbm] at hub
          exact (min_le_left _ _).trans (hw.lowest.le b hb hub)
    · refine ⟨?_, hw.live.nodup.sublist (List.Sublist.map _ List.filter_sublist), ?_⟩
      · intro a ha'
        obtain ⟨b, hb, hbe, hab, hub, hlen⟩ := hw.live.block a (List.mem_of_mem_filter ha')
        have hbm : b ≠ mem := by
          intro hbm
          rw [hbm] at hab
          have := List.of_mem_filter ha'
          simp [hab] at this
        refine ⟨b, hb, hbe, hab, ?_, by rw [hnext]; exact hlen⟩
        rw [husedEq, hother b hbm]
        exact hub
      · intro b hb hbe hub
        have hbm : b ≠ mem := by
          rintro rfl
          rw [hunused] at hub
          cases hub
        rw [husedEq, hother b hbm] at hub
        obtain ⟨a, ha', hab⟩ := List.mem_map.mp (hw.live.used b hb hbe hub)
        refine List.mem_map.mpr ⟨a, List.mem_filter.mpr ⟨ha', ?_⟩, hab⟩
        simp only [hab, ne_eq, Nat.add_right_cancel_iff, decide_not, Bool.not_eq_eq_eq_not,
          Bool.not_true, decide_eq_false_iff_not]
        exact hbm
  obtain ⟨h', ls', hplug, hwf⟩ := plugHoles_spec hhole
  exact ⟨h', ls', hrun.trans hplug, hwf⟩

/-! ### The new block of `mem_trim` and `mem_malloc` -/

/-- No header lies between two neighbours. -/
theorem Blocks.not_mem_gap {h : Heap} {xs ys : List ℕ} {b c n : ℕ}
    (hb : Blocks h (xs ++ b :: n :: ys)) (hbc : b < c) (hcn : c < n) : c ∉ xs ++ b :: n :: ys := by
  obtain ⟨hxs, -, hys⟩ := hb.around
  intro hc
  simp only [List.mem_append, List.mem_cons] at hc
  rcases hc with hc | hc | hc | hc
  · have := hxs c hc
    omega
  · omega
  · omega
  · have := hys c hc
    omega

section LinkAfter

variable (h : Heap) {ptr ptr2 next : ℕ}

theorem linkAfter_next :
    (linkAfter h ptr ptr2 next).next =
      Function.update (Function.update h.next ptr2 next) ptr ptr2 := by
  simp only [linkAfter]
  split <;> simp

theorem linkAfter_used :
    (linkAfter h ptr ptr2 next).used = Function.update h.used ptr2 false := by
  simp only [linkAfter]
  split <;> simp

theorem linkAfter_lfree : (linkAfter h ptr ptr2 next).lfree = h.lfree := by
  simp only [linkAfter]
  split <;> simp

/-- `prev` is set in the new block and in the one behind it, unless that is the end. -/
theorem linkAfter_prev (hne : ptr2 ≠ ptr) :
    (linkAfter h ptr ptr2 next).prev =
      if next ≠ MEM_SIZE_ALIGNED then
        Function.update (Function.update h.prev ptr2 ptr) next ptr2
      else Function.update h.prev ptr2 ptr := by
  have hread : (((h.setUsed ptr2 false).setNext ptr2 next).setPrev ptr2 ptr
      |>.setNext ptr ptr2).next ptr2 = next := by
    simp [Function.update_of_ne hne]
  simp only [linkAfter, hread]
  split <;> simp

end LinkAfter

theorem Blocks.linkAfter {h : Heap} {xs ys : List ℕ} {b c n : ℕ} (zs : List ℕ)
    (hb : Blocks h (xs ++ b :: (zs ++ n :: ys)))
    (hbc : b + SIZEOF_STRUCT_MEM + MIN_SIZE_ALIGNED ≤ c)
    (hcn : c + SIZEOF_STRUCT_MEM + MIN_SIZE_ALIGNED ≤ n) :
    Blocks (linkAfter h b c n) (xs ++ b :: c :: n :: ys) := by
  have hn : n ≤ MEM_SIZE_ALIGNED := hb.le_end (by simp)
  unfold SIZEOF_STRUCT_MEM MIN_SIZE_ALIGNED at hbc hcn
  refine Blocks.splice zs [c] hb ?_ ?_ ?_ ?_
  · intro x hx
    rw [linkAfter_next, Function.update_of_ne (by omega), Function.update_of_ne (by omega)]
  · intro x hx
    rw [linkAfter_prev h (by omega)]
    split
    · rw [Function.update_of_ne (by omega), Function.update_of_ne (by omega)]
    · rw [Function.update_of_ne (by omega)]
  · rw [linkAfter_used, Function.update_of_ne (by omega)]
    exact hb.used_end
  · refine List.isChain_cons_cons.mpr ⟨⟨?_, fun _ => ?_, hbc⟩, List.isChain_pair.mpr ⟨?_, ?_, hcn⟩⟩
    · rw [linkAfter_next, Function.update_self]
    · rw [linkAfter_prev h (by omega)]
      split
      · rw [Function.update_of_ne (by omega), Function.update_self]
      · rw [Function.update_self]
    · rw [linkAfter_next, Function.update_of_ne (by omega), Function.update_self]
    · intro hne
      rw [linkAfter_prev h (by omega), if_pos hne, Function.update_self]

/-! ### `mem_trim` -/

/-- The live pointers after `mem_trim(p, n)`. -/
def trimmed (live : List (ℕ × ℕ)) (p n : ℕ) : List (ℕ × ℕ) :=
  live.map fun a => if a.1 = p then (p, n) else a

theorem trimmed_fst (live : List (ℕ × ℕ)) (p n : ℕ) :
    (trimmed live p n).map Prod.fst = live.map Prod.fst := by
  rw [trimmed, List.map_map]
  apply List.map_congr_left
  intro a _
  simp only [Function.comp_apply]
  split
  · next hp => exact hp.symm
  · rfl

theorem Live.trim {h h' : Heap} {ls ls' : List ℕ} {live : List (ℕ × ℕ)} (hl : Live h ls live)
    {mem n : ℕ} (hmem : mem ∈ ls') (hne : mem ≠ MEM_SIZE_ALIGNED) (hused : h'.used mem = true)
    (hlen : mem + SIZEOF_STRUCT_MEM + n ≤ h'.next mem)
    (hkeep : ∀ b ∈ ls, b ≠ MEM_SIZE_ALIGNED → h.used b = true → b ≠ mem →
      b ∈ ls' ∧ h'.used b = true ∧ h'.next b = h.next b)
    (hback : ∀ b ∈ ls', b ≠ MEM_SIZE_ALIGNED → h'.used b = true → b ∈ ls ∧ h.used b = true) :
    Live h' ls' (trimmed live (mem + SIZEOF_STRUCT_MEM) n) := by
  refine ⟨?_, by rw [trimmed_fst]; exact hl.nodup, ?_⟩
  · intro a ha
    obtain ⟨c, hc, rfl⟩ := List.mem_map.mp ha
    by_cases hcp : c.1 = mem + SIZEOF_STRUCT_MEM
    · rw [if_pos hcp]
      exact ⟨mem, hmem, hne, rfl, hused, hlen⟩
    · rw [if_neg hcp]
      obtain ⟨b, hb, hbe, hcb, hub, hfit⟩ := hl.block c hc
      have hbm : b ≠ mem := by
        rintro rfl
        exact hcp hcb
      obtain ⟨hb', hub', hnext⟩ := hkeep b hb hbe hub hbm
      exact ⟨b, hb', hbe, hcb, hub', by rw [hnext]; exact hfit⟩
  · intro b hb hbe hub
    obtain ⟨hb', hub'⟩ := hback b hb hbe hub
    rw [trimmed_fst]
    exact hl.used b hb' hbe hub'

theorem Blocks.setLfree {h : Heap} {ls : List ℕ} (hb : Blocks h ls) (l : ℕ) :
    Blocks (h.setLfree l) ls := ⟨hb.linked, hb.head, hb.last, hb.prev_zero, hb.used_end⟩

/-- The used block `b` ends at the new unused block `c`, which takes the place of the
unused blocks `zs` in front of the used block `n`. -/
theorem Wf.shrink {h : Heap} {xs ys : List ℕ} (zs : List ℕ) {live : List (ℕ × ℕ)} {b c n r : ℕ}
    (hw : Wf h (xs ++ b :: (zs ++ n :: ys)) live) (hub : h.used b = true) (hun : h.used n = true)
    (hzs : ∀ z ∈ zs, h.used z = false ∧ c < z) (hnew : c ∉ xs ++ b :: (zs ++ n :: ys))
    (hbc : b + SIZEOF_STRUCT_MEM + MIN_SIZE_ALIGNED ≤ c)
    (hcn : c + SIZEOF_STRUCT_MEM + MIN_SIZE_ALIGNED ≤ n) (hr : b + SIZEOF_STRUCT_MEM + r ≤ c) :
    Wf (linkAfter (h.setLfree (min h.lfree c)) b c n) (xs ++ b :: c :: n :: ys)
      (trimmed live (b + SIZEOF_STRUCT_MEM) r) := by
  have hblocks := (hw.blocks.setLfree (min h.lfree c)).linkAfter zs hbc hcn
  have hn : n ≤ MEM_SIZE_ALIGNED := hw.blocks.le_end (by simp)
  unfold SIZEOF_STRUCT_MEM MIN_SIZE_ALIGNED at hbc hcn
  have huc : Function.update h.used c false c = false := Function.update_self ..
  have hold : ∀ x ∈ xs ++ b :: (zs ++ n :: ys), Function.update h.used c false x = h.used x := by
    intro x hx
    refine Function.update_of_ne ?_ ..
    rintro rfl
    exact hnew hx
  -- the blocks of the new list are those of the old one, with `c` for `zs`
  have hsub : ∀ x ∈ xs ++ b :: (zs ++ n :: ys), x ∉ zs → x ∈ xs ++ b :: c :: n :: ys := by
    intro x hx hxz
    simp only [List.mem_append, List.mem_cons] at hx ⊢
    tauto
  have hsup : ∀ x ∈ xs ++ b :: c :: n :: ys, x ≠ c → x ∈ xs ++ b :: (zs ++ n :: ys) := by
    intro x hx hxc
    simp only [List.mem_append, List.mem_cons] at hx ⊢
    tauto
  refine ⟨hblocks, ?_, ⟨?_, ?_, ?_⟩, ?_⟩
  · rw [Coalesced, linkAfter_used]
    have hkept : ∀ x ∈ xs ++ b :: (zs ++ n :: ys), ∀ y ∈ xs ++ b :: (zs ++ n :: ys),
        (h.used x = true ∨ h.used y = true) →
        Function.update h.used c false x = true ∨ Function.update h.used c false y = true := by
      intro x hx y hy hxy
      rw [hold x hx, hold y hy]
      exact hxy
    refine isChain_splice zs [c] hw.coalesced ?_ ?_ ?_
    · intro x hx y hy
      refine hkept x (by simp [hx]) y ?_
      simp only [List.mem_append, List.mem_cons, List.not_mem_nil] at hy ⊢
      tauto
    · refine List.isChain_cons_cons.mpr ⟨Or.inl ?_, List.isChain_pair.mpr (Or.inr ?_)⟩
      · exact (hold b (by simp)).trans hub
      · exact (hold n (by simp)).trans hun
    · intro x hx y hy
      refine hkept x ?_ y (by simp [hy])
      simp only [List.mem_append, List.mem_cons] at hx ⊢
      tauto
  · rw [linkAfter_lfree, Heap.setLfree_lfree]
    rcases Nat.le_total h.lfree c with hle | hle
    · rw [min_eq_left hle]
      refine hsub _ hw.lowest.mem fun hz => ?_
      have := (hzs _ hz).2
      omega
    · rw [min_eq_right hle]
      simp
  · rw [linkAfter_lfree, linkAfter_used, Heap.setLfree_lfree, Heap.setLfree_used]
    intro hend
    rcases Nat.lt_or_ge h.lfree c with hle | hle
    · rw [min_eq_left hle.le] at hend ⊢
      rw [hold _ hw.lowest.mem]
      exact hw.lowest.unused hend
    · rw [min_eq_right hle]
      exact huc
  · rw [linkAfter_lfree, linkAfter_used, Heap.setLfree_lfree, Heap.setLfree_used]
    intro x hx hux
    by_cases hxc : x = c
    · rw [hxc]
      exact min_le_right _ _
    · have hxold := hsup x hx hxc
      rw [hold x hxold] at hux
      exact (min_le_left _ _).trans (hw.lowest.le x hxold hux)
  · refine hw.live.trim (by simp) (by omega) ?_ ?_ ?_ ?_
    · rw [linkAfter_used]
      exact (hold b (by simp)).trans hub
    · rw [linkAfter_next, Function.update_self]
      exact hr
    · intro x hx _ hux hxb
      refine ⟨hsub x hx fun hz => ?_, ?_, ?_⟩
      · rw [(hzs x hz).1] at hux
        cases hux
      · rw [linkAfter_used]
        exact (hold x hx).trans hux
      · have hxc : x ≠ c := by
          rintro rfl
          exact hnew hx
        rw [linkAfter_next, Function.update_of_ne hxb, Function.update_of_ne hxc]
        rfl
    · intro x hx _ hux
      rw [linkAfter_used] at hux
      have hxc : x ≠ c := by
        rintro rfl
        exact absurd (huc.symm.trans hux) (by decide)
      have hxold := hsup x hx hxc
      exact ⟨hxold, (hold x hxold).symm.trans hux⟩

theorem setLfree_ite (h : Heap) (P : Prop) [Decidable P] (l : ℕ) :
    (if P then h.setLfree l else h) = h.setLfree (if P then l else h.lfree) := by
  split <;> rfl

/-- The sizes `mem_trim` computes with, of a block that the call does not grow. -/
theorem Linked.trim_sizes {h : Heap} {mem n k : ℕ} (hl : Linked h mem n)
    (hn : n ≤ MEM_SIZE_ALIGNED) (hk : mem + SIZEOF_STRUCT_MEM + k ≤ n) :
    u16 ((h.next mem : ℤ) - mem - SIZEOF_STRUCT_MEM) = n - mem - SIZEOF_STRUCT_MEM ∧
      u16 ((mem : ℤ) + SIZEOF_STRUCT_MEM + k) = mem + SIZEOF_STRUCT_MEM + k := by
  obtain ⟨hnext, -, -⟩ := hl
  unfold MEM_SIZE_ALIGNED at hn
  unfold SIZEOF_STRUCT_MEM at *
  simp only [u16, wrapU, hnext]
  omega

theorem memTrim_spec {h : Heap} {ls : List ℕ} {live : List (ℕ × ℕ)} (hw : Wf h ls live)
    {p r newsize : ℕ} (ha : (p, r) ∈ live)
    (hn : p + newsize ≤ h.next (p - SIZEOF_STRUCT_MEM)) :
    ∃ h' ls', memTrim h p newsize = some (h', some p) ∧ Wf h' ls' (trimmed live p newsize) := by
  obtain ⟨mem, xs, m, ys, rfl, rfl, hlink, hm, hused, -⟩ := hw.block_of_live ha
  rw [Nat.add_sub_cancel, hlink.1] at hn
  have hgap := hlink.2.2
  obtain ⟨k, hk, hnk⟩ : ∃ k, k = max newsize MIN_SIZE_ALIGNED ∧
      (if newsize < MIN_SIZE_ALIGNED then MIN_SIZE_ALIGNED else newsize) = k := by
    refine ⟨_, rfl, ?_⟩
    split <;> omega
  have hkm : mem + SIZEOF_STRUCT_MEM + k ≤ m := by omega
  have hmin : MIN_SIZE_ALIGNED ≤ k := by omega
  obtain ⟨hsize, hptr2⟩ := hlink.trim_sizes hm hkm
  rw [hlink.1] at hsize
  have hhead : mem + SIZEOF_STRUCT_MEM < MEM_SIZE_ALIGNED := by
    unfold MIN_SIZE_ALIGNED at hgap
    omega
  -- what is left of the function once the assertions are discharged
  have hrun : memTrim h (mem + SIZEOF_STRUCT_MEM) newsize =
      if k = m - mem - SIZEOF_STRUCT_MEM then some (h, some (mem + SIZEOF_STRUCT_MEM))
      else if h.used m = false then
        some (linkAfter (if h.lfree = m then h.setLfree (mem + SIZEOF_STRUCT_MEM + k) else h) mem
          (mem + SIZEOF_STRUCT_MEM + k) (h.next m), some (mem + SIZEOF_STRUCT_MEM))
      else if k + SIZEOF_STRUCT_MEM + MIN_SIZE_ALIGNED ≤ m - mem - SIZEOF_STRUCT_MEM then
        some (linkAfter
          (if mem + SIZEOF_STRUCT_MEM + k < h.lfree then
            h.setLfree (mem + SIZEOF_STRUCT_MEM + k) else h) mem
          (mem + SIZEOF_STRUCT_MEM + k) m, some (mem + SIZEOF_STRUCT_MEM))
      else some (h, some (mem + SIZEOF_STRUCT_MEM)) := by
    simp only [memTrim, hnk, Nat.add_sub_cancel, hlink.1, hsize, hptr2]
    rw [if_neg (by omega), if_pos hhead, if_pos (by omega)]
  -- a call that leaves the heap as it is
  have hsame : Wf h (xs ++ mem :: m :: ys) (trimmed live (mem + SIZEOF_STRUCT_MEM) newsize) := by
    refine ⟨hw.blocks, hw.coalesced, hw.lowest, hw.live.trim (by simp) (by omega) hused ?_ ?_ ?_⟩
    · rw [hlink.1]
      exact hn
    · exact fun b hb _ hub _ => ⟨hb, hub, rfl⟩
    · exact fun b hb _ hub => ⟨hb, hub⟩
  rw [hrun]
  by_cases heq : k = m - mem - SIZEOF_STRUCT_MEM
  · exact ⟨h, _, if_pos heq, hsame⟩
  rw [if_neg heq]
  have hnew : mem + SIZEOF_STRUCT_MEM + k ∉ xs ++ mem :: m :: ys :=
    hw.blocks.not_mem_gap (by unfold SIZEOF_STRUCT_MEM; omega) (by omega)
  have hlow : h.lfree ≠ mem := by
    intro hlm
    have := hw.lowest.unused (by omega)
    rw [hlm, hused] at this
    cases this
  by_cases hum : h.used m = false
  · have hmend : m ≠ MEM_SIZE_ALIGNED := by
      rintro rfl
      rw [hw.blocks.used_end] at hum
      cases hum
    obtain ⟨ys, n, rfl⟩ : ∃ ys' n, ys = n :: ys' := by
      cases ys with
      | nil =>
        have hlast := hw.blocks.last
        simp at hlast
        exact absurd hlast hmend
      | cons n ys => exact ⟨ys, n, rfl⟩
    have hw' : Wf h ((xs ++ [mem]) ++ m :: n :: ys) live := by simpa using hw
    have hlinkm := isChain_rel hw'.blocks.linked
    have hmn := hlinkm.2.2
    have hun : h.used n = true := by
      rcases isChain_rel hw'.coalesced with hp | hp
      · rw [hum] at hp
        cases hp
      · exact hp
    have hlfree : (if h.lfree = m then mem + SIZEOF_STRUCT_MEM + k else h.lfree) =
        min h.lfree (mem + SIZEOF_STRUCT_MEM + k) := by
      have := hw.lowest.le m (by simp) hum
      have hgap' : h.lfree ≤ mem ∨ h.lfree = m := by
        by_contra hc
        push Not at hc
        exact hw.blocks.not_mem_gap hc.1 (by omega) hw.lowest.mem
      split <;> omega
    rw [if_pos hum, setLfree_ite, hlfree, hlinkm.1]
    refine ⟨_, _, rfl, Wf.shrink [m] hw hused hun ?_ hnew (by omega) (by omega) (by omega)⟩
    intro z hz
    rw [List.mem_singleton.mp hz]
    exact ⟨hum, by omega⟩
  · have hum' : h.used m = true := Bool.eq_true_of_not_eq_false hum
    rw [if_neg hum]
    by_cases hfit : k + SIZEOF_STRUCT_MEM + MIN_SIZE_ALIGNED ≤ m - mem - SIZEOF_STRUCT_MEM
    · have hlfree : (if mem + SIZEOF_STRUCT_MEM + k < h.lfree then mem + SIZEOF_STRUCT_MEM + k
          else h.lfree) = min h.lfree (mem + SIZEOF_STRUCT_MEM + k) := by
        split <;> omega
      rw [if_pos hfit, setLfree_ite, hlfree]
      exact ⟨_, _, rfl, Wf.shrink [] hw hused hum' nofun hnew (by omega) (by omega)
        (by omega)⟩
    · exact ⟨h, _, if_neg hfit, hsame⟩

end QuietLwip.Mem
