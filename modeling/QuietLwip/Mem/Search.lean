import QuietLwip.Mem.Runs

/-!
# The search of `mem_malloc` is complete

The scan begins at `lfree` and stops short of the end. It finds what a scan of the whole list would
find, since nothing in front of `lfree` is unused and nothing behind the stop is long enough. As
unused neighbours are always merged, a heap with no pointer handed out is one unused block again.
-/

namespace QuietLwip.Mem

open Transition Splice

variable {s : Session} {h : Heap} {ls : List ℕ} {live : List (ℕ × ℕ)}

/-- A scan of all blocks for the first unused one with `n` bytes of user data. -/
def firstFit (h : Heap) (bs : List ℕ) (n : ℕ) : Option ℕ := bs.find? (Fits h n ·)

theorem firstFit_isLeast (hb : Blocks h ls) {n b : ℕ} (hfit : firstFit h ls n = some b) :
    IsLeast {b | b ∈ ls ∧ Fits h n b} b := by
  obtain ⟨hfits, front, back, rfl, hfront⟩ := List.find?_eq_some_iff_append.mp hfit
  refine ⟨⟨by simp, of_decide_eq_true hfits⟩, fun c ⟨hc, hcfits⟩ => ?_⟩
  obtain ⟨-, hback, -⟩ := List.pairwise_append.mp hb.sorted
  rcases List.mem_append.mp hc with hc | hc
  · have hnot := hfront c hc
    rw [decide_eq_true hcfits] at hnot
    cases hnot
  · rcases List.mem_cons.mp hc with hc | hc
    · exact hc.ge
    · exact ((List.pairwise_cons.mp hback).1 c hc).le

theorem Wf.memMalloc_firstFit (hw : Wf h ls live) {size : ℕ} (hsize : 0 < size) :
    ∃ h', memMalloc h size = some (h',
      (firstFit h ls (max size MIN_SIZE_ALIGNED)).map (· + SIZEOF_STRUCT_MEM)) := by
  rcases memMalloc_spec hw size with ⟨hrun, hnot⟩ | ⟨h', ls', ptr, hrun, -, hleast⟩
  · refine ⟨h, ?_⟩
    rw [hrun, firstFit, List.find?_eq_none.mpr fun b hb => by simpa using hnot hsize b hb]
    rfl
  · refine ⟨h', ?_⟩
    rw [hrun, firstFit, find?_eq_of_isLeast hw.blocks.sorted hleast]
    rfl

/-- With nothing handed out no block but the end marker is used, and so there is only one other. -/
theorem Wf.blocks_of_live_nil (hw : Wf h ls []) : ls = [0, MEM_SIZE_ALIGNED] ∧ h.used 0 = false := by
  have hunused : ∀ b ∈ ls, b ≠ MEM_SIZE_ALIGNED → h.used b = false := by
    intro b hb hne
    by_contra hub
    exact List.not_mem_nil (hw.live.used b hb hne (Bool.eq_true_of_not_eq_false hub))
  obtain ⟨xs, n, ys, hls⟩ := exists_split_of_mem (List.mem_of_mem_head? hw.blocks.head)
    hw.blocks.last (by decide)
  have hxs : xs = [] := by
    have hsorted := hw.blocks.sorted
    rw [hls] at hsorted
    refine List.eq_nil_iff_forall_not_mem.mpr fun x hx => ?_
    have := (List.pairwise_append.mp hsorted).2.2 x hx 0 (List.mem_cons_self ..)
    omega
  subst hxs
  subst hls
  have hzero : h.used 0 = false := hunused 0 (by simp) (by decide)
  have hn : n = MEM_SIZE_ALIGNED := by
    by_contra hne
    have hpair := (List.isChain_cons_cons.mp hw.coalesced).1
    rw [hzero, hunused n (by simp) hne] at hpair
    simp at hpair
  have hys : ys = [] := by
    refine List.eq_nil_iff_forall_not_mem.mpr fun y hy => ?_
    have hlt := (Blocks.around (show Blocks h ([] ++ 0 :: n :: ys) from hw.blocks)).2.2 y hy
    have hle := hw.blocks.le_end (b := y) (by simp [hy])
    omega
  rw [hn, hys]
  exact ⟨rfl, hzero⟩

/-- In every reachable state `mem_malloc` finds exactly what a scan of the whole list would find, the
lowest block that is long enough, and nothing only if no unused block is long enough; and when
nothing is handed out the heap is one unused block. -/
theorem search_complete (hs : heapSystem.Reachable s) : ∃ bs, Consistent s.heap s.live bs ∧
    (∀ size, 0 < size →
      (∃ h', memMalloc s.heap size = some (h',
        (firstFit s.heap bs (max size MIN_SIZE_ALIGNED)).map (· + SIZEOF_STRUCT_MEM))) ∧
      (∀ b, firstFit s.heap bs (max size MIN_SIZE_ALIGNED) = some b →
        IsLeast {b | b ∈ bs ∧ Fits s.heap (max size MIN_SIZE_ALIGNED) b} b) ∧
      (firstFit s.heap bs (max size MIN_SIZE_ALIGNED) = none →
        ∀ b ∈ bs, ¬ Fits s.heap (max size MIN_SIZE_ALIGNED) b)) ∧
    (s.live = [] → bs = [0, MEM_SIZE_ALIGNED] ∧ s.heap.used 0 = false) := by
  obtain ⟨ls, hw⟩ := wf_of_reachable hs
  refine ⟨ls, hw.consistent, fun size hsize => ⟨hw.memMalloc_firstFit hsize,
    fun b => firstFit_isLeast hw.blocks, fun hnone b hb => ?_⟩, fun hlive => ?_⟩
  · simpa using List.find?_eq_none.mp hnone b hb
  · rw [hlive] at hw
    exact hw.blocks_of_live_nil

/-- A block is taken and freed again. -/
theorem search_complete_freed : ∃ s, heapSystem.Reachable s ∧ s.live = [] ∧
    ∃ bs, Consistent s.heap s.live bs ∧ bs = [0, MEM_SIZE_ALIGNED] := by
  let s₀ : Session := ⟨memInit fun _ => ⟨0, 0, false⟩, []⟩
  have h₁ : ((Call.malloc 100).run s₀).map Session.live = some [(6, 100)] := by decide
  have h₂ : (((Call.malloc 100).run s₀).bind fun s => (Call.free (some 6)).run s).map Session.live =
      some [] := by decide
  obtain ⟨s₁, hstep₁, hlive₁⟩ := Option.map_eq_some_iff.mp h₁
  rw [hstep₁] at h₂
  obtain ⟨s₂, hstep₂, hlive₂⟩ := Option.map_eq_some_iff.mp h₂
  have hr₁ : heapSystem.Reachable s₁ :=
    (System.Reachable.of_start ⟨_, rfl⟩ : heapSystem.Reachable s₀).step
      (a := .malloc 100) ⟨by simp [Call.Allowed], hstep₁⟩
  have hr₂ : heapSystem.Reachable s₂ :=
    hr₁.step (a := .free (some 6)) ⟨by simp [Call.Allowed, hlive₁], hstep₂⟩
  obtain ⟨bs, hbs, -, hempty⟩ := search_complete hr₂
  exact ⟨s₂, hr₂, hlive₂, bs, hbs, (hempty hlive₂).1⟩

end QuietLwip.Mem
