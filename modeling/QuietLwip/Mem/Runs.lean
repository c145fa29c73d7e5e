import QuietLwip.Foundation.Transition
import QuietLwip.Mem.Malloc
import Mathlib.Order.CompletePartialOrder

/-!
# The heap over whole runs

Runs of `mem_malloc`, `mem_free` and `mem_trim` calls from `mem_init` on, in which only
live pointers are freed or trimmed and no block is made to grow.
-/

namespace QuietLwip.Mem

open QuietLwip.Transition

/-- The heap, and the pointers handed out with the sizes asked for. -/
structure Session where
  heap : Heap
  live : List (ℕ × ℕ)

inductive Call where
  | malloc (size : ℕ)
  | free (rmem : Option ℕ)
  | trim (rmem newsize : ℕ)

namespace Call

/-- The calls the API allows. A `mem_size_t` is a `u16_t`. -/
def Allowed (s : Session) : Call → Prop
  | malloc size => size < 2 ^ 16
  | free none => True
  | free (some p) => p ∈ s.live.map Prod.fst
  -- neither above the size last asked for nor above the one the block has
  | trim p newsize => ∃ r, (p, r) ∈ s.live ∧
      (newsize ≤ r ∨ p + newsize ≤ s.heap.next (p - SIZEOF_STRUCT_MEM))

/-- `none`: an assertion fails, or a loop does not come to an end. -/
def run (s : Session) : Call → Option Session
  | malloc size => (memMalloc s.heap size).map fun
      | (h, some p) => ⟨h, (p, size) :: s.live⟩
      | (h, none) => ⟨h, s.live⟩
  | free rmem => (memFree s.heap rmem).map fun h =>
      ⟨h, s.live.filter fun a => some a.1 ≠ rmem⟩
  | trim p newsize => (memTrim s.heap p newsize).map fun
      | (h, some _) => ⟨h, trimmed s.live p newsize⟩
      | (h, none) => ⟨h, s.live⟩

end Call

def heapSystem : System Session Call where
  start s := ∃ ram, s = ⟨memInit ram, []⟩
  step s c t := c.Allowed s ∧ c.run s = some t

/-- An allowed call returns, and keeps the invariant. -/
theorem Call.run_spec {s : Session} {ls : List ℕ} (hw : Wf s.heap ls s.live) {c : Call}
    (hc : c.Allowed s) : ∃ t ls', c.run s = some t ∧ Wf t.heap ls' t.live := by
  cases c with
  | malloc size =>
    rcases memMalloc_spec hw size with ⟨hrun, -⟩ | ⟨h', ls', ptr, hrun, hwf, -⟩
    · exact ⟨⟨s.heap, s.live⟩, ls, by rw [Call.run, hrun]; rfl, hw⟩
    · exact ⟨⟨h', _⟩, ls', by rw [Call.run, hrun]; rfl, hwf⟩
  | free rmem =>
    cases rmem with
    | none =>
      refine ⟨⟨s.heap, s.live⟩, ls, ?_, hw⟩
      rw [Call.run, memFree]
      simp
    | some p =>
      obtain ⟨⟨p, r⟩, ha, rfl⟩ := List.mem_map.mp hc
      obtain ⟨h', ls', hrun, hwf⟩ := memFree_spec hw ha
      refine ⟨⟨h', _⟩, ls', ?_, hwf⟩
      rw [Call.run, hrun]
      simp
  | trim p newsize =>
    obtain ⟨r, ha, hn⟩ := hc
    have hfit : p + newsize ≤ s.heap.next (p - SIZEOF_STRUCT_MEM) := by
      rcases hn with hle | hle
      · obtain ⟨mem, xs, n, ys, rfl, -, hlink, -, -, hlen⟩ := hw.block_of_live ha
        rw [Nat.add_sub_cancel, hlink.1]
        omega
      · exact hle
    obtain ⟨h', ls', hrun, hwf⟩ := memTrim_spec hw ha hfit
    exact ⟨⟨h', _⟩, ls', by rw [Call.run, hrun]; rfl, hwf⟩

theorem wf_of_reachable {s : Session} (hs : heapSystem.Reachable s) :
    ∃ ls, Wf s.heap ls s.live := by
  refine hs.invariant (I := fun s => ∃ ls, Wf s.heap ls s.live) ?_ ?_
  · rintro s ⟨ram, rfl⟩
    exact ⟨_, Wf.init ram⟩
  · rintro s c t ⟨ls, hw⟩ - ⟨hc, hrun⟩
    obtain ⟨t', ls', hrun', hwf⟩ := Call.run_spec hw hc
    rw [hrun] at hrun'
    cases hrun'
    exact ⟨ls', hwf⟩

/-! ### What the invariant says -/

/-- The user data of the block whose pointer is `p`. -/
def userArea (h : Heap) (p : ℕ) : Set ℕ := Set.Ico p (h.next (p - SIZEOF_STRUCT_MEM))

/-- `bs` are the headers reached from `ram[0]` along `next`. -/
structure Consistent (h : Heap) (live : List (ℕ × ℕ)) (bs : List ℕ) : Prop where
  first : bs.head? = some 0
  next : bs.IsChain fun x y => h.next x = y
  last : bs.getLast? = some MEM_SIZE_ALIGNED
  increasing : bs.Pairwise (· < ·)
  prev : bs.IsChain fun x y => y ≠ MEM_SIZE_ALIGNED → h.prev y = x
  coalesced : bs.IsChain fun x y => ¬(h.used x = false ∧ h.used y = false)
  lfree : IsLeast {b | b ∈ bs ∧ h.used b = false} h.lfree ∨
    (∀ b ∈ bs, h.used b = true) ∧ h.lfree = MEM_SIZE_ALIGNED
  inside : ∀ a ∈ live, ∃ b ∈ bs, b ≠ MEM_SIZE_ALIGNED ∧ h.used b = true ∧
    userArea h a.1 = Set.Ico (b + SIZEOF_STRUCT_MEM) (h.next b)
  size : ∀ a ∈ live, Set.Ico a.1 (a.1 + a.2) ⊆ userArea h a.1
  disjoint : live.Pairwise fun a a' => Disjoint (userArea h a.1) (userArea h a'.1)

/-- The user data of two blocks do not meet. -/
theorem Blocks.disjoint {h : Heap} {ls : List ℕ} (hb : Blocks h ls) {x y : ℕ} (hx : x ∈ ls)
    (hy : y ∈ ls) (hxe : x ≠ MEM_SIZE_ALIGNED) (hxy : x < y) :
    h.next x ≤ y := by
  obtain ⟨xs, n, ys, rfl⟩ := Splice.exists_split_of_mem hx hb.last hxe
  rw [(Splice.isChain_rel hb.linked).1]
  by_contra hlt
  exact hb.not_mem_gap hxy (by omega) hy

theorem Wf.consistent {h : Heap} {ls : List ℕ} {live : List (ℕ × ℕ)} (hw : Wf h ls live) :
    Consistent h live ls := by
  have hblocks := hw.blocks
  refine ⟨hblocks.head, hblocks.linked.imp fun _ _ hl => hl.1, hblocks.last, hblocks.sorted,
    hblocks.linked.imp fun _ _ hl => hl.2.1, ?_, ?_, ?_, ?_, ?_⟩
  · refine List.IsChain.imp ?_ hw.coalesced
    rintro x y hxy ⟨hux, huy⟩
    rw [hux, huy] at hxy
    simp at hxy
  · by_cases hend : h.lfree = MEM_SIZE_ALIGNED
    · refine Or.inr ⟨fun b hb => ?_, hend⟩
      by_contra hub
      have hle := hw.lowest.le b hb (Bool.eq_false_of_not_eq_true hub)
      have hbe : b = MEM_SIZE_ALIGNED := by
        have := hblocks.le_end hb
        omega
      rw [hbe] at hub
      exact hub hblocks.used_end
    · exact Or.inl ⟨⟨hw.lowest.mem, hw.lowest.unused hend⟩, fun b hb => hw.lowest.le b hb.1 hb.2⟩
  · intro a ha
    obtain ⟨b, hb, hbe, hab, hub, -⟩ := hw.live.block a ha
    refine ⟨b, hb, hbe, hub, ?_⟩
    rw [userArea, hab, Nat.add_sub_cancel]
  · intro a ha
    obtain ⟨b, -, -, hab, -, hfit⟩ := hw.live.block a ha
    refine Set.Ico_subset_Ico_right ?_
    rw [hab, Nat.add_sub_cancel, ← hab]
    exact hfit
  · have hne : live.Pairwise fun a a' => a.1 ≠ a'.1 := List.pairwise_map.mp hw.live.nodup
    refine hne.imp_of_mem ?_
    intro a a' ha ha' hdiff
    obtain ⟨x, hx, hxe, hax, -⟩ := hw.live.block a ha
    obtain ⟨y, hy, hye, hay, -⟩ := hw.live.block a' ha'
    rw [hax, hay] at hdiff ⊢
    refine Set.disjoint_left.mpr ?_
    simp only [userArea, Nat.add_sub_cancel, Set.mem_Ico]
    intro i hix hiy
    rcases Nat.lt_trichotomy x y with hxy | hxy | hxy
    · have := hblocks.disjoint hx hy hxe hxy
      omega
    · exact hdiff (by rw [hxy])
    · have := hblocks.disjoint hy hx hye hxy
      omega

/-- In every state reached by allowed calls the heap is consistent, and whatever call is
allowed next returns. -/
theorem heap_consistent {s : Session} (hs : heapSystem.Reachable s) :
    (∃ bs, Consistent s.heap s.live bs) ∧ ∀ c : Call, c.Allowed s → (c.run s).isSome := by
  obtain ⟨ls, hw⟩ := wf_of_reachable hs
  refine ⟨⟨ls, hw.consistent⟩, ?_⟩
  intro c hc
  obtain ⟨t, -, hrun, -⟩ := Call.run_spec hw hc
  rw [hrun]
  rfl

/-- Two blocks are taken, and the first of them is freed. -/
theorem heap_consistent_freed : ∃ s, heapSystem.Reachable s ∧ s.live = [(112, 40)] ∧
    (∃ bs, Consistent s.heap s.live bs) ∧ ∀ c : Call, c.Allowed s → (c.run s).isSome := by
  let s₀ : Session := ⟨memInit fun _ => ⟨0, 0, false⟩, []⟩
  have h₂ : (((Call.malloc 100).run s₀).bind fun s => (Call.malloc 40).run s).map Session.live =
      some [(112, 40), (6, 100)] := by decide
  have h₃ : ((((Call.malloc 100).run s₀).bind fun s => (Call.malloc 40).run s).bind
      fun s => (Call.free (some 6)).run s).map Session.live = some [(112, 40)] := by decide
  obtain ⟨s₂, hrun₂, hlive₂⟩ := Option.map_eq_some_iff.mp h₂
  obtain ⟨s₁, hstep₁, hstep₂⟩ := Option.bind_eq_some_iff.mp hrun₂
  rw [hrun₂] at h₃
  obtain ⟨s₃, hstep₃, hlive₃⟩ := Option.map_eq_some_iff.mp h₃
  have hr₁ : heapSystem.Reachable s₁ :=
    (System.Reachable.of_start ⟨_, rfl⟩ : heapSystem.Reachable s₀).step
      (a := .malloc 100) ⟨by simp [Call.Allowed], hstep₁⟩
  have hr₂ : heapSystem.Reachable s₂ :=
    hr₁.step (a := .malloc 40) ⟨by simp [Call.Allowed], hstep₂⟩
  have hr₃ : heapSystem.Reachable s₃ :=
    hr₂.step (a := .free (some 6)) ⟨by simp [Call.Allowed, hlive₂], hstep₃⟩
  exact ⟨s₃, hr₃, hlive₃, heap_consistent hr₃⟩

end QuietLwip.Mem
