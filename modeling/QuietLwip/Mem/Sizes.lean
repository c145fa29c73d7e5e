import QuietLwip.Buffers.Pbuf
import QuietLwip.Mem.Search

/-!
# Sizes that are narrowed to `mem_size_t`

`pbuf_alloc` adds up the size of a `PBUF_RAM` pbuf, and `mem_calloc` multiplies, in `int` or wider;
the parameter of `mem_malloc` has 16 bits in this configuration (`MEM_SIZE` is below 64000). The
product of `mem_calloc` can overflow an `int`; its low 16 bits are the same.
-/

namespace QuietLwip.Mem

open Word Buffers Transition

/-- `sizeof(struct pbuf)`: two pointers of 8 bytes, two `u16_t`, two `u8_t` and a `u16_t`. -/
def SIZEOF_STRUCT_PBUF : ℕ := 24

/-- What a `PBUF_RAM` pbuf occupies. -/
def pbufRamSize (layer : PbufLayer) (length : ℕ) : ℕ :=
  SIZEOF_STRUCT_PBUF + layerOffset layer + length

/-- A `struct pbuf` in the heap. -/
structure HeapPbuf where
  addr : ℕ
  payload : ℕ
  len : ℕ

/-- `pbuf_alloc(layer, length, PBUF_RAM)` -/
def pbufAllocRam (h : Heap) (layer : PbufLayer) (length : ℕ) : Option (Heap × Option HeapPbuf) :=
  (memMalloc h (u16 (pbufRamSize layer length))).map fun (h, p) => (h, p.map fun p =>
    { addr := p, payload := p + SIZEOF_STRUCT_PBUF + layerOffset layer, len := length })

/-- The memory that `mem_calloc` hands out: `zeroed` bytes are set to zero from `addr` on. -/
structure Zeroed where
  addr : ℕ
  zeroed : ℕ

/-- `mem_calloc(count, size)` -/
def memCalloc (h : Heap) (count size : ℕ) : Option (Heap × Option Zeroed) :=
  (memMalloc h (u16 (count * size))).map fun (h, p) => (h, p.map fun p => ⟨p, count * size⟩)

/-- The end of the block that a pointer has been handed out for. -/
def blockEnd (h : Heap) (p : ℕ) : ℕ := h.next (p - SIZEOF_STRUCT_MEM)

/-- The payload of an allocated pbuf ends in its block. -/
def AllocFits (h : Heap) (layer : PbufLayer) (length : ℕ) : Prop :=
  ∀ h' q, pbufAllocRam h layer length = some (h', some q) → q.payload + q.len ≤ blockEnd h' q.addr

/-- The bytes that are zeroed end in the block. -/
def CallocFits (h : Heap) (count size : ℕ) : Prop :=
  ∀ h' z, memCalloc h count size = some (h', some z) → z.addr + z.zeroed ≤ blockEnd h' z.addr

/-- The number `n` of bytes is not narrowed, or nothing is allocated for what is left of it. -/
def Narrowed (h : Heap) (bs : List ℕ) (n : ℕ) : Prop :=
  n < 2 ^ 16 ∨ n % 2 ^ 16 = 0 ∨ ∀ b ∈ bs, ¬ Fits h (max (n % 2 ^ 16) MIN_SIZE_ALIGNED) b

variable {s : Session} {h : Heap} {ls : List ℕ} {live : List (ℕ × ℕ)}

theorem u16_mod (n : ℕ) : u16 n = n % 2 ^ 16 := by
  simp only [u16, wrapU]
  omega

/-- The block that a live pointer has been handed out for. -/
theorem Wf.blockEnd_of_live (hw : Wf h ls live) {p r : ℕ} (ha : (p, r) ∈ live) :
    p + r ≤ blockEnd h p ∧ blockEnd h p ≤ MEM_SIZE_ALIGNED := by
  obtain ⟨mem, xs, n, ys, rfl, -, hlink, hn, -, hlen⟩ := hw.block_of_live ha
  rw [blockEnd, Nat.add_sub_cancel, hlink.1]
  exact ⟨hlen, hn⟩

/-- A block allocated for the narrowed number of bytes never holds a number that has been
narrowed, as the whole heap does not. -/
theorem Wf.memMalloc_holds_iff (hw : Wf h ls live) (n : ℕ) :
    (∀ h' p, memMalloc h (u16 n) = some (h', some p) → p + n ≤ blockEnd h' p) ↔
      Narrowed h ls n := by
  rw [Narrowed, u16_mod]
  rcases memMalloc_spec hw (n % 2 ^ 16) with ⟨hrun, hnot⟩ | ⟨h', ls', ptr, hrun, hwf, hleast⟩
  · rw [hrun]
    refine iff_of_true nofun ?_
    by_cases hzero : n % 2 ^ 16 = 0
    · exact .inr (.inl hzero)
    · exact .inr (.inr (hnot (Nat.pos_of_ne_zero hzero)))
  obtain ⟨hlen, hend⟩ := hwf.blockEnd_of_live (List.mem_cons_self ..)
  rw [hrun]
  constructor
  · intro hholds
    have hfit := hholds h' _ rfl
    left
    unfold MEM_SIZE_ALIGNED at hend
    omega
  · rintro hnarrow h'' p ⟨⟩
    rcases hnarrow with hlt | hzero | hnot
    · rwa [Nat.mod_eq_of_lt hlt] at hlen
    · rw [hzero, memMalloc, if_pos rfl] at hrun
      cases hrun
    · exact absurd hleast.1.2 (hnot ptr hleast.1.1)

/-- What is made of the pointer that `mem_malloc` returns. -/
theorem map_pointer_eq_some {β : Type} {r : Option (Heap × Option ℕ)} {f : ℕ → β} {h' : Heap} {q : β} :
    (r.map fun (h, p) => (h, p.map f)) = some (h', some q) ↔
      ∃ p, r = some (h', some p) ∧ f p = q := by
  constructor
  · intro hmap
    obtain ⟨⟨h'', p⟩, rfl, hpair⟩ := Option.map_eq_some_iff.mp hmap
    obtain ⟨rfl, hq⟩ := Prod.mk.inj hpair
    obtain ⟨p, rfl, rfl⟩ := Option.map_eq_some_iff.mp hq
    exact ⟨p, rfl, rfl⟩
  · rintro ⟨p, rfl, rfl⟩
    rfl

theorem allocFits_iff (h : Heap) (layer : PbufLayer) (length : ℕ) : AllocFits h layer length ↔
    ∀ h' p, memMalloc h (u16 (pbufRamSize layer length)) = some (h', some p) →
      p + pbufRamSize layer length ≤ blockEnd h' p := by
  have hsum : ∀ p, p + SIZEOF_STRUCT_PBUF + layerOffset layer + length =
      p + pbufRamSize layer length := fun p => by
    rw [pbufRamSize]
    omega
  simp only [AllocFits, pbufAllocRam, map_pointer_eq_some]
  constructor
  · intro hfits h' p hrun
    rw [← hsum]
    exact hfits h' _ ⟨p, hrun, rfl⟩
  · rintro hholds h' q ⟨p, hrun, rfl⟩
    rw [hsum]
    exact hholds h' p hrun

theorem callocFits_iff (h : Heap) (count size : ℕ) : CallocFits h count size ↔
    ∀ h' p, memMalloc h (u16 (count * size : ℕ)) = some (h', some p) →
      p + count * size ≤ blockEnd h' p := by
  simp only [CallocFits, memCalloc, map_pointer_eq_some, Nat.cast_mul]
  constructor
  · intro hfits h' p hrun
    exact hfits h' _ ⟨p, hrun, rfl⟩
  · rintro hholds h' z ⟨p, hrun, rfl⟩
    exact hholds h' p hrun

/-- In every reachable state the memory handed out is long enough exactly when its size is not
narrowed or nothing is handed out. -/
theorem allocations_fit_iff (hs : heapSystem.Reachable s) : ∃ bs, Consistent s.heap s.live bs ∧
    (∀ layer length, length < 2 ^ 16 →
      (AllocFits s.heap layer length ↔ Narrowed s.heap bs (pbufRamSize layer length))) ∧
    ∀ count size, count < 2 ^ 16 → size < 2 ^ 16 →
      (CallocFits s.heap count size ↔ Narrowed s.heap bs (count * size)) := by
  obtain ⟨ls, hw⟩ := wf_of_reachable hs
  refine ⟨ls, hw.consistent, fun layer length _ => ?_, fun count size _ _ => ?_⟩
  · rw [allocFits_iff]
    exact hw.memMalloc_holds_iff _
  · rw [callocFits_iff]
    exact hw.memMalloc_holds_iff _

/-- The heap as `mem_init` leaves it, of zeros elsewhere. -/
def zeroHeap : Session := ⟨memInit fun _ => ⟨0, 0, false⟩, []⟩

theorem zeroHeap_reachable : heapSystem.Reachable zeroHeap := .of_start ⟨_, rfl⟩

theorem allocations_fit_iff_zeroHeap : ∃ bs, Consistent zeroHeap.heap zeroHeap.live bs ∧
    (AllocFits zeroHeap.heap .transport 100 ↔ Narrowed zeroHeap.heap bs 178) := by
  obtain ⟨bs, hbs, halloc, -⟩ := allocations_fit_iff zeroHeap_reachable
  exact ⟨bs, hbs, halloc .transport 100 (by decide)⟩

/-- A pbuf of 65535 bytes in a block of 77 bytes. -/
theorem alloc_overruns : ¬ ∀ s, heapSystem.Reachable s → ∀ layer length, length < 2 ^ 16 →
    AllocFits s.heap layer length := by
  intro hall
  have hrun : ((pbufAllocRam zeroHeap.heap .transport 65535).bind fun r => r.2.map fun q =>
      (q.payload + q.len, blockEnd r.1 q.addr)) = some (65619, 83) := by decide
  obtain ⟨⟨h', q⟩, halloc, hq⟩ := Option.bind_eq_some_iff.mp hrun
  obtain ⟨q, rfl, hpair⟩ := Option.map_eq_some_iff.mp hq
  have hfits := hall zeroHeap zeroHeap_reachable .transport 65535 (by decide) h' q halloc
  obtain ⟨hpay, hend⟩ := Prod.mk.inj hpair
  rw [hpay, hend] at hfits
  exact absurd hfits (by decide)

end QuietLwip.Mem
