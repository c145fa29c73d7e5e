import QuietLwip.Buffers.Chains

/-!
# Allocation from the pool, statement by statement

`pbuf_alloc` for `PBUF_POOL` with its failure path: the chain built so far goes back through
`pbuf_free`, which looks at the `flags` of every pbuf. Those of the first one are not written before
the whole chain is there. What `PBUF_POOL_IS_EMPTY` queues runs later, in the thread of the stack.
-/

namespace QuietLwip.Buffers

open Word

def PBUF_FLAG_IS_CUSTOM : ℕ := 2

/-- A free element of the pool, with the `flags` that its last use has left. It comes from `memp_init`,
which finds zeros there, or from `pbuf_free`, which frees custom pbufs in another way. -/
structure FreeElem extends PoolElem where
  flags : ℕ
  notCustom : flags &&& PBUF_FLAG_IS_CUSTOM = 0

/-- Address and memory of an element. -/
def PoolElem.block (e : PoolElem) : ℕ × List UInt8 := (e.addr, e.mem)

def Pbuf.block (p : Pbuf) : ℕ × List UInt8 := (p.addr, p.mem)

/-- A pbuf that `pbuf_free` deallocates goes back to the pool, unless its flags say that a function of
its own frees it. -/
def mempFree (free : List FreeElem) (p : Pbuf) : Option (List FreeElem) :=
  if h : p.flags &&& PBUF_FLAG_IS_CUSTOM = 0 ∧ p.type = .pool ∧
      p.mem.length = PBUF_POOL_BUFSIZE_ALIGNED then
    some ({ addr := p.addr, mem := p.mem, memLen := h.2.2, flags := p.flags, notCustom := h.1 } :: free)
  else none

/-- `pbuf_free(p)` for a chain from the pool. -/
def freeChain (c : List Pbuf) (free : List FreeElem) : Option (List FreeElem) :=
  (pbufFree c).bind fun r => r.freed.foldlM mempFree free

/-- The loop that allocates the tail of the chain; `chain` is what there is of it. -/
def tailLoop (chain : List Pbuf) (remLen : ℕ) :
    List FreeElem → Option (Option (List Pbuf) × List FreeElem)
  | [] =>
    if remLen = 0 then some (some chain, [])
    else (freeChain chain []).map fun free => (none, free)
  | e :: free =>
    if remLen = 0 then some (some chain, e :: free)
    -- `LWIP_ASSERT("rem_len < max_u16_t", rem_len < 0xffff)`
    else if h : remLen < 0xffff then
      let q := poolPbuf e.toPoolElem 0 remLen (Nat.zero_le _) (by omega)
      tailLoop (chain ++ [q]) (remLen - q.len) free
    else none

/-- The first pbuf, its flags not yet written. -/
def headPbuf (e : FreeElem) (layer : PbufLayer) (length : ℕ) (hlen : length < 2 ^ 16) : Pbuf :=
  { poolPbuf e.toPoolElem (layerOffset layer) length (layerOffset_le layer) hlen with
    flags := e.flags }

/-- `p->flags = 0` -/
def clearFlags : List Pbuf → List Pbuf
  | [] => []
  | p :: ps => { p with flags := 0 } :: ps

/-- `pbuf_alloc(layer, length, PBUF_POOL)` -/
def pbufAlloc (layer : PbufLayer) (length : ℕ) (hlen : length < 2 ^ 16) :
    List FreeElem → Option (Option (List Pbuf) × List FreeElem)
  | [] => some (none, [])
  | e :: free =>
    let p := headPbuf e layer length hlen
    (tailLoop [p] (length - p.len) free).map fun (c, free) => (c.map clearFlags, free)

variable {c tail : List Pbuf} {free : List FreeElem} {elems : List PoolElem} {n : ℕ}

/-! ### The failure path -/

/-- A chain that has just been allocated: `pbuf_free` returns all of it to the pool. -/
def Fresh (c : List Pbuf) : Prop := ∀ p ∈ c, p.ref = 1 ∧ p.type = .pool ∧
  p.mem.length = PBUF_POOL_BUFSIZE_ALIGNED ∧ p.flags &&& PBUF_FLAG_IS_CUSTOM = 0

theorem freeLoop_fresh (h : Fresh c) (k : ℕ) : ∃ r, freeLoop k c = some r ∧
    r.freed = c.map fun p => p.setRef 0 :=
  freeLoop_ones (fun p hp => (h p hp).1) k

/-- What a fresh pbuf is, once it is no longer referenced. -/
theorem mempFree_fresh {p : Pbuf} {ps : List Pbuf} (h : Fresh (p :: ps)) (free : List FreeElem) :
    ∃ e : FreeElem, mempFree free (p.setRef 0) = some (e :: free) ∧ e.block = p.block := by
  obtain ⟨-, htype, hmem, hflags⟩ := h p (List.mem_cons_self ..)
  exact ⟨⟨⟨p.addr, p.mem, hmem⟩, p.flags, hflags⟩, dif_pos ⟨hflags, htype, hmem⟩, rfl⟩

theorem foldlM_mempFree (h : Fresh c) (free : List FreeElem) :
    ∃ free', (c.map fun p => p.setRef 0).foldlM mempFree free = some free' ∧
      free'.map (·.block) = (c.map Pbuf.block).reverse ++ free.map (·.block) := by
  induction c generalizing free with
  | nil => exact ⟨free, rfl, rfl⟩
  | cons p ps ih =>
    obtain ⟨e, hfree, hblock⟩ := mempFree_fresh h free
    obtain ⟨free', hrun, hblocks⟩ := ih (fun q hq => h q (List.mem_cons_of_mem _ hq)) (e :: free)
    refine ⟨free', ?_, ?_⟩
    · rw [List.map_cons, List.foldlM_cons, hfree]
      exact hrun
    · rw [hblocks, List.map_cons, hblock, List.map_cons, List.reverse_cons, List.append_assoc]
      rfl

/-- A fresh chain goes back to the pool, the last pbuf to the front. -/
theorem freeChain_fresh {p : Pbuf} (h : Fresh (p :: c)) (free : List FreeElem) :
    ∃ free', freeChain (p :: c) free = some free' ∧
      free'.map (·.block) = ((p :: c).map Pbuf.block).reverse ++ free.map (·.block) := by
  obtain ⟨r, hr, hfreed⟩ := freeLoop_fresh h 0
  obtain ⟨free', hrun, hblocks⟩ := foldlM_mempFree h free
  refine ⟨free', ?_, hblocks⟩
  rw [freeChain, pbufFree, hr, Option.bind_some, hfreed]
  exact hrun

theorem fresh_poolPbuf (e : FreeElem) {off tot : ℕ} (hoff : off ≤ PBUF_POOL_BUFSIZE_ALIGNED)
    (htot : tot < 2 ^ 16) : Fresh [poolPbuf e.toPoolElem off tot hoff htot] := by
  intro p hp
  rw [List.mem_singleton.mp hp]
  exact ⟨rfl, rfl, e.memLen, Nat.zero_and _⟩

/-! ### The chain that is allocated -/

/-- The loop does what `allocTail` says, behind the chain that is there already; when it fails the
pool has all elements again. -/
theorem tailLoop_eq (free : List FreeElem) {p : Pbuf} (hc : Fresh (p :: c)) (hlt : n < 0xffff) (hn : n < 2 ^ 16) :
    ∃ free', tailLoop (p :: c) n free =
        some ((allocTail n hn (free.map (·.toPoolElem))).1.map ((p :: c) ++ ·), free') ∧
      free'.map (·.block) =
        if (allocTail n hn (free.map (·.toPoolElem))).1.isSome then
          (allocTail n hn (free.map (·.toPoolElem))).2.1.map PoolElem.block
        else ((p :: c).map Pbuf.block ++
          (allocTail n hn (free.map (·.toPoolElem))).2.2.map PoolElem.block).reverse := by
  induction free generalizing c n with
  | nil =>
    by_cases h0 : n = 0
    · exact ⟨[], by simp [tailLoop, allocTail, h0], by simp [allocTail, h0]⟩
    · obtain ⟨free', hrun, hblocks⟩ := freeChain_fresh hc []
      refine ⟨free', ?_, ?_⟩
      · rw [tailLoop, if_neg h0, hrun]
        simp [allocTail, h0]
      · rw [hblocks]
        simp [allocTail, h0]
  | cons e free ih =>
    by_cases h0 : n = 0
    · exact ⟨e :: free, by simp [tailLoop, allocTail, h0], by simp [allocTail, h0]⟩
    · have hq := fresh_poolPbuf e (Nat.zero_le PBUF_POOL_BUFSIZE_ALIGNED) hn
      have hcq : Fresh (p :: (c ++ [poolPbuf e.toPoolElem 0 n (Nat.zero_le _) hn])) := by
        intro r hr
        rcases List.mem_append.mp (List.cons_append.symm ▸ hr) with hr | hr
        · exact hc r hr
        · exact hq r hr
      obtain ⟨free', hrun, hblocks⟩ :=
        ih (n := n - (poolPbuf e.toPoolElem 0 n (Nat.zero_le _) hn).len) hcq (by omega) (by omega)
      refine ⟨free', ?_, ?_⟩
      · rw [tailLoop, if_neg h0, dif_pos hlt]
        refine hrun.trans ?_
        simp only [allocTail, List.map_cons, if_neg h0, Option.map_map]
        congr 3
        funext tail
        simp
      · rw [hblocks]
        simp only [allocTail, List.map_cons, if_neg h0, Option.isSome_map]
        split
        · rfl
        · simp [PoolElem.block, Pbuf.block, poolPbuf]

/-- Only whole chains and whole pools: the elements taken and those left are the ones there were. -/
theorem allocTail_taken (elems : List PoolElem) (n : ℕ) (hn : n < 2 ^ 16) :
    (allocTail n hn elems).2.2 ++ (allocTail n hn elems).2.1 = elems ∧
      ((allocTail n hn elems).1 = none → (allocTail n hn elems).2.1 = []) := by
  induction elems generalizing n with
  | nil => by_cases h0 : n = 0 <;> simp [allocTail, h0]
  | cons e elems ih =>
    by_cases h0 : n = 0
    · simp [allocTail, h0]
    · obtain ⟨happ, hnil⟩ := ih (n - (poolPbuf e 0 n (Nat.zero_le _) hn).len) (by omega)
      simp only [allocTail, if_neg h0, List.cons_append, happ, Option.map_eq_none_iff, true_and]
      exact hnil

/-- The later pbufs of a chain over these elements: as few as hold `n` bytes, all full but the last. -/
structure Tail (n : ℕ) (c : List Pbuf) (elems : List PoolElem) : Prop where
  blocks : c.map Pbuf.block = elems.map PoolElem.block
  needed : IsLeast {k | n ≤ k * PBUF_POOL_BUFSIZE_ALIGNED} c.length
  full : ∀ p ∈ c.dropLast, p.len = PBUF_POOL_BUFSIZE_ALIGNED
  ref : ∀ p ∈ c, p.ref = 1 ∧ p.flags = 0 ∧ p.type = .pool

theorem allocTail_tail {hn : n < 2 ^ 16} (h : (allocTail n hn elems).1 = some c) :
    Tail n c (allocTail n hn elems).2.2 := by
  have hpos : 0 < PBUF_POOL_BUFSIZE_ALIGNED := by decide
  have hzero : Tail 0 [] [] := by
    have hnone : 0 ≤ 0 * PBUF_POOL_BUFSIZE_ALIGNED := Nat.zero_le _
    exact ⟨rfl, ⟨hnone, fun k _ => Nat.zero_le k⟩, fun _ hp => (List.not_mem_nil hp).elim,
      fun _ hp => (List.not_mem_nil hp).elim⟩
  induction elems generalizing n c with
  | nil =>
    by_cases h0 : n = 0
    · subst h0
      cases h
      exact hzero
    · simp [allocTail, h0] at h
  | cons e elems ih =>
    by_cases h0 : n = 0
    · subst h0
      cases h
      exact hzero
    · have hlen : (poolPbuf e 0 n (Nat.zero_le _) hn).len = min n PBUF_POOL_BUFSIZE_ALIGNED := rfl
      simp only [allocTail, if_neg h0] at h ⊢
      obtain ⟨tail, htail, rfl⟩ := Option.map_eq_some_iff.mp h
      obtain ⟨hblocks, ⟨henough, hleast⟩, hfull, href⟩ := ih htail
      change n - min n PBUF_POOL_BUFSIZE_ALIGNED ≤ tail.length * PBUF_POOL_BUFSIZE_ALIGNED at henough
      have hsucc : (tail.length + 1) * PBUF_POOL_BUFSIZE_ALIGNED =
          tail.length * PBUF_POOL_BUFSIZE_ALIGNED + PBUF_POOL_BUFSIZE_ALIGNED := Nat.succ_mul ..
      refine ⟨?_, ⟨?_, ?_⟩, ?_, ?_⟩
      · rw [List.map_cons, List.map_cons, hblocks]
        rfl
      · change n ≤ (tail.length + 1) * PBUF_POOL_BUFSIZE_ALIGNED
        rw [hsucc]
        omega
      · intro k hk
        change n ≤ k * PBUF_POOL_BUFSIZE_ALIGNED at hk
        obtain ⟨j, rfl⟩ : ∃ j, k = j + 1 := by
          refine ⟨k - 1, ?_⟩
          rcases k with _ | k
          · rw [Nat.zero_mul] at hk
            omega
          · rfl
        have hj : n - min n PBUF_POOL_BUFSIZE_ALIGNED ≤ j * PBUF_POOL_BUFSIZE_ALIGNED := by
          rw [Nat.succ_mul] at hk
          omega
        exact Nat.succ_le_succ (hleast hj)
      · cases tail with
        | nil => exact fun _ hp => (List.not_mem_nil hp).elim
        | cons q qs =>
          rw [List.dropLast_cons_cons]
          refine List.forall_mem_cons.mpr ⟨?_, hfull⟩
          -- a later pbuf is only needed when this one is full
          by_contra hne
          have hrest : n - min n PBUF_POOL_BUFSIZE_ALIGNED ≤ 0 * PBUF_POOL_BUFSIZE_ALIGNED := by
            rw [hlen] at hne
            omega
          have hle : (q :: qs).length ≤ 0 := hleast hrest
          simp at hle
      · exact List.forall_mem_cons.mpr ⟨⟨rfl, rfl, rfl⟩, href⟩

/-! ### All or nothing -/

/-- `pbuf_alloc` does what `pbufAllocPool` says. -/
theorem pbufAlloc_eq (layer : PbufLayer) (length : ℕ) (hlen : length < 2 ^ 16)
    (free : List FreeElem) :
    ∃ free', pbufAlloc layer length hlen free =
        some ((pbufAllocPool layer length hlen (free.map (·.toPoolElem))).1, free') ∧
      free'.map (·.block) =
        (pbufAllocPool layer length hlen (free.map (·.toPoolElem))).2.map PoolElem.block := by
  cases free with
  | nil => exact ⟨[], rfl, rfl⟩
  | cons e free =>
    have hoff : layerOffset layer ≤ 54 := by cases layer <;> decide
    have hbuf : PBUF_POOL_BUFSIZE_ALIGNED = 1078 := rfl
    have hp : (headPbuf e layer length hlen).len =
        min length (PBUF_POOL_BUFSIZE_ALIGNED - layerOffset layer) := rfl
    have hfresh : Fresh [headPbuf e layer length hlen] := by
      intro p hp
      rw [List.mem_singleton.mp hp]
      exact ⟨rfl, rfl, e.memLen, e.notCustom⟩
    obtain ⟨r, hr⟩ : ∃ r, allocTail (length - (headPbuf e layer length hlen).len) (by omega)
      (free.map (·.toPoolElem)) = r := ⟨_, rfl⟩
    have hpool : pbufAllocPool layer length hlen ((e :: free).map (·.toPoolElem)) =
        r.1.elim (none, (e.toPoolElem :: r.2.2).reverse ++ r.2.1) fun tail =>
          (some (clearFlags [headPbuf e layer length hlen] ++ tail), r.2.1) := by
      have hhead : (headPbuf e layer length hlen).len =
          (poolPbuf e.toPoolElem (layerOffset layer) length (layerOffset_le layer) hlen).len := rfl
      simp only [List.map_cons, pbufAllocPool, ← hhead, hr]
      cases r.1 <;> rfl
    obtain ⟨free', hrun, hblocks⟩ := tailLoop_eq free
      (n := length - (headPbuf e layer length hlen).len) hfresh (by omega) (by omega)
    have hnil := (allocTail_taken (free.map (·.toPoolElem)) (length -
      (headPbuf e layer length hlen).len) (by omega)).2
    rw [hr] at hrun hblocks hnil
    refine ⟨free', ?_, ?_⟩
    · rw [pbufAlloc, hrun, hpool]
      cases r.1 with
      | none => rfl
      | some tail => rfl
    · rw [hblocks, hpool]
      cases hr1 : r.1 with
      | some tail => rfl
      | none =>
        simp only [Option.isSome_none, Bool.false_eq_true, ↓reduceIte, hnil hr1, List.append_nil]
        simp [Pbuf.block, PoolElem.block, headPbuf, poolPbuf]

/-- What `pbuf_alloc` returns: the chain is over the first elements of the pool, no more than are
needed, and the payload of each pbuf lies in its element. -/
structure Allocated (layer : PbufLayer) (length : ℕ) (free : List FreeElem) (c : List Pbuf)
    (free' : List FreeElem) : Prop where
  wf : WellFormed c
  totLen : totLen c = length
  taken : free.map (·.block) = c.map Pbuf.block ++ free'.map (·.block)
  needed : IsLeast {k | 0 < k ∧ layerOffset layer + length ≤ k * PBUF_POOL_BUFSIZE_ALIGNED} c.length
  head : ∀ p ∈ c.head?, p.payload = layerOffset layer ∧
    p.len ≤ PBUF_POOL_BUFSIZE_ALIGNED - layerOffset layer
  full : ∀ p ∈ c.tail.dropLast, p.len = PBUF_POOL_BUFSIZE_ALIGNED
  inside : ∀ p ∈ c, p.payload + p.len ≤ PBUF_POOL_BUFSIZE_ALIGNED
  ref : ∀ p ∈ c, p.ref = 1 ∧ p.flags = 0 ∧ p.type = .pool

/-- One element more than the tail needs. -/
theorem isLeast_succ {off b length k : ℕ} (hoff : off ≤ b)
    (h : IsLeast {k | length - min length (b - off) ≤ k * b} k) :
    IsLeast {k | 0 < k ∧ off + length ≤ k * b} (k + 1) := by
  obtain ⟨henough, hleast⟩ := h
  change length - min length (b - off) ≤ k * b at henough
  refine ⟨⟨Nat.succ_pos k, ?_⟩, ?_⟩
  · rw [Nat.succ_mul]
    omega
  · rintro m ⟨hm, hroom⟩
    obtain ⟨j, rfl⟩ : ∃ j, m = j + 1 := ⟨m - 1, by omega⟩
    rw [Nat.succ_mul] at hroom
    have hj : length - min length (b - off) ≤ j * b := by omega
    exact Nat.succ_le_succ (hleast hj)

theorem Allocated.of_pool {layer : PbufLayer} {length : ℕ} {hlen : length < 2 ^ 16}
    {free' : List FreeElem}
    (h : (pbufAllocPool layer length hlen (free.map (·.toPoolElem))).1 = some c)
    (hfree' : free'.map (·.block) =
      (pbufAllocPool layer length hlen (free.map (·.toPoolElem))).2.map PoolElem.block) :
    Allocated layer length free c free' := by
  obtain ⟨hwf, htot⟩ := pbufAllocPool_wellFormed h
  cases free with
  | nil => simp [pbufAllocPool] at h
  | cons e free =>
    obtain ⟨r, hr⟩ : ∃ r, allocTail (length - (poolPbuf e.toPoolElem (layerOffset layer) length
      (layerOffset_le layer) hlen).len) (by omega) (free.map (·.toPoolElem)) = r := ⟨_, rfl⟩
    have htaken := (allocTail_taken (free.map (·.toPoolElem)) (length -
      (poolPbuf e.toPoolElem (layerOffset layer) length (layerOffset_le layer) hlen).len)
      (by omega)).1
    simp only [pbufAllocPool, List.map_cons, hr] at h hfree'
    rw [hr] at htaken
    cases hr1 : r.1 with
    | none =>
      rw [hr1] at h
      cases h
    | some tail =>
      rw [hr1] at h hfree'
      cases h
      have htail := allocTail_tail ((congrArg Prod.fst hr).trans hr1)
      rw [hr] at htail
      have hblocks : (e :: free).map (·.block) =
          (poolPbuf e.toPoolElem (layerOffset layer) length (layerOffset_le layer) hlen ::
            tail).map Pbuf.block ++ free'.map (·.block) := by
        have hrest : free.map (·.block) = (r.2.2 ++ r.2.1).map PoolElem.block := by
          rw [htaken, List.map_map]
          rfl
        rw [List.map_cons, List.map_cons, hfree', htail.blocks, hrest, List.map_append]
        rfl
      refine ⟨hwf, htot, hblocks, isLeast_succ (layerOffset_le layer) htail.needed, ?_, ?_, ?_, ?_⟩
      · rintro p ⟨⟩
        exact ⟨rfl, Nat.min_le_right _ _⟩
      · exact htail.full
      · intro p hp
        have hmem : p.block ∈ (e :: free).map (·.block) := by
          rw [hblocks]
          exact List.mem_append_left _ (List.mem_map_of_mem hp)
        obtain ⟨e', -, hblock⟩ := List.mem_map.mp hmem
        have hlen' : p.mem.length = PBUF_POOL_BUFSIZE_ALIGNED := by
          rw [← (Prod.mk.inj hblock).2]
          exact e'.memLen
        exact hlen' ▸ p.inMem
      · exact List.forall_mem_cons.mpr ⟨⟨rfl, rfl, rfl⟩, htail.ref⟩

/-- A failed allocation takes nothing: every element is back in the pool. -/
theorem pbufAllocPool_none {layer : PbufLayer} {length : ℕ} {hlen : length < 2 ^ 16}
    (h : (pbufAllocPool layer length hlen elems).1 = none) :
    (pbufAllocPool layer length hlen elems).2.Perm elems := by
  cases elems with
  | nil => exact .refl _
  | cons e elems =>
    obtain ⟨r, hr⟩ : ∃ r, allocTail (length - (poolPbuf e (layerOffset layer) length
      (layerOffset_le layer) hlen).len) (by omega) elems = r := ⟨_, rfl⟩
    have htaken := (allocTail_taken elems (length -
      (poolPbuf e (layerOffset layer) length (layerOffset_le layer) hlen).len) (by omega)).1
    rw [hr] at htaken
    simp only [pbufAllocPool, hr] at h ⊢
    cases hr1 : r.1 with
    | some tail =>
      rw [hr1] at h
      cases h
    | none =>
      have hperm := ((e :: r.2.2).reverse_perm).append_right r.2.1
      rwa [List.cons_append, htaken] at hperm

/-- `pbuf_alloc(layer, length, PBUF_POOL)` returns a chain over exactly as many elements as are needed,
or it returns `NULL`, has fewer free elements than needed, and leaves the pool as it was. -/
theorem pbufAlloc_allOrNothing (layer : PbufLayer) {length : ℕ} (hlen : length < 2 ^ 16)
    (free : List FreeElem) :
    (∃ c free', pbufAlloc layer length hlen free = some (some c, free') ∧
      Allocated layer length free c free') ∨
    ∃ free', pbufAlloc layer length hlen free = some (none, free') ∧
      (free'.map (·.block)).Perm (free.map (·.block)) ∧
      ∀ k, 0 < k → layerOffset layer + length ≤ k * PBUF_POOL_BUFSIZE_ALIGNED → free.length < k := by
  obtain ⟨free', hrun, hblocks⟩ := pbufAlloc_eq layer length hlen free
  cases hc : (pbufAllocPool layer length hlen (free.map (·.toPoolElem))).1 with
  | some c =>
    rw [hc] at hrun
    exact .inl ⟨c, free', hrun, .of_pool hc hblocks⟩
  | none =>
    rw [hc] at hrun
    refine .inr ⟨free', hrun, ?_, fun k hk hroom => ?_⟩
    · have hperm := (pbufAllocPool_none hc).map PoolElem.block
      rwa [← hblocks, List.map_map] at hperm
    · have hsome := pbufAllocPool_isSome layer length hlen (free.map (·.toPoolElem))
      rw [hc, List.length_map, Option.isSome_none, Bool.false_eq_true, false_iff] at hsome
      by_contra hge
      refine hsome ⟨fun hnil => ?_, ?_⟩
      · rw [List.map_eq_nil_iff.mp hnil, List.length_nil] at hge
        exact hge hk
      · have := Nat.mul_le_mul_right PBUF_POOL_BUFSIZE_ALIGNED (Nat.le_of_not_lt hge)
        omega

/-- A pool of two elements, both used before. -/
def twoElems : List FreeElem :=
  [⟨⟨0, List.replicate 1078 0, List.length_replicate⟩, 1, rfl⟩,
    ⟨⟨2000, List.replicate 1078 0, List.length_replicate⟩, 0x20, rfl⟩]

/-- It does not hold 3000 bytes. -/
theorem pbufAlloc_allOrNothing_twoElems : ∃ free',
    pbufAlloc .raw 3000 (by decide) twoElems = some (none, free') ∧
      (free'.map (·.block)).Perm (twoElems.map (·.block)) := by
  obtain ⟨c, free', -, halloc⟩ | ⟨free', hrun, hperm, -⟩ :=
    pbufAlloc_allOrNothing .raw (by decide : 3000 < 2 ^ 16) twoElems
  · have hblocks := congrArg List.length halloc.taken
    have hroom : layerOffset .raw + 3000 ≤ c.length * PBUF_POOL_BUFSIZE_ALIGNED := halloc.needed.1.2
    simp only [List.length_map, List.length_append, twoElems, List.length_cons, List.length_nil,
      layerOffset, PBUF_POOL_BUFSIZE_ALIGNED, TCP_MSS, PBUF_LINK_HLEN, ETH_PAD_SIZE] at hblocks hroom
    omega
  · exact ⟨free', hrun, hperm⟩

end QuietLwip.Buffers
