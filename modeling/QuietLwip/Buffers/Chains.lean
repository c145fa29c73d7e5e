import QuietLwip.Buffers.Pbuf

/-!
# Byte semantics of the chain operations

Each operation repairs the redundant `tot_len` fields in its own way: `pbuf_cat`
adds along the walk, `pbuf_realloc` adds a negative difference along the walk and
recomputes the split element, `pbuf_header` adjusts the head alone. The lemmas
here say, operation by operation, that the repair is right and what happens to
the bytes.
-/

namespace QuietLwip.Buffers

open QuietLwip.Word

/-- Every pbuf of the chain is referenced, as every allocated pbuf is. -/
def Referenced (c : List Pbuf) : Prop := ∀ p ∈ c, 0 < p.ref

@[simp] theorem Pbuf.data_length (p : Pbuf) : p.data.length = p.len := by
  have := p.inMem
  simp only [Pbuf.data, List.length_take, List.length_drop]
  omega

@[simp] theorem bytes_nil : bytes [] = [] := rfl

@[simp] theorem bytes_cons (p : Pbuf) (ps : List Pbuf) :
    bytes (p :: ps) = p.data ++ bytes ps := List.flatMap_cons

@[simp] theorem bytes_append (c d : List Pbuf) : bytes (c ++ d) = bytes c ++ bytes d :=
  List.flatMap_append

/-- In a well-formed chain the head's `tot_len` counts the bytes. -/
theorem WellFormed.bytes_length {c : List Pbuf} (h : WellFormed c) :
    (bytes c).length = totLen c := by
  induction c with
  | nil => rfl
  | cons p ps ih =>
    obtain ⟨htot, hps⟩ := h
    simp [totLen, htot, ih hps]

theorem totLen_lt (c : List Pbuf) : totLen c < 2 ^ 16 := by
  cases c with
  | nil => decide
  | cons p ps => exact p.totLt

/-! ### Allocation -/

/-- The tail loop builds a well-formed chain of the remaining length, or runs the
pool empty; it succeeds exactly when the pool's elements can hold the length. -/
theorem allocTail_spec (free : List PoolElem) (n : ℕ) (hn : n < 2 ^ 16) :
    (∀ c, (allocTail n hn free).1 = some c → WellFormed c ∧ totLen c = n) ∧
    ((allocTail n hn free).1.isSome ↔ n ≤ free.length * PBUF_POOL_BUFSIZE_ALIGNED) := by
  induction free generalizing n with
  | nil =>
    by_cases h0 : n = 0
    · subst h0
      simp [allocTail, WellFormed, totLen]
    · simp [allocTail, h0]
  | cons e free ih =>
    by_cases h0 : n = 0
    · subst h0
      simp [allocTail, WellFormed, totLen]
    · have hlen : (poolPbuf e 0 n (Nat.zero_le _) hn).len = min n PBUF_POOL_BUFSIZE_ALIGNED := rfl
      obtain ⟨hwf, hsome⟩ := ih (n - min n PBUF_POOL_BUFSIZE_ALIGNED) (by omega)
      simp only [allocTail, h0, ↓reduceIte, hlen, Option.isSome_map, hsome]
      constructor
      · intro c hc
        obtain ⟨tail, htail, rfl⟩ := Option.map_eq_some_iff.mp hc
        obtain ⟨hwt, htot⟩ := hwf tail htail
        refine ⟨⟨?_, hwt⟩, rfl⟩
        rw [htot]
        change n = min n PBUF_POOL_BUFSIZE_ALIGNED + _
        omega
      · rw [List.length_cons, Nat.succ_mul]
        omega

/-- `pbuf_alloc(layer, length, PBUF_POOL)` builds a well-formed chain of `length`
bytes. -/
theorem pbufAllocPool_wellFormed {layer : PbufLayer} {length : ℕ} {hlen : length < 2 ^ 16}
    {pool : List PoolElem} {c : List Pbuf}
    (h : (pbufAllocPool layer length hlen pool).1 = some c) :
    WellFormed c ∧ totLen c = length := by
  cases pool with
  | nil => simp [pbufAllocPool] at h
  | cons e free =>
    simp only [pbufAllocPool] at h
    split at h
    · next tail htail =>
      obtain ⟨hwt, htot⟩ := (allocTail_spec free _ _).1 tail htail
      cases h
      refine ⟨⟨?_, hwt⟩, rfl⟩
      rw [htot]
      simp only [poolPbuf]
      omega
    · simp at h

/-- It succeeds exactly when the free elements can hold header room and payload. -/
theorem pbufAllocPool_isSome (layer : PbufLayer) (length : ℕ) (hlen : length < 2 ^ 16)
    (pool : List PoolElem) :
    (pbufAllocPool layer length hlen pool).1.isSome ↔
      pool ≠ [] ∧ length + layerOffset layer ≤ pool.length * PBUF_POOL_BUFSIZE_ALIGNED := by
  cases pool with
  | nil => simp [pbufAllocPool]
  | cons e free =>
    have hoff := layerOffset_le layer
    have hp : (poolPbuf e (layerOffset layer) length hoff hlen).len =
        min length (PBUF_POOL_BUFSIZE_ALIGNED - layerOffset layer) := rfl
    have htail := (allocTail_spec free
      (length - min length (PBUF_POOL_BUFSIZE_ALIGNED - layerOffset layer)) (by omega)).2
    simp only [pbufAllocPool, hp]
    cases hr : (allocTail (length - min length (PBUF_POOL_BUFSIZE_ALIGNED - layerOffset layer))
        (by omega) free).1 with
    | none =>
      simp only [hr, Option.isSome_none, Bool.false_eq_true, false_iff] at htail ⊢
      rw [List.length_cons, Nat.succ_mul]
      omega
    | some tail =>
      simp only [hr, Option.isSome_some, true_iff] at htail ⊢
      refine ⟨by simp, ?_⟩
      rw [List.length_cons, Nat.succ_mul]
      omega

/-! ### Concatenation -/

theorem catLoop_spec {t : List Pbuf} (ht : WellFormed t) :
    ∀ {h : List Pbuf}, h ≠ [] → WellFormed h → totLen h + totLen t < 2 ^ 16 →
      ∃ c, catLoop t h = some c ∧ WellFormed c ∧ totLen c = totLen h + totLen t ∧
        bytes c = bytes h ++ bytes t := by
  intro h hne hwf hsum
  induction h with
  | nil => exact absurd rfl hne
  | cons p ps ih =>
    obtain ⟨htot, hps⟩ := hwf
    have hnew : u16 ((p.totLen : ℤ) + totLen t) = p.totLen + totLen t :=
      wrapU_natCast (n := p.totLen + totLen t) hsum
    cases ps with
    | nil =>
      have hlast : p.totLen = p.len := htot
      refine ⟨p.setTotLen (p.totLen + totLen t) :: t, ?_, ⟨?_, ht⟩, hnew, by simp⟩
      · rw [catLoop, if_pos hlast]
      · rw [Pbuf.setTotLen_totLen, hnew, hlast]
        rfl
    | cons q qs =>
      have hle : totLen (q :: qs) + totLen t < 2 ^ 16 := by
        change p.totLen + totLen t < 2 ^ 16 at hsum
        omega
      obtain ⟨c, hc, hcwf, hctot, hcbytes⟩ := ih (List.cons_ne_nil _ _) hps hle
      refine ⟨p.setTotLen (p.totLen + totLen t) :: c, ?_, ⟨?_, hcwf⟩, hnew, ?_⟩
      · rw [catLoop, hc]
        rfl
      · rw [Pbuf.setTotLen_totLen, hnew, hctot, htot, Pbuf.setTotLen_len, Nat.add_assoc]
      · rw [bytes_cons, hcbytes, Pbuf.setTotLen_data, bytes_cons p, List.append_assoc]

/-- `pbuf_cat(h, t)` of well-formed chains is well formed with the bytes of `h`
followed by those of `t`. -/
theorem pbufCat_spec {h t : List Pbuf} (hh : h ≠ []) (ht : t ≠ []) (hwf : WellFormed h)
    (twf : WellFormed t) (hsum : totLen h + totLen t < 2 ^ 16) :
    ∃ c, pbufCat h t = some c ∧ WellFormed c ∧ totLen c = totLen h + totLen t ∧
      bytes c = bytes h ++ bytes t := by
  cases t with
  | nil => exact absurd rfl ht
  | cons q qs => exact catLoop_spec twf hh hwf hsum

/-- The pbufs of the head only get a new `tot_len`. -/
theorem catLoop_eq {t h c : List Pbuf} (hc : catLoop t h = some c) :
    c = h.map (fun p => p.setTotLen (p.totLen + totLen t)) ++ t := by
  induction h generalizing c with
  | nil => cases hc
  | cons p ps ih =>
    cases ps with
    | nil =>
      rw [catLoop] at hc
      split at hc
      · cases hc
        rfl
      · cases hc
    | cons q ps =>
      rw [catLoop] at hc
      obtain ⟨d, hd, rfl⟩ := Option.map_eq_some_iff.mp hc
      rw [ih hd]
      rfl

theorem pbufCat_eq {t h c : List Pbuf} (hc : pbufCat h t = some c) :
    c = h.map (fun p => p.setTotLen (p.totLen + totLen t)) ++ t := by
  cases t with
  | nil => cases hc
  | cons q qs => exact catLoop_eq hc

theorem pbufCat_length {t h c : List Pbuf} (hc : pbufCat h t = some c) :
    c.length = h.length + t.length := by
  rw [pbufCat_eq hc, List.length_append, List.length_map]

theorem pbufRef_wellFormed {t : List Pbuf} (h : WellFormed t) : WellFormed (pbufRef t) := by
  cases t with
  | nil => exact h
  | cons p ps => exact h

@[simp] theorem pbufRef_bytes (t : List Pbuf) : bytes (pbufRef t) = bytes t := by
  cases t <;> rfl

@[simp] theorem pbufRef_totLen (t : List Pbuf) : totLen (pbufRef t) = totLen t := by
  cases t <;> rfl

theorem pbufRef_ne_nil {t : List Pbuf} (h : t ≠ []) : pbufRef t ≠ [] := by
  cases t with
  | nil => exact h
  | cons p ps => exact List.cons_ne_nil _ _

theorem pbufChain_spec {h t : List Pbuf} (hh : h ≠ []) (ht : t ≠ []) (hwf : WellFormed h)
    (twf : WellFormed t) (hsum : totLen h + totLen t < 2 ^ 16) :
    ∃ c, pbufChain h t = some c ∧ WellFormed c ∧ totLen c = totLen h + totLen t ∧
      bytes c = bytes h ++ bytes t := by
  have hspec := pbufCat_spec hh (pbufRef_ne_nil ht) hwf (pbufRef_wellFormed twf)
    (by simpa using hsum)
  simpa only [pbufChain, pbufRef_totLen, pbufRef_bytes] using hspec

/-! ### Freeing -/

/-- The loop of `pbuf_free` splits a well-formed chain: a front part is
deallocated, the rest stays, well formed and with its bytes. -/
theorem freeLoop_spec {c : List Pbuf} (hwf : WellFormed c) (href : Referenced c) (n : ℕ) :
    ∃ r, freeLoop n c = some r ∧ WellFormed r.rest ∧ bytes r.freed ++ bytes r.rest = bytes c ∧
      r.freed.length + r.rest.length = c.length := by
  induction c generalizing n with
  | nil => exact ⟨⟨n, [], []⟩, rfl, trivial, rfl, rfl⟩
  | cons p ps ih =>
    obtain ⟨htot, hps⟩ := hwf
    have hp : 0 < p.ref := href p (List.mem_cons_self ..)
    have hrest : Referenced ps := fun q hq => href q (List.mem_cons_of_mem _ hq)
    by_cases hdead : (p.setRef (p.ref - 1)).ref = 0
    · obtain ⟨r, hr, hrwf, hrbytes, hrlen⟩ := ih hps hrest (u8 (n + 1))
      refine ⟨{ r with freed := p.setRef (p.ref - 1) :: r.freed }, ?_, hrwf, ?_, ?_⟩
      · simp only [freeLoop, if_pos hp, if_pos hdead, hr, Option.map_some]
      · simp only [bytes_cons, Pbuf.setRef_data, List.append_assoc, hrbytes]
      · simp only [List.length_cons]
        omega
    · refine ⟨⟨n, [], p.setRef (p.ref - 1) :: ps⟩, ?_, ⟨htot, hps⟩, rfl, by simp⟩
      simp only [freeLoop, if_pos hp, if_neg hdead]

/-- The returned count is the number of pbufs deallocated, while that fits a `u8_t`. -/
theorem freeLoop_count {c : List Pbuf} {n : ℕ} {r : FreeResult} (h : freeLoop n c = some r)
    (hn : n + r.freed.length < 2 ^ 8) : r.count = n + r.freed.length := by
  induction c generalizing n r with
  | nil =>
    cases h
    rfl
  | cons p ps ih =>
    simp only [freeLoop] at h
    split at h
    · split at h
      · obtain ⟨r', hr', rfl⟩ := Option.map_eq_some_iff.mp h
        simp only [List.length_cons] at hn ⊢
        have hstep : u8 ((n : ℤ) + 1) = n + 1 := wrapU_natCast (n := n + 1) (by omega)
        rw [hstep] at hr'
        have := ih hr' (by omega)
        omega
      · cases h
        rfl
    · cases h

/-- The loop stops in front of the first pbuf that is referenced more than once. -/
theorem freeLoop_shared {p : Pbuf} {ps : List Pbuf} (h : 2 ≤ p.ref) (n : ℕ) :
    freeLoop n (p :: ps) = some ⟨n, [], p.setRef (p.ref - 1) :: ps⟩ := by
  have hlt := p.refLt
  have hnew : u16 ((p.ref : ℤ) - 1) = p.ref - 1 := by
    rw [show (p.ref : ℤ) - 1 = ((p.ref - 1 : ℕ) : ℤ) by omega]
    exact wrapU_natCast (by omega)
  have hlive : (p.setRef (p.ref - 1)).ref ≠ 0 := by
    change u16 ((p.ref : ℤ) - 1) ≠ 0
    omega
  simp only [freeLoop, if_pos (show 0 < p.ref by omega), if_neg hlive]

/-- A pbuf referenced once is deallocated. -/
theorem freeLoop_unshared {p : Pbuf} {ps : List Pbuf} (h : p.ref = 1) (n : ℕ) {r : FreeResult}
    (hr : freeLoop n (p :: ps) = some r) : r.freed ≠ [] := by
  have hdead : (p.setRef (p.ref - 1)).ref = 0 := by
    change u16 ((p.ref : ℤ) - 1) = 0
    rw [h]
    rfl
  simp only [freeLoop, if_pos (show 0 < p.ref by omega), if_pos hdead] at hr
  obtain ⟨r', -, rfl⟩ := Option.map_eq_some_iff.mp hr
  exact List.cons_ne_nil _ _

/-- A chain of pbufs that are referenced once is deallocated as a whole. -/
theorem freeLoop_ones {c : List Pbuf} (h : ∀ p ∈ c, p.ref = 1) (n : ℕ) :
    ∃ r, freeLoop n c = some r ∧ r.freed = c.map fun p => p.setRef 0 := by
  induction c generalizing n with
  | nil => exact ⟨_, rfl, rfl⟩
  | cons p ps ih =>
    obtain ⟨hp, hps⟩ := List.forall_mem_cons.mp h
    obtain ⟨r, hr, hfreed⟩ := ih hps (u8 (n + 1))
    have hzero : p.setRef (p.ref - 1) = p.setRef 0 := by rw [hp]; rfl
    refine ⟨{ r with freed := p.setRef 0 :: r.freed }, ?_, by rw [List.map_cons, ← hfreed]⟩
    rw [freeLoop, if_pos (by omega)]
    simp only [hzero]
    rw [if_pos (show (p.setRef 0).ref = 0 from rfl), hr]
    rfl

/-! ### Counting pbufs -/

theorem pbufClen_eq (c : List Pbuf) : pbufClen c = c.length % 256 := by
  have hfold : ∀ (c : List Pbuf) (n : ℕ), n < 256 →
      c.foldl (fun len _ => u8 (len + 1)) n = (n + c.length) % 256 := by
    intro c
    induction c with
    | nil =>
      intro n hn
      exact (Nat.mod_eq_of_lt hn).symm
    | cons p c ih =>
      intro n hn
      have hstep : u8 ((n : ℤ) + 1) = (n + 1) % 256 := by
        simp only [u8, wrapU]
        omega
      rw [List.foldl_cons, hstep, ih _ (Nat.mod_lt _ (by decide)), List.length_cons]
      omega
  have h := hfold c 0 (by decide)
  rwa [Nat.zero_add] at h

/-! ### Dechaining -/

theorem pbufDechain_spec {p : Pbuf} {ps : List Pbuf} (hwf : WellFormed (p :: ps))
    (href : Referenced ps) :
    ∃ r, pbufDechain (p :: ps) = some r ∧ WellFormed [r.head] ∧ bytes [r.head] = p.data ∧
      WellFormed r.tail.rest ∧ bytes r.tail.freed ++ bytes r.tail.rest = bytes ps := by
  obtain ⟨htot, hps⟩ := hwf
  cases ps with
  | nil =>
    have hlast : p.totLen = p.len := htot
    refine ⟨⟨p, none, ⟨0, [], []⟩⟩, ?_, ⟨htot, trivial⟩, by simp, trivial, rfl⟩
    rw [pbufDechain, if_pos hlast]
  | cons q qs =>
    have hq : (q.totLen : ℤ) = p.totLen - p.len := by
      change p.totLen = p.len + q.totLen at htot
      omega
    have hself : q.setTotLen (p.totLen - p.len) = q := by
      have hlt := q.totLt
      have hnew : u16 ((p.totLen : ℤ) - p.len) = q.totLen := by
        rw [← hq]
        exact wrapU_natCast hlt
      simp only [Pbuf.setTotLen, hnew]
    obtain ⟨r, hr, hrwf, hrbytes, -⟩ := freeLoop_spec hps href 0
    have hlen : u16 (p.len : ℤ) = p.len := wrapU_natCast p.lenLt
    refine ⟨⟨p.setTotLen p.len, if 0 < r.count then none else some q.addr, r⟩,
      ?_, ⟨hlen, trivial⟩, by simp, hrwf, hrbytes⟩
    rw [pbufDechain, if_pos hq]
    simp only [hself, hr, Option.map_some]

/-- What is returned: the rest of the chain when it is shared, `NULL` when it was
deallocated (fewer than 256 pbufs of it, since `pbuf_free` counts in a `u8_t`). -/
theorem pbufDechain_returned {p q : Pbuf} {qs : List Pbuf} {r : DechainResult}
    (hwf : WellFormed (p :: q :: qs))
    (h : pbufDechain (p :: q :: qs) = some r) (hcount : r.tail.freed.length < 256) :
    (2 ≤ q.ref → r.returned = some q.addr ∧ r.tail.freed = [] ∧
      bytes r.tail.rest = bytes (q :: qs)) ∧
    (q.ref = 1 → r.returned = none) := by
  obtain ⟨htot, hps⟩ := hwf
  have hq : (q.totLen : ℤ) = p.totLen - p.len := by
    change p.totLen = p.len + q.totLen at htot
    omega
  rw [pbufDechain, if_pos hq] at h
  obtain ⟨f, hf, rfl⟩ := Option.map_eq_some_iff.mp h
  constructor
  · intro hshared
    rw [freeLoop_shared (p := q.setTotLen (p.totLen - p.len)) hshared] at hf
    cases hf
    exact ⟨rfl, rfl, rfl⟩
  · intro hunshared
    have hne := freeLoop_unshared (p := q.setTotLen (p.totLen - p.len)) hunshared 0 hf
    have hpos := List.length_pos_of_ne_nil hne
    have hcnt := freeLoop_count hf (by simpa using hcount)
    have : 0 < f.count := by omega
    simp only [if_pos this]

/-! ### Shrinking -/

theorem Pbuf.shrink_data (q : Pbuf) (n : ℕ) (h : n ≤ q.len) :
    (q.shrink n h).data = q.data.take n := by
  have hmem := q.inMem
  simp only [Pbuf.data, Pbuf.shrink]
  split
  · rw [List.drop_take, List.take_take, List.take_take]
    congr 1
    omega
  · rw [List.take_take]
    congr 1
    omega

theorem reallocLoop_spec {c : List Pbuf} (hwf : WellFormed c) (href : Referenced c) {n : ℕ}
    (hn : n < totLen c) :
    ∃ c' r, reallocLoop (n - totLen c) n c = some (c', r) ∧ WellFormed c' ∧ totLen c' = n ∧
      bytes c' = (bytes c).take n := by
  -- the same difference is added all the way down: `n - totLen` is kept by the walk
  induction c generalizing n with
  | nil => simp [totLen] at hn
  | cons q qs ih =>
    obtain ⟨htot, hqs⟩ := hwf
    have hrest : Referenced qs := fun p hp => href p (List.mem_cons_of_mem _ hp)
    have hlt := q.totLt
    by_cases hkeep : q.len < n
    · have hn' : n - q.len < totLen qs := by
        change n < q.totLen at hn
        omega
      obtain ⟨c', r, hr, hcwf, hctot, hcbytes⟩ := ih hqs hrest hn'
      have hgrow : ((n - q.len : ℕ) : ℤ) - totLen qs = n - q.totLen := by omega
      have hnew : u16 ((q.totLen : ℤ) + u16 (n - q.totLen)) = n := by
        change n < q.totLen at hn
        simp only [u16, wrapU]
        omega
      rw [hgrow] at hr
      refine ⟨q.setTotLen (q.totLen + u16 (n - q.totLen)) :: c', r, ?_, ⟨?_, hcwf⟩, hnew, ?_⟩
      · rw [reallocLoop, dif_pos hkeep]
        change Option.map _ (reallocLoop (n - q.totLen) (n - q.len) qs) = _
        rw [hr]
        rfl
      · rw [Pbuf.setTotLen_totLen, hnew, hctot, Pbuf.setTotLen_len]
        omega
      · rw [bytes_cons, bytes_cons, Pbuf.setTotLen_data, hcbytes, List.take_append,
          Pbuf.data_length, List.take_of_length_le (l := q.data) (by rw [Pbuf.data_length]; omega)]
    · have hle : n ≤ q.len := by omega
      have hbytes : bytes [q.shrink n hle] = (bytes (q :: qs)).take n := by
        rw [bytes_cons, bytes_cons, bytes_nil, List.append_nil, q.shrink_data n hle,
          List.take_append_of_le_length (by rw [Pbuf.data_length]; exact hle)]
      cases qs with
      | nil =>
        refine ⟨[q.shrink n hle], ⟨0, [], []⟩, ?_, ⟨rfl, trivial⟩, rfl, hbytes⟩
        rw [reallocLoop, dif_neg hkeep]
      | cons p ps =>
        obtain ⟨r, hr, -⟩ := freeLoop_spec hqs hrest 0
        refine ⟨[q.shrink n hle], r, ?_, ⟨rfl, trivial⟩, rfl, hbytes⟩
        rw [reallocLoop, dif_neg hkeep]
        simp only [hr, Option.map_some]

/-- `pbuf_realloc(p, n)` leaves a well-formed chain of the first
`min(n, tot_len)` bytes. -/
theorem pbufRealloc_spec {c : List Pbuf} (hne : c ≠ []) (hwf : WellFormed c)
    (href : Referenced c) (n : ℕ) :
    ∃ c' r, pbufRealloc c n = some (c', r) ∧ WellFormed c' ∧ totLen c' = min n (totLen c) ∧
      bytes c' = (bytes c).take (min n (totLen c)) := by
  cases c with
  | nil => exact absurd rfl hne
  | cons p ps =>
    by_cases hge : p.totLen ≤ n
    · have hmin : min n (totLen (p :: ps)) = totLen (p :: ps) := min_eq_right hge
      refine ⟨p :: ps, ⟨0, [], []⟩, by simp [pbufRealloc, hge], hwf, hmin.symm, ?_⟩
      rw [hmin, List.take_of_length_le (by rw [hwf.bytes_length])]
    · have hlt : n < totLen (p :: ps) := by
        change n < p.totLen
        omega
      obtain ⟨c', r, hr, hcwf, hctot, hcbytes⟩ := reallocLoop_spec hwf href hlt
      have hmin : min n (totLen (p :: ps)) = n := min_eq_left hlt.le
      refine ⟨c', r, ?_, hcwf, hctot.trans hmin.symm, by rw [hmin]; exact hcbytes⟩
      simp only [pbufRealloc, if_neg hge]
      exact hr

/-! ### Moving the header -/

theorem Pbuf.moveHeader_data_hide (p : Pbuf) (k : ℕ) (hlo : -(k : ℤ) ≤ p.payload)
    (hhi : -(-(k : ℤ)) ≤ p.len) :
    (p.moveHeader (-k) hlo hhi).data = p.data.drop k := by
  have hlt := p.lenLt
  have hlen : u16 ((p.len : ℤ) + -(k : ℤ)) = p.len - k := by
    simp only [u16, wrapU]
    omega
  have hpay : ((p.payload : ℤ) - -(k : ℤ)).toNat = p.payload + k := by omega
  simp only [Pbuf.data, Pbuf.moveHeader, hlen, hpay]
  rw [List.drop_take, List.drop_drop]

/-- A successful `pbuf_header(p, -k)` removes exactly the first `k` bytes. -/
theorem pbufHeader_hide {c c' : List Pbuf} {k : ℕ} (hwf : WellFormed c)
    (h : pbufHeader c (-k) = some (0, c')) :
    k ≤ totLen c ∧ WellFormed c' ∧ bytes c' = (bytes c).drop k := by
  cases c with
  | nil => simp [pbufHeader] at h
  | cons p ps =>
    obtain ⟨htot, hps⟩ := hwf
    simp only [pbufHeader] at h
    split at h
    · next h0 =>
      have hk : k = 0 := by omega
      cases h
      subst hk
      exact ⟨Nat.zero_le _, ⟨htot, hps⟩, by simp⟩
    · next h0 =>
      rw [dif_pos (show -(k : ℤ) < 0 by omega)] at h
      split at h
      · next hlen =>
        cases h
        have hk : k ≤ p.len := by omega
        have hlt := p.totLt
        refine ⟨by change k ≤ p.totLen; omega, ⟨?_, hps⟩, ?_⟩
        · simp only [Pbuf.moveHeader, u16, wrapU]
          omega
        · rw [bytes_cons, bytes_cons, Pbuf.moveHeader_data_hide,
            List.drop_append_of_le_length (by rw [Pbuf.data_length]; exact hk)]
      · cases h

theorem pbufHeader_ne_nil {c c' : List Pbuf} {inc : ℤ} {u : ℕ}
    (h : pbufHeader c inc = some (u, c')) : c' ≠ [] := by
  cases c with
  | nil => cases h
  | cons p ps =>
    simp only [pbufHeader] at h
    repeat' split at h
    all_goals first
      | cases h
        exact List.cons_ne_nil _ _
      | cases h

/-- The pbufs stay the same. -/
theorem pbufHeader_addr {c c' : List Pbuf} {inc : ℤ} {u : ℕ}
    (h : pbufHeader c inc = some (u, c')) : c'.map Pbuf.addr = c.map Pbuf.addr := by
  cases c with
  | nil => cases h
  | cons p ps =>
    simp only [pbufHeader] at h
    repeat' split at h
    all_goals cases h
    all_goals rfl

theorem pbufHeader_length {c c' : List Pbuf} {inc : ℤ} {u : ℕ}
    (h : pbufHeader c inc = some (u, c')) : c'.length = c.length := by
  have hlen := congrArg List.length (pbufHeader_addr h)
  rwa [List.length_map, List.length_map] at hlen

theorem pbufHeader_hide_succeeds {p : Pbuf} (ps : List Pbuf) {k : ℕ} (h : k ≤ p.len) :
    ∃ c, pbufHeader (p :: ps) (-k) = some (0, c) := by
  simp only [pbufHeader]
  by_cases h0 : -(k : ℤ) = 0
  · exact ⟨_, if_pos h0⟩
  · rw [if_neg h0, dif_pos (by omega), dif_pos (by omega)]
    exact ⟨_, rfl⟩

/-- Only the abort on a header larger than the first pbuf keeps `pbuf_header` from
returning. -/
theorem pbufHeader_nonneg_total {c : List Pbuf} (hne : c ≠ []) {inc : ℤ} (hinc : 0 ≤ inc) :
    ∃ u c', pbufHeader c inc = some (u, c') := by
  cases c with
  | nil => exact absurd rfl hne
  | cons p ps =>
    simp only [pbufHeader]
    rw [dif_neg (by omega)]
    by_cases h0 : inc = 0
    · exact ⟨_, _, if_pos h0⟩
    · rw [if_neg h0]
      cases p.type with
      | ram | pool =>
        by_cases hlo : inc ≤ p.payload
        · exact ⟨_, _, dif_pos hlo⟩
        · exact ⟨_, _, dif_neg hlo⟩
      | rom | ref => exact ⟨_, _, rfl⟩

/-- A `pbuf_header` that returns 1 changes nothing. -/
theorem pbufHeader_fail {c c' : List Pbuf} {inc : ℤ} (h : pbufHeader c inc = some (1, c')) :
    c' = c := by
  cases c with
  | nil => cases h
  | cons p ps =>
    simp only [pbufHeader] at h
    split at h
    · cases h
    · split at h
      · split at h
        · cases h
        · cases h
      · split at h
        · split at h
          · cases h
          · cases h; rfl
        · split at h
          · cases h
          · cases h; rfl
        · cases h; rfl
        · cases h; rfl

theorem Pbuf.moveHeader_back (p : Pbuf) (k : ℕ)
    (hlo : -(k : ℤ) ≤ p.payload) (hhi : -(-(k : ℤ)) ≤ p.len)
    (hlo' : (k : ℤ) ≤ (p.moveHeader (-k) hlo hhi).payload)
    (hhi' : -(k : ℤ) ≤ (p.moveHeader (-k) hlo hhi).len) :
    (p.moveHeader (-k) hlo hhi).moveHeader k hlo' hhi' = p := by
  have hlt := p.lenLt
  have htlt := p.totLt
  have hpay : ((((p.payload : ℤ) - -(k : ℤ)).toNat : ℤ) - k).toNat = p.payload := by omega
  have htot' : u16 ((u16 ((p.totLen : ℤ) + -(k : ℤ)) : ℤ) + k) = p.totLen := by
    simp only [u16, wrapU]
    omega
  have hlen' : u16 ((u16 ((p.len : ℤ) + -(k : ℤ)) : ℤ) + k) = p.len := by
    simp only [u16, wrapU]
    omega
  exact Pbuf.ext rfl rfl hpay htot' hlen' rfl rfl rfl

/-- Moving the header of a `PBUF_RAM` or `PBUF_POOL` pbuf by `-k` and then by `k`
restores the chain. -/
theorem pbufHeader_restore {p : Pbuf} {ps c' : List Pbuf} {k : ℕ}
    (htype : p.type = .ram ∨ p.type = .pool) (h : pbufHeader (p :: ps) (-k) = some (0, c')) :
    pbufHeader c' k = some (0, p :: ps) := by
  simp only [pbufHeader] at h
  split at h
  · next h0 =>
    cases h
    rw [pbufHeader, if_pos (by omega)]
  · next h0 =>
    rw [dif_pos (show -(k : ℤ) < 0 by omega)] at h
    split at h
    · next hlen =>
      cases h
      have hlo : -(k : ℤ) ≤ p.payload := by omega
      have hroom : (k : ℤ) ≤ (p.moveHeader (-k) hlo hlen).payload := by
        simp only [Pbuf.moveHeader]
        omega
      have hback := p.moveHeader_back k hlo hlen hroom (by omega)
      have hsame : (p.moveHeader (-k) hlo hlen).type = p.type := rfl
      rw [pbufHeader, if_neg (by omega), dif_neg (by omega)]
      rcases htype with htype | htype
      · simp only [hsame, htype, dif_pos hroom, hback]
      · simp only [hsame, htype, dif_pos hroom, hback]
    · cases h

/-- A `PBUF_ROM` or `PBUF_REF` pbuf cannot be expanded to the front. -/
theorem pbufHeader_external {p : Pbuf} {ps : List Pbuf} {k : ℕ} (hk : 0 < k)
    (htype : p.type = .rom ∨ p.type = .ref) :
    pbufHeader (p :: ps) k = some (1, p :: ps) := by
  rw [pbufHeader, if_neg (by omega), dif_neg (by omega)]
  rcases htype with htype | htype <;> simp only [htype]

/-! ### The contract of the chain operations -/

/-- Well-formedness and bytes under every chain operation. `pbuf_alloc` succeeds
when the pool's free elements hold the length; the part of the chain behind a
dechained or a new last pbuf is deallocated up to its first shared pbuf; the
header comes back for the types whose payload follows the struct. -/
theorem chain_operations :
    (∀ (layer : PbufLayer) (length : ℕ) (hlen : length < 2 ^ 16) (pool : List PoolElem),
      ((pbufAllocPool layer length hlen pool).1.isSome ↔
        pool ≠ [] ∧ length + layerOffset layer ≤ pool.length * PBUF_POOL_BUFSIZE_ALIGNED) ∧
      ∀ c, (pbufAllocPool layer length hlen pool).1 = some c →
        WellFormed c ∧ totLen c = length) ∧
    (∀ h t : List Pbuf, h ≠ [] → t ≠ [] → WellFormed h → WellFormed t →
      totLen h + totLen t < 2 ^ 16 →
      (∃ c, pbufCat h t = some c ∧ WellFormed c ∧ bytes c = bytes h ++ bytes t) ∧
      ∃ c, pbufChain h t = some c ∧ WellFormed c ∧ bytes c = bytes h ++ bytes t) ∧
    (∀ (p : Pbuf) (ps : List Pbuf), WellFormed (p :: ps) → Referenced ps →
      ∃ r, pbufDechain (p :: ps) = some r ∧ WellFormed [r.head] ∧ bytes [r.head] = p.data ∧
        WellFormed r.tail.rest ∧ bytes r.tail.freed ++ bytes r.tail.rest = bytes ps) ∧
    (∀ (p q : Pbuf) (qs : List Pbuf) (r : DechainResult), WellFormed (p :: q :: qs) →
      pbufDechain (p :: q :: qs) = some r → r.tail.freed.length < 256 →
      (2 ≤ q.ref → r.returned = some q.addr ∧ r.tail.freed = [] ∧
        bytes r.tail.rest = bytes (q :: qs)) ∧
      (q.ref = 1 → r.returned = none)) ∧
    (∀ (c : List Pbuf) (n : ℕ), c ≠ [] → WellFormed c → Referenced c →
      ∃ c' r, pbufRealloc c n = some (c', r) ∧ WellFormed c' ∧
        totLen c' = min n (totLen c) ∧ bytes c' = (bytes c).take (min n (totLen c))) ∧
    (∀ (c c' : List Pbuf) (k : ℕ), WellFormed c → pbufHeader c (-k) = some (0, c') →
      WellFormed c' ∧ bytes c' = (bytes c).drop k ∧
      ((∀ p ∈ c.head?, p.type = .ram ∨ p.type = .pool) → pbufHeader c' k = some (0, c))) ∧
    (∀ (c c' : List Pbuf) (inc : ℤ), pbufHeader c inc = some (1, c') → c' = c) := by
  refine ⟨?_, ?_, ?_, ?_, ?_, ?_, ?_⟩
  · intro layer length hlen pool
    refine ⟨pbufAllocPool_isSome layer length hlen pool, ?_⟩
    intro c hc
    exact pbufAllocPool_wellFormed hc
  · intro h t hh ht hwf twf hsum
    obtain ⟨c, hc, hcwf, -, hbytes⟩ := pbufCat_spec hh ht hwf twf hsum
    obtain ⟨d, hd, hdwf, -, hdbytes⟩ := pbufChain_spec hh ht hwf twf hsum
    exact ⟨⟨c, hc, hcwf, hbytes⟩, d, hd, hdwf, hdbytes⟩
  · intro p ps hwf href
    exact pbufDechain_spec hwf href
  · intro p q qs r hwf h hcount
    exact pbufDechain_returned hwf h hcount
  · intro c n hne hwf href
    exact pbufRealloc_spec hne hwf href n
  · intro c c' k hwf h
    obtain ⟨-, hwf', hbytes⟩ := pbufHeader_hide hwf h
    refine ⟨hwf', hbytes, ?_⟩
    intro htype
    cases c with
    | nil => simp [pbufHeader] at h
    | cons p ps => exact pbufHeader_restore (htype p rfl) h
  · intro c c' inc h
    exact pbufHeader_fail h

/-- A `PBUF_REF` pbuf over three bytes. -/
def refPbuf : Pbuf :=
  ⟨0, [1, 2, 3], 0, 3, 3, .ref, 0, 1, by decide, by decide, by decide, oneRef_lt⟩

/-- The header hidden from a `PBUF_REF` pbuf does not come back. -/
theorem pbufHeader_ref_not_restored :
    ¬ ∀ (c c' : List Pbuf) (k : ℕ), WellFormed c → pbufHeader c (-k) = some (0, c') →
      pbufHeader c' k = some (0, c) := by
  intro h
  have hrestored := h [refPbuf] [refPbuf.moveHeader (-1) (by decide) (by decide)] 1
    ⟨rfl, trivial⟩ rfl
  revert hrestored
  decide

/-- The operations on a chain of two `PBUF_REF` pbufs. -/
theorem chain_operations_refPbuf :
    (∃ c, pbufCat [refPbuf] [refPbuf] = some c ∧ WellFormed c ∧
      bytes c = [1, 2, 3] ++ [1, 2, 3]) ∧
    (∃ c' r, pbufRealloc [refPbuf] 2 = some (c', r) ∧ WellFormed c' ∧ totLen c' = 2 ∧
      bytes c' = [1, 2]) := by
  obtain ⟨-, hcat, -, -, hrealloc, -⟩ := chain_operations
  constructor
  · exact (hcat [refPbuf] [refPbuf] (by decide) (by decide) (by decide) (by decide)
      (by decide)).1
  · exact hrealloc [refPbuf] 2 (by decide) (by decide) (by simp [Referenced, refPbuf])

end QuietLwip.Buffers
