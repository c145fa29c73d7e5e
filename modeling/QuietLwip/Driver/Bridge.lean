import QuietLwip.Buffers.Headers
import QuietLwip.Driver.Frames

/-!
# Frames between chains and flat buffers

`pbuf2buf` takes the padding off a chain that is sent and copies the rest; `buf2pbuf` makes a pool chain
of a frame that was received. Both are taken over any `ETH_PAD_SIZE`, on which the size of the pool's
elements depends.
-/

namespace QuietLwip.Driver

open Word Buffers

/-- `PBUF_POOL_BUFSIZE_ALIGNED` -/
def poolBufsize (ethPadSize : ℕ) : ℕ := TCP_MSS + 40 + (14 + ethPadSize)

/-- A pbuf over an element of the pool, without header room: `tot_len` and at most as many bytes of
`len`. -/
def rawPbuf {size : ℕ} (e : RamBlock size) (total : ℕ) (htot : total < 2 ^ 16) : Pbuf where
  addr := e.addr
  mem := e.mem
  payload := 0
  totLen := total
  len := min total size
  type := .pool
  flags := 0
  ref := 1
  inMem := by rw [e.memLen]; omega
  lenLt := by omega
  totLt := htot
  refLt := oneRef_lt

/-- The loop of `pbuf_alloc` over the free elements; `none` when they run out. -/
def rawTail {size : ℕ} (remLen : ℕ) (hrem : remLen < 2 ^ 16) : List (RamBlock size) → Option (List Pbuf)
  | [] => if remLen = 0 then some [] else none
  | e :: free =>
    if remLen = 0 then some []
    else
      let q := rawPbuf e remLen hrem
      (rawTail (remLen - q.len) (by omega) free).map (q :: ·)

/-- `pbuf_alloc(PBUF_RAW, length, PBUF_POOL)`; `none` is `NULL`. -/
def pbufAllocRaw {size : ℕ} (length : ℕ) (hlen : length < 2 ^ 16) :
    List (RamBlock size) → Option (List Pbuf)
  | [] => none
  | e :: free =>
    let p := rawPbuf e length hlen
    (rawTail (length - p.len) (by omega) free).map (p :: ·)

/-- The `n` bytes of `buf` from `off` on. -/
def readBuf (buf : ℕ → UInt8) (off n : ℕ) : List UInt8 := (List.range n).map fun i => buf (off + i)

/-- The loop of `buf2pbuf`, and the number of bytes copied. -/
def fillLoop (buf : ℕ → UInt8) (copied : ℕ) : List Pbuf → List Pbuf × ℕ
  | [] => ([], copied)
  | q :: qs =>
    let q' := q.write (readBuf buf copied q.len) (by simp [readBuf])
    let r := fillLoop buf (copied + q.len) qs
    (q' :: r.1, r.2)

/-- `buf2pbuf(buf, len)` over the free elements of the pool: the chain, and the number of bytes read from
`buf`. -/
def buf2pbuf (ethPadSize : ℕ) (buf : ℕ → UInt8) (len : ℕ)
    (pool : List (RamBlock (poolBufsize ethPadSize))) : Option (List Pbuf × ℕ) := do
  -- the length is narrowed to the `u16_t` of `pbuf_alloc`
  let length := u16 (len + ethPadSize : ℕ)
  let p ← pbufAllocRaw length (u16_lt _) pool
  let (p, copied) := fillLoop buf 0 p
  let (_, p) ← pbufHeader p ethPadSize
  return (p, copied)

/-- The elements can hold the bytes. -/
def Enough {size : ℕ} (pool : List (RamBlock size)) (length : ℕ) : Prop :=
  pool ≠ [] ∧ length ≤ pool.length * size

instance {size : ℕ} (pool : List (RamBlock size)) (length : ℕ) : Decidable (Enough pool length) :=
  match pool with
  | [] => isFalse fun h => h.1 rfl
  | e :: free => decidable_of_iff (length ≤ (e :: free).length * size)
      ⟨fun h => ⟨List.cons_ne_nil _ _, h⟩, And.right⟩

variable {size n copied ethPadSize : ℕ} {c p : List Pbuf} {buf : ℕ → UInt8}

/-! ### `pbuf_alloc` -/

/-- An element of the pool as it is configured here. -/
def ofPoolElem (e : PoolElem) : RamBlock (poolBufsize ETH_PAD_SIZE) := ⟨e.addr, e.mem, e.memLen⟩

theorem rawTail_ofPoolElem (free : List PoolElem) (n : ℕ) (hn : n < 2 ^ 16) :
    rawTail n hn (free.map ofPoolElem) = (allocTail n hn free).1 := by
  induction free generalizing n with
  | nil => rfl
  | cons e free ih =>
    by_cases h0 : n = 0
    · simp [rawTail, allocTail, h0]
    · have hq : rawPbuf (ofPoolElem e) n hn = poolPbuf e 0 n (Nat.zero_le _) hn := rfl
      simp only [List.map_cons, rawTail, allocTail, if_neg h0, hq, ih]

/-- Without padding it is the `pbuf_alloc` of the pool. -/
theorem pbufAllocRaw_ofPoolElem (length : ℕ) (hlen : length < 2 ^ 16) (pool : List PoolElem) :
    pbufAllocRaw length hlen (pool.map ofPoolElem) = (pbufAllocPool .raw length hlen pool).1 := by
  cases pool with
  | nil => rfl
  | cons e free =>
    have hp : rawPbuf (ofPoolElem e) length hlen =
        poolPbuf e (layerOffset .raw) length (layerOffset_le .raw) hlen := rfl
    simp only [List.map_cons, pbufAllocRaw, pbufAllocPool, hp, rawTail_ofPoolElem]
    cases (allocTail (length - (poolPbuf e (layerOffset .raw) length (layerOffset_le .raw)
      hlen).len) (by omega) free).1 <;> rfl

/-- The pbufs of a chain as `pbuf_alloc` makes them. -/
def FromPool (c : List Pbuf) : Prop := ∀ p ∈ c, p.payload = 0 ∧ p.type = .pool ∧ p.ref = 1

theorem rawTail_spec (free : List (RamBlock size)) (n : ℕ) (hn : n < 2 ^ 16) :
    (∀ c, rawTail n hn free = some c → WellFormed c ∧ totLen c = n ∧ FromPool c) ∧
      ((rawTail n hn free).isSome ↔ n ≤ free.length * size) := by
  induction free generalizing n with
  | nil =>
    by_cases h0 : n = 0
    · subst h0
      simp [rawTail, WellFormed, totLen, FromPool]
    · simp [rawTail, h0]
  | cons e free ih =>
    by_cases h0 : n = 0
    · subst h0
      simp [rawTail, WellFormed, totLen, FromPool]
    have hlen : (rawPbuf e n hn).len = min n size := rfl
    obtain ⟨hwf, hsome⟩ := ih (n - min n size) (by omega)
    simp only [rawTail, if_neg h0, hlen, Option.isSome_map, hsome]
    constructor
    · intro c hc
      obtain ⟨tail, htail, rfl⟩ := Option.map_eq_some_iff.mp hc
      obtain ⟨hwt, htot, hpool⟩ := hwf tail htail
      refine ⟨⟨?_, hwt⟩, rfl, List.forall_mem_cons.mpr ⟨⟨rfl, rfl, rfl⟩, hpool⟩⟩
      rw [htot]
      change n = min n size + _
      omega
    · rw [List.length_cons, Nat.succ_mul]
      omega

theorem pbufAllocRaw_spec (length : ℕ) (hlen : length < 2 ^ 16) (pool : List (RamBlock size)) :
    (∀ c, pbufAllocRaw length hlen pool = some c →
      c ≠ [] ∧ WellFormed c ∧ totLen c = length ∧ FromPool c) ∧
      ((pbufAllocRaw length hlen pool).isSome ↔ Enough pool length) := by
  cases pool with
  | nil => simp [pbufAllocRaw, Enough]
  | cons e free =>
    have hp : (rawPbuf e length hlen).len = min length size := rfl
    obtain ⟨hwf, hsome⟩ := rawTail_spec free (length - min length size) (by omega)
    simp only [pbufAllocRaw, hp, Option.isSome_map, hsome, Enough]
    constructor
    · intro c hc
      obtain ⟨tail, htail, rfl⟩ := Option.map_eq_some_iff.mp hc
      obtain ⟨hwt, htot, hpool⟩ := hwf tail htail
      refine ⟨List.cons_ne_nil _ _, ⟨?_, hwt⟩, rfl,
        List.forall_mem_cons.mpr ⟨⟨rfl, rfl, rfl⟩, hpool⟩⟩
      rw [htot]
      change length = min length size + _
      omega
    · simp only [ne_eq, reduceCtorEq, not_false_eq_true, true_and]
      rw [List.length_cons, Nat.succ_mul]
      omega

/-! ### `buf2pbuf` -/

@[simp] theorem readBuf_length (buf : ℕ → UInt8) (off n : ℕ) : (readBuf buf off n).length = n := by
  simp [readBuf]

theorem readBuf_append (buf : ℕ → UInt8) (off m n : ℕ) :
    readBuf buf off (m + n) = readBuf buf off m ++ readBuf buf (off + m) n := by
  rw [readBuf, List.range_add, List.map_append, List.map_map]
  congr 1
  refine List.map_congr_left fun i _ => ?_
  rw [Function.comp_apply, Nat.add_assoc]

theorem readBuf_eq_read (r : Region) (n : ℕ) : readBuf r.cells 0 n = r.read 0 n := rfl

/-- The chain is filled with the bytes of the buffer, in its own shape. -/
theorem fillLoop_spec (buf : ℕ → UInt8) (hwf : WellFormed c) (hpool : FromPool c) (copied : ℕ) :
    (fillLoop buf copied c).2 = copied + totLen c ∧ WellFormed (fillLoop buf copied c).1 ∧
      totLen (fillLoop buf copied c).1 = totLen c ∧ FromPool (fillLoop buf copied c).1 ∧
      bytes (fillLoop buf copied c).1 = readBuf buf copied (totLen c) := by
  induction c generalizing copied with
  | nil => exact ⟨rfl, trivial, rfl, hpool, rfl⟩
  | cons q qs ih =>
    obtain ⟨htot, hqs⟩ := hwf
    obtain ⟨hq, hqsPool⟩ := List.forall_mem_cons.mp hpool
    obtain ⟨hcopied, hwf', htot', hpool', hbytes⟩ := ih hqs hqsPool (copied + q.len)
    have hq' : (q.write (readBuf buf copied q.len) (by simp)).data = readBuf buf copied q.len := by
      rw [Pbuf.write_data, List.drop_of_length_le (by simp), List.append_nil]
    have hhead : totLen (q :: qs) = q.len + totLen qs := htot
    refine ⟨?_, ⟨?_, hwf'⟩, rfl, List.forall_mem_cons.mpr ⟨hq, hpool'⟩, ?_⟩
    · rw [hhead, ← Nat.add_assoc]
      exact hcopied
    · rw [htot']
      exact htot
    · rw [hhead, readBuf_append, ← hbytes, ← hq']
      exact bytes_cons _ _

/-- No header room is left in a pool chain, so that the padding is not taken off. -/
theorem pbufHeader_fromPool (hne : c ≠ []) (hpool : FromPool c) (k : ℕ) :
    ∃ u, pbufHeader c k = some (u, c) := by
  cases c with
  | nil => exact absurd rfl hne
  | cons p ps =>
    obtain ⟨hpay, htype, -⟩ := hpool p (List.mem_cons_self ..)
    by_cases h0 : (k : ℤ) = 0
    · exact ⟨0, by rw [pbufHeader, if_pos h0]⟩
    · refine ⟨1, ?_⟩
      rw [pbufHeader, if_neg h0, dif_neg (by omega)]
      simp only [htype]
      rw [dif_neg (by omega)]

/-- `buf2pbuf` reads a chain of `len` bytes and the padding, from the front of the buffer on. -/
theorem buf2pbuf_spec (buf : ℕ → UInt8) (len : ℕ) (pool : List (RamBlock (poolBufsize ethPadSize))) :
    (∀ c n, buf2pbuf ethPadSize buf len pool = some (c, n) →
      c ≠ [] ∧ WellFormed c ∧ FromPool c ∧ totLen c = u16 (len + ethPadSize : ℕ) ∧
        n = u16 (len + ethPadSize : ℕ) ∧ bytes c = readBuf buf 0 (u16 (len + ethPadSize : ℕ))) ∧
      ((buf2pbuf ethPadSize buf len pool).isSome ↔ Enough pool (u16 (len + ethPadSize : ℕ))) := by
  obtain ⟨halloc, hsome⟩ := pbufAllocRaw_spec (u16 (len + ethPadSize : ℕ)) (u16_lt _) pool
  rw [← hsome, buf2pbuf]
  cases hc : pbufAllocRaw (u16 (len + ethPadSize : ℕ)) (u16_lt _) pool with
  | none => exact ⟨fun _ _ h => (nomatch h), Iff.rfl⟩
  | some c =>
    obtain ⟨hne, hwf, htot, hpool⟩ := halloc c hc
    obtain ⟨hcopied, hwf', htot', hpool', hbytes⟩ := fillLoop_spec buf hwf hpool 0
    have hne' : (fillLoop buf 0 c).1 ≠ [] := by
      cases c with
      | nil => exact absurd rfl hne
      | cons q qs => exact List.cons_ne_nil _ _
    obtain ⟨u, hu⟩ := pbufHeader_fromPool hne' hpool' ethPadSize
    have hrun : (do
        let p ← some c
        let (p, copied) := fillLoop buf 0 p
        let (_, p) ← pbufHeader p ethPadSize
        return (p, copied)) = some ((fillLoop buf 0 c).1, (fillLoop buf 0 c).2) := by
      simp [hu]
    refine ⟨fun c' n h => ?_, ?_⟩
    · rw [hrun] at h
      cases h
      rw [htot] at htot' hbytes hcopied
      exact ⟨hne', hwf', hpool', htot', by rw [hcopied, Nat.zero_add], hbytes⟩
    · rw [hrun]
      rfl

/-! ### The round trip -/

/-- The chain goes through the buffer and comes back behind the padding: it is itself left as it was,
and no more of the buffer is read than was written. -/
def RoundTrip (ethPadSize : ℕ) (p : List Pbuf) (buf : ℕ → UInt8)
    (pool : List (RamBlock (poolBufsize ethPadSize))) : Prop :=
  ∃ r n, pbuf2buf ethPadSize buf p = some (r, n, p) ∧ n + ethPadSize = totLen p ∧ r.extent = n ∧
    r.read 0 n = (bytes p).drop ethPadSize ∧
    ∃ c copied, buf2pbuf ethPadSize r.cells n pool = some (c, copied) ∧ WellFormed c ∧
      totLen c = n + ethPadSize ∧ (bytes c).drop ethPadSize = (bytes p).drop ethPadSize ∧ copied ≤ n

/-- The round trip is right exactly when there is no padding: otherwise as many bytes behind the frame
are read as there is padding. -/
theorem roundTrip_iff {p : Pbuf} {ps : List Pbuf} (hwf : WellFormed (p :: ps))
    (hpad : ethPadSize ≤ p.len) (buf : ℕ → UInt8) {pool : List (RamBlock (poolBufsize ethPadSize))}
    (hpool : Enough pool (totLen (p :: ps))) :
    RoundTrip ethPadSize (p :: ps) buf pool ↔ ethPadSize = 0 := by
  have hlt := totLen_lt (p :: ps)
  have htot : totLen (p :: ps) = p.len + totLen ps := hwf.1
  constructor
  · rintro ⟨r, n, -, hn, -, -, c, copied, hc, -, -, -, hread⟩
    obtain ⟨-, -, -, -, hcopied, -⟩ := (buf2pbuf_spec r.cells n pool).1 c copied hc
    have hu16 : u16 (n + ethPadSize : ℕ) = n + ethPadSize := u16_natCast (by omega)
    omega
  · rintro rfl
    obtain ⟨r, d, hcopy, hext, hread⟩ := pbuf2buf_spec buf hwf (Nat.zero_le p.len)
    have hd : d = p :: ps := by
      have hzero : pbufHeader (p :: ps) 0 = some (0, p :: ps) := by rw [pbufHeader, if_pos rfl]
      simp only [pbuf2buf, Nat.cast_zero, neg_zero, hzero, Option.bind_eq_bind, Option.bind_some,
        Option.pure_def, Option.some_inj, Prod.mk.injEq] at hcopy
      exact hcopy.2.2.symm
    subst hd
    rw [Nat.sub_zero] at hcopy hext hread
    have hu16 : u16 (totLen (p :: ps) + 0 : ℕ) = totLen (p :: ps) := u16_natCast hlt
    obtain ⟨hspec, hsome⟩ := buf2pbuf_spec r.cells (totLen (p :: ps)) pool
    rw [hu16] at hspec hsome
    obtain ⟨⟨c, copied⟩, hc⟩ := Option.isSome_iff_exists.mp (hsome.mpr hpool)
    obtain ⟨-, hcwf, -, hctot, hcopied, hcbytes⟩ := hspec c copied hc
    refine ⟨r, _, hcopy, rfl, hext, hread, c, copied, hc, hcwf, hctot, ?_, hcopied.le⟩
    rw [List.drop_zero, List.drop_zero, hcbytes, readBuf_eq_read, hread, List.drop_zero]

/-- A pbuf of four bytes. -/
def fourBytes : Pbuf where
  addr := 0
  mem := [0, 0, 1, 2]
  payload := 0
  totLen := 4
  len := 4
  type := .ram
  flags := 0
  ref := 1
  inMem := by decide
  lenLt := by decide
  totLt := by decide
  refLt := oneRef_lt

/-- One free element. -/
def oneBlock (size : ℕ) : List (RamBlock size) := [⟨0, List.replicate size 0, List.length_replicate⟩]

theorem oneBlock_enough (ethPadSize : ℕ) : Enough (oneBlock (poolBufsize ethPadSize)) 4 :=
  ⟨List.cons_ne_nil _ _, by simp only [oneBlock, poolBufsize, TCP_MSS, List.length_singleton]; omega⟩

/-- Two bytes behind a padding of two bytes come back with two bytes from behind the frame. -/
theorem roundTrip_padded : ¬ ∀ (ethPadSize : ℕ) (p : Pbuf) (ps : List Pbuf) (buf : ℕ → UInt8)
    (pool : List (RamBlock (poolBufsize ethPadSize))), WellFormed (p :: ps) → ethPadSize ≤ p.len →
    Enough pool (totLen (p :: ps)) → RoundTrip ethPadSize (p :: ps) buf pool := by
  intro h
  obtain ⟨r, n, -, hn, -, -, c, copied, hc, -, -, -, hread⟩ := h 2 fourBytes [] (fun _ => 0)
    (oneBlock _) (by decide) (by decide) (oneBlock_enough 2)
  obtain ⟨-, -, -, -, hcopied, -⟩ := (buf2pbuf_spec r.cells n (oneBlock _)).1 c copied hc
  have hfour : n + 2 = 4 := hn
  have hu16 : u16 (n + 2 : ℕ) = n + 2 := u16_natCast (by omega)
  omega

theorem roundTrip_iff_fourBytes :
    RoundTrip 0 [fourBytes] (fun _ => 0) (oneBlock (poolBufsize 0)) ↔ 0 = 0 :=
  roundTrip_iff (by decide) (Nat.zero_le _) _ (oneBlock_enough 0)

end QuietLwip.Driver
