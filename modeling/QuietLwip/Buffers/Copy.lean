import QuietLwip.Buffers.Headers
import QuietLwip.Foundation.Region

/-!
# Copying into and out of chains

`pbuf_copy_partial`, `pbuf_take`, `pbuf_get_at`, `pbuf_copy` and `pbuf_coalesce` walk over chains that
are split at places of their own. Their results are stated for the bytes of the whole chain. The end
of a packet is the pbuf with `len` equal to `tot_len`: what follows it belongs to a further packet of
a queue, which `pbuf_copy` refuses.
-/

namespace QuietLwip.Buffers

open Word

/-- The `err_t` values of these functions. -/
inductive Err where
  | ok | arg
  deriving DecidableEq, Repr

/-- The bytes `l` are written from `off` bytes behind the payload pointer on. -/
def Pbuf.writeAt (p : Pbuf) (off : ℕ) (l : List UInt8) (h : off + l.length ≤ p.len) : Pbuf where
  addr := p.addr
  mem := p.mem.take (p.payload + off) ++ (l ++ p.mem.drop (p.payload + off + l.length))
  payload := p.payload
  totLen := p.totLen
  len := p.len
  type := p.type
  flags := p.flags
  ref := p.ref
  inMem := by
    have hmem := p.inMem
    simp only [List.length_append, List.length_take, List.length_drop]
    omega
  lenLt := p.lenLt
  totLt := p.totLt
  refLt := p.refLt

/-! ### Out of a chain -/

/-- The loop of `pbuf_copy_partial`. -/
def copyPartialLoop (d : Region) (left copiedTotal len offset : ℕ) : List Pbuf → Region × ℕ
  | [] => (d, copiedTotal)
  | p :: ps =>
    if len = 0 then (d, copiedTotal)
    else if offset ≠ 0 ∧ p.len ≤ offset then
      -- don't copy from this buffer -> on to the next
      copyPartialLoop d left copiedTotal len (offset - p.len) ps
    else
      let bufCopyLen := min (p.len - offset) len
      copyPartialLoop (d.write left ((p.data.drop offset).take bufCopyLen)) (u16 (left + bufCopyLen))
        (u16 (copiedTotal + bufCopyLen)) (len - bufCopyLen) 0 ps

/-- `pbuf_copy_partial(buf, dataptr, len, offset)`: the memory behind `dataptr`, and the number of bytes
copied. `none` is the abort of `LWIP_ERROR`. -/
def pbufCopyPartial (buf : List Pbuf) (dataptr : ℕ → UInt8) (len offset : ℕ) : Option (Region × ℕ) :=
  match buf with
  | [] => none
  | p :: ps => some (copyPartialLoop (.fresh dataptr) 0 0 len offset (p :: ps))

/-- The loop that gets the pbuf with the byte at `n`, and the offset of the byte in it. -/
def skipTo (n : ℕ) : List Pbuf → List Pbuf × ℕ
  | [] => ([], n)
  | q :: qs => if q.len ≤ n then skipTo (n - q.len) qs else (q :: qs, n)

/-- `pbuf_get_at(p, offset)` -/
def pbufGetAt (p : List Pbuf) (offset : ℕ) : UInt8 :=
  match skipTo offset p with
  | (q :: _, copyFrom) => if copyFrom < q.len then (q.data[copyFrom]?).getD 0 else 0
  | ([], _) => 0

/-! ### Into a chain -/

/-- The loop of `pbuf_take`, with the assertion behind it. -/
def takeLoop (dataptr : List UInt8) (len totalCopyLen copiedTotal : ℕ) :
    List Pbuf → Option (List Pbuf)
  | [] => if totalCopyLen = 0 ∧ copiedTotal = len then some [] else none
  | p :: ps =>
    if totalCopyLen = 0 then if copiedTotal = len then some (p :: ps) else none
    else
      let bufCopyLen := min totalCopyLen p.len
      (takeLoop dataptr len (totalCopyLen - bufCopyLen) (u16 (copiedTotal + bufCopyLen)) ps).map
        (p.writeAt 0 ((dataptr.drop copiedTotal).take bufCopyLen) (by
          rw [List.length_take]
          omega) :: ·)

/-- `pbuf_take(buf, dataptr, len)` -/
def pbufTake (buf : List Pbuf) (dataptr : List UInt8) (len : ℕ) : Option (Err × List Pbuf) :=
  match buf with
  | [] => none
  | p :: ps =>
    if p.totLen < len then some (.arg, p :: ps)
    else (takeLoop dataptr len len 0 (p :: ps)).map fun c => (.ok, c)

/-- A further packet follows this pbuf. -/
def isQueue : List Pbuf → Bool
  | p :: _ :: _ => p.len = p.totLen
  | _ => false

/-- The pointers of `pbuf_copy`; `done` are the pbufs that `p_to` has passed. -/
structure Cursors where
  done : List Pbuf
  pTo : List Pbuf
  offsetTo : ℕ
  pFrom : List Pbuf
  offsetFrom : ℕ

/-- The body of the loop of `pbuf_copy`. `none`: one of the assertions fails, or one of the three
`LWIP_ERROR`, which abort. -/
def copyBody (k : Cursors) : Option Cursors :=
  match k.pTo, k.pFrom with
  | p :: ps, q :: qs =>
    let len :=
      if q.len - k.offsetFrom ≤ p.len - k.offsetTo then q.len - k.offsetFrom
      else p.len - k.offsetTo
    if h : k.offsetTo + len ≤ p.len ∧ k.offsetFrom + len ≤ q.len then
      let p' := p.writeAt k.offsetTo ((q.data.drop k.offsetFrom).take len) (by
        rw [List.length_take]
        omega)
      let (pFrom, offsetFrom) :=
        if q.len ≤ k.offsetFrom + len then (qs, 0) else (q :: qs, k.offsetFrom + len)
      let (done, pTo, offsetTo) :=
        if k.offsetTo + len = p.len then (k.done ++ [p'], ps, 0)
        else (k.done, p' :: ps, k.offsetTo + len)
      if pTo = [] ∧ pFrom ≠ [] then none
      -- don't copy more than one packet!
      else if isQueue pFrom ∨ isQueue pTo then none
      else some { done, pTo, offsetTo, pFrom, offsetFrom }
    else none
  | _, _ => none

/-- The loop, `while (p_from)`. -/
def copyLoop : ℕ → Cursors → Option Cursors
  | 0, _ => none
  | fuel + 1, k => (copyBody k).bind fun k => if k.pFrom = [] then some k else copyLoop fuel k

/-- `pbuf_copy(p_to, p_from)`: `p_to` after `ERR_OK`. -/
def pbufCopy (pTo pFrom : List Pbuf) : Option (List Pbuf) :=
  if pTo = [] ∨ pFrom = [] ∨ totLen pTo < totLen pFrom then none
  else (copyLoop (pTo.length + pFrom.length) ⟨[], pTo, 0, pFrom, 0⟩).map fun k => k.done ++ k.pTo

/-- `pbuf_coalesce(p, layer)`; `block` is the answer of `mem_malloc`. -/
def pbufCoalesce (p : List Pbuf) (layer : PbufLayer)
    (block : Option (RamBlock (layerOffset layer + totLen p))) : Option (List Pbuf × List Pbuf) :=
  match p, block with
  | [], _ => none
  | [p], _ => some ([p], [])
  | p :: q :: qs, block =>
    match pbufAllocRam layer (totLen (p :: q :: qs)) (totLen_lt _) block with
    | none => some (p :: q :: qs, [])
    | some r =>
      -- `LWIP_ASSERT("pbuf_copy failed", err == ERR_OK)`
      (pbufCopy [r] (p :: q :: qs)).bind fun c =>
        (pbufFree (p :: q :: qs)).map fun freed => (c, freed.freed)

variable {p q : Pbuf} {ps qs c pTo pFrom : List Pbuf} {k : Cursors} {d : Region}
  {dataptr : List UInt8} {n len off : ℕ}

theorem Pbuf.writeAt_data (p : Pbuf) (off : ℕ) (l : List UInt8) (h : off + l.length ≤ p.len) :
    (p.writeAt off l h).data = p.data.take off ++ (l ++ p.data.drop (off + l.length)) := by
  have hmem := p.inMem
  have hfront : ((p.mem.drop p.payload).take off).length = off := by
    rw [List.length_take, List.length_drop]
    omega
  have hdrop : (p.writeAt off l h).mem.drop p.payload =
      (p.mem.drop p.payload).take off ++ (l ++ p.mem.drop (p.payload + off + l.length)) := by
    change (p.mem.take (p.payload + off) ++ _).drop p.payload = _
    rw [List.drop_append_of_le_length (by rw [List.length_take]; omega), List.drop_take,
      Nat.add_sub_cancel_left]
  have htake : ∀ r, ((p.mem.drop p.payload).take off ++ (l ++ p.mem.drop (p.payload + off +
      l.length))).take (off + (l.length + r)) = (p.mem.drop p.payload).take off ++
        (l ++ (p.mem.drop (p.payload + off + l.length)).take r) := by
    intro r
    have := @List.take_length_add_append _ ((p.mem.drop p.payload).take off)
      (l ++ p.mem.drop (p.payload + off + l.length)) (l.length + r)
    rwa [hfront, List.take_length_add_append] at this
  have hlen := htake (p.len - (off + l.length))
  rw [show off + (l.length + (p.len - (off + l.length))) = p.len by omega] at hlen
  change ((p.writeAt off l h).mem.drop p.payload).take p.len = _
  rw [hdrop, hlen, Pbuf.data, List.drop_take, List.drop_drop, List.take_take,
    Nat.min_eq_left (by omega), Nat.add_assoc]

/-- All that is fixed when bytes are written to a pbuf: the fields, and the memory in front of the
payload and behind it. -/
def Pbuf.shape (p : Pbuf) :
    (ℕ × ℕ × ℕ × ℕ) × (PbufType × ℕ × ℕ) × (List UInt8 × List UInt8) :=
  ((p.addr, p.payload, p.len, p.totLen), (p.type, p.flags, p.ref),
    (p.mem.take p.payload, p.mem.drop (p.payload + p.len)))

theorem Pbuf.writeAt_shape (p : Pbuf) (off : ℕ) (l : List UInt8) (h : off + l.length ≤ p.len) :
    (p.writeAt off l h).shape = p.shape := by
  have hmem := p.inMem
  have hfront : (p.mem.take (p.payload + off)).length = p.payload + off := by
    rw [List.length_take]
    omega
  refine Prod.ext rfl (Prod.ext rfl (Prod.ext ?_ ?_))
  · change (p.mem.take (p.payload + off) ++ _).take p.payload = p.mem.take p.payload
    rw [List.take_append_of_le_length (by omega), List.take_take, Nat.min_eq_left (by omega)]
  · change (p.mem.take (p.payload + off) ++ _).drop (p.payload + p.len) = p.mem.drop _
    rw [List.drop_append, hfront, List.drop_of_length_le (by omega), List.nil_append,
      List.drop_append, List.drop_of_length_le (by omega), List.nil_append, List.drop_drop]
    congr 1
    omega

theorem len_of_shape (h : p.shape = q.shape) : p.len = q.len ∧ p.totLen = q.totLen :=
  ⟨congrArg (fun s => s.1.2.2.1) h, congrArg (fun s => s.1.2.2.2) h⟩

theorem totLen_of_shape {c c' : List Pbuf} (h : c'.map Pbuf.shape = c.map Pbuf.shape) :
    totLen c' = totLen c := by
  cases c with
  | nil => rw [List.map_eq_nil_iff.mp h]
  | cons p ps =>
    obtain ⟨p', ps', rfl, hp, -⟩ := List.map_eq_cons_iff.mp h
    exact (len_of_shape hp).2

/-! ### What is read from a chain -/

theorem drop_bytes_of_le (ps : List Pbuf) (h : n ≤ p.len) :
    (bytes (p :: ps)).drop n = p.data.drop n ++ bytes ps := by
  rw [bytes_cons, List.drop_append_of_le_length (by rwa [Pbuf.data_length])]

theorem drop_bytes_of_ge (ps : List Pbuf) (h : p.len ≤ n) :
    (bytes (p :: ps)).drop n = (bytes ps).drop (n - p.len) := by
  rw [bytes_cons, List.drop_append, Pbuf.data_length,
    List.drop_of_length_le (by rwa [Pbuf.data_length]), List.nil_append]

/-- The bytes wanted, as the first pbuf has some of them and the rest of the chain the others. -/
theorem take_drop_bytes (ps : List Pbuf) (h : n ≤ p.len) :
    ((bytes (p :: ps)).drop n).take len = (p.data.drop n).take (min (p.len - n) len) ++
      (bytes ps).take (len - min (p.len - n) len) := by
  rw [drop_bytes_of_le ps h, List.take_append, List.length_drop, Pbuf.data_length]
  congr 1
  · by_cases hle : len ≤ p.len - n
    · rw [Nat.min_eq_right hle]
    · rw [Nat.min_eq_left (by omega), List.take_of_length_le, List.take_of_length_le]
      · rw [List.length_drop, Pbuf.data_length]
      · rw [List.length_drop, Pbuf.data_length]
        omega
  · congr 1
    omega

theorem copyPartialLoop_spec (c : List Pbuf) {left : ℕ} (hleft : d.extent = left)
    (hlt : left + len < 2 ^ 16) :
    ∃ d', copyPartialLoop d left left len n c = (d', left + min len ((bytes c).length - n)) ∧
      d'.extent = left + min len ((bytes c).length - n) ∧
      d'.read 0 d'.extent = d.read 0 left ++ ((bytes c).drop n).take len ∧
      ∀ i, d'.extent ≤ i → d'.cells i = d.cells i := by
  induction c generalizing d left len n with
  | nil => exact ⟨d, by simp [copyPartialLoop], by simp [hleft], by simp [hleft], fun _ _ => rfl⟩
  | cons p ps ih =>
    by_cases h0 : len = 0
    · exact ⟨d, by simp [copyPartialLoop, h0], by simp [hleft, h0], by simp [hleft, h0],
        fun _ _ => rfl⟩
    by_cases hskip : n ≠ 0 ∧ p.len ≤ n
    · obtain ⟨d', hrun, hext, hread, hkeep⟩ := ih (n := n - p.len) hleft hlt
      have hlen : (bytes (p :: ps)).length - n = (bytes ps).length - (n - p.len) := by
        rw [bytes_cons, List.length_append, Pbuf.data_length]
        omega
      refine ⟨d', ?_, by rw [hlen, hext], by rw [hread, drop_bytes_of_ge ps hskip.2], hkeep⟩
      rw [copyPartialLoop, if_neg h0, if_pos hskip, hrun, hlen]
    · have hn : n ≤ p.len := by omega
      obtain ⟨m, hm⟩ : ∃ m, min (p.len - n) len = m := ⟨_, rfl⟩
      have hchunk : ((p.data.drop n).take m).length = m := by
        rw [List.length_take, List.length_drop, Pbuf.data_length]
        omega
      have hext := Region.extent_write_append hleft ((p.data.drop n).take m)
      have hread := d.read_write_append left ((p.data.drop n).take m)
      rw [hchunk] at hext hread
      have hu16 : u16 ((left : ℤ) + m) = left + m := by
        simp only [u16, wrapU]
        omega
      obtain ⟨d', hrun, hext', hread', hkeep⟩ :=
        ih (n := 0) hext (show left + m + (len - m) < 2 ^ 16 by omega)
      have hlen : left + m + min (len - m) ((bytes ps).length - 0) =
          left + min len ((bytes (p :: ps)).length - n) := by
        rw [bytes_cons, List.length_append, Pbuf.data_length]
        omega
      refine ⟨d', ?_, by rw [hext', hlen], ?_, fun i hi => ?_⟩
      · rw [copyPartialLoop, if_neg h0, if_neg hskip]
        simp only [hm, hu16]
        rw [hrun, hlen]
      · rw [hread', hread, take_drop_bytes ps hn, hm, List.append_assoc]
        rfl
      · rw [hkeep i hi, Region.write_cells_of_outside (.inr (by omega))]

/-- `pbuf_copy_partial` copies the bytes from `offset` on, up to `len` of them, and writes nothing
behind them. -/
theorem pbufCopyPartial_spec (hne : c ≠ []) (hwf : WellFormed c) (dataptr : ℕ → UInt8)
    (hlen : len < 2 ^ 16) (offset : ℕ) :
    ∃ d, pbufCopyPartial c dataptr len offset = some (d, min len (totLen c - offset)) ∧
      d.extent = min len (totLen c - offset) ∧
      d.read 0 d.extent = ((bytes c).drop offset).take len ∧
      ∀ i, d.extent ≤ i → d.cells i = dataptr i := by
  have hfresh : (Region.fresh dataptr).extent = 0 := rfl
  obtain ⟨d, hrun, hext, hread, hkeep⟩ :=
    copyPartialLoop_spec (n := offset) c hfresh (show 0 + len < 2 ^ 16 by omega)
  rw [Nat.zero_add, hwf.bytes_length] at hrun hext
  cases c with
  | nil => exact absurd rfl hne
  | cons p ps => exact ⟨d, congrArg some hrun, hext, hread, hkeep⟩

/-- The walk to a byte leaves a rest of the chain that has the same bytes from there on. -/
theorem skipTo_spec (n : ℕ) (c : List Pbuf) :
    (bytes (skipTo n c).1).drop (skipTo n c).2 = (bytes c).drop n ∧
      (∀ q ∈ (skipTo n c).1.head?, (skipTo n c).2 < q.len) ∧
      ((skipTo n c).1 = [] ↔ (bytes c).length ≤ n) := by
  induction c generalizing n with
  | nil => simp [skipTo]
  | cons q qs ih =>
    rw [skipTo]
    split
    · next hle =>
      obtain ⟨hdrop, hhead, hnil⟩ := ih (n - q.len)
      rw [drop_bytes_of_ge qs hle, bytes_cons, List.length_append, Pbuf.data_length]
      exact ⟨hdrop, hhead, hnil.trans (by omega)⟩
    · next hlt =>
      refine ⟨rfl, ?_, ?_⟩
      · rintro q ⟨⟩
        omega
      · rw [bytes_cons, List.length_append, Pbuf.data_length]
        exact iff_of_false (List.cons_ne_nil _ _) (by omega)

/-- `pbuf_get_at` is the byte of the chain, or zero behind its end. -/
theorem pbufGetAt_eq (c : List Pbuf) (n : ℕ) : pbufGetAt c n = ((bytes c)[n]?).getD 0 := by
  obtain ⟨hdrop, hhead, hnil⟩ := skipTo_spec n c
  have hbyte : ((bytes c)[n]?).getD 0 = ((bytes (skipTo n c).1)[(skipTo n c).2]?).getD 0 := by
    have := congrArg (fun l : List UInt8 => l[0]?) hdrop
    simp only [List.getElem?_drop, Nat.add_zero] at this
    rw [this]
  rw [pbufGetAt, hbyte]
  cases hs : skipTo n c with
  | mk rest m =>
    rw [hs] at hhead
    cases rest with
    | nil => simp
    | cons q qs =>
      have hlt : m < q.len := hhead q rfl
      simp only [if_pos hlt, bytes_cons]
      rw [List.getElem?_append_left (by rwa [Pbuf.data_length])]

/-! ### What is written into a chain -/

theorem WellFormed.of_shape {c c' : List Pbuf} (hwf : WellFormed c)
    (h : c'.map Pbuf.shape = c.map Pbuf.shape) : WellFormed c' := by
  induction c generalizing c' with
  | nil =>
    rw [List.map_eq_nil_iff.mp h]
    trivial
  | cons p ps ih =>
    obtain ⟨p', ps', rfl, hp, hps⟩ := List.map_eq_cons_iff.mp h
    obtain ⟨hlen, htot⟩ := len_of_shape hp
    refine ⟨?_, ih hwf.2 hps⟩
    rw [htot, hlen, totLen_of_shape hps]
    exact hwf.1

/-- `total` bytes are left to copy, from `copied` on. -/
theorem takeLoop_spec (c : List Pbuf) {total copied : ℕ} (htotal : total ≤ (bytes c).length)
    (hlen : copied + total = len) (hdata : len ≤ dataptr.length) (hlt : len < 2 ^ 16) :
    ∃ c', takeLoop dataptr len total copied c = some c' ∧ c'.map Pbuf.shape = c.map Pbuf.shape ∧
      bytes c' = (dataptr.drop copied).take total ++ (bytes c).drop total := by
  induction c generalizing total copied with
  | nil =>
    obtain rfl : total = 0 := Nat.le_zero.mp htotal
    exact ⟨[], by simp [takeLoop, ← hlen], rfl, by simp⟩
  | cons p ps ih =>
    by_cases h0 : total = 0
    · exact ⟨p :: ps, by simp [takeLoop, h0, ← hlen], rfl, by simp [h0]⟩
    obtain ⟨m, hm⟩ : ∃ m, min total p.len = m := ⟨_, rfl⟩
    have hu16 : u16 ((copied : ℤ) + m) = copied + m := by
      simp only [u16, wrapU]
      omega
    rw [bytes_cons, List.length_append, Pbuf.data_length] at htotal
    obtain ⟨ps', hrun, hshape, hbytes⟩ :=
      ih (show total - m ≤ (bytes ps).length by omega) (show copied + m + (total - m) = len by omega)
    have hchunk : ((dataptr.drop copied).take m).length = m := by
      rw [List.length_take, List.length_drop]
      omega
    have hroom : 0 + ((dataptr.drop copied).take m).length ≤ p.len := by omega
    refine ⟨p.writeAt 0 ((dataptr.drop copied).take m) hroom :: ps', ?_, ?_, ?_⟩
    · simp only [takeLoop, if_neg h0, hm, hu16, hrun, Option.map_some]
    · rw [List.map_cons, List.map_cons, hshape, Pbuf.writeAt_shape]
    · have hsplit : (dataptr.drop copied).take total =
          (dataptr.drop copied).take m ++ (dataptr.drop (copied + m)).take (total - m) := by
        rw [← List.drop_drop, ← List.take_add, Nat.add_sub_cancel' (by omega)]
      have hrest : (bytes (p :: ps)).drop total = p.data.drop m ++ (bytes ps).drop (total - m) := by
        rw [bytes_cons, List.drop_append, Pbuf.data_length]
        by_cases hle : total ≤ p.len
        · rw [← hm, Nat.min_eq_left hle, Nat.sub_self, Nat.sub_eq_zero_of_le hle]
        · have hall : p.data.drop total = [] := List.drop_of_length_le (by rw [Pbuf.data_length]; omega)
          have hwhole : p.data.drop p.len = [] := List.drop_of_length_le (by rw [Pbuf.data_length])
          rw [← hm, Nat.min_eq_right (by omega), hall, hwhole]
      rw [bytes_cons, Pbuf.writeAt_data, hbytes, hsplit, hrest, hchunk]
      by_cases hle : total ≤ p.len
      · have hzero : total - m = 0 := by omega
        simp [hzero]
      · have hall : p.data.drop m = [] := List.drop_of_length_le (by rw [Pbuf.data_length]; omega)
        simp [hall]

/-- `pbuf_take` replaces the first `len` bytes of a chain that has them. -/
theorem pbufTake_spec (hne : c ≠ []) (hwf : WellFormed c) (hlen : len ≤ totLen c)
    (hdata : len ≤ dataptr.length) :
    ∃ c', pbufTake c dataptr len = some (.ok, c') ∧ c'.map Pbuf.shape = c.map Pbuf.shape ∧
      bytes c' = dataptr.take len ++ (bytes c).drop len := by
  have hlt := totLen_lt c
  obtain ⟨c', hrun, hshape, hbytes⟩ := takeLoop_spec c
    (show len ≤ (bytes c).length by rwa [hwf.bytes_length]) (Nat.zero_add len) hdata (by omega)
  refine ⟨c', ?_, hshape, hbytes⟩
  cases c with
  | nil => exact absurd rfl hne
  | cons p ps =>
    rw [pbufTake, if_neg (show ¬ p.totLen < len from not_lt.mpr hlen), hrun]
    rfl

/-! ### From chain to chain -/

/-- One packet, not a packet queue: no pbuf but the last one ends a packet. -/
def OnePacket : List Pbuf → Prop
  | [] => True
  | p :: ps => (ps ≠ [] → p.len ≠ p.totLen) ∧ OnePacket ps

theorem OnePacket.not_isQueue (h : OnePacket c) : isQueue c = false := by
  match c with
  | [] | [_] => rfl
  | _ :: _ :: _ => exact decide_eq_false (h.1 (List.cons_ne_nil _ _))

/-- Where the cursors are after `m` bytes. -/
structure Copied (dst src : List Pbuf) (m : ℕ) (k : Cursors) : Prop where
  le : m ≤ (bytes src).length
  rest : (bytes k.pFrom).drop k.offsetFrom = (bytes src).drop m
  front : bytes k.done ++ (bytes k.pTo).take k.offsetTo = (bytes src).take m
  back : (bytes k.pTo).drop k.offsetTo = (bytes dst).drop m
  shape : (k.done ++ k.pTo).map Pbuf.shape = dst.map Pbuf.shape
  wfFrom : WellFormed k.pFrom
  one : OnePacket dst ∧ OnePacket src → OnePacket k.pTo ∧ OnePacket k.pFrom
  offsetTo : ∀ p ∈ k.pTo.head?, k.offsetTo ≤ p.len
  offsetFrom : ∀ q ∈ k.pFrom.head?, k.offsetFrom ≤ q.len
  target : k.pFrom ≠ [] → k.pTo ≠ []

/-- The source cursor moves on to the next pbuf when this one is read up. -/
theorem source_step {off : ℕ} {f : List Pbuf × ℕ} (hle : off ≤ q.len)
    (hf : (if q.len ≤ off then (qs, 0) else (q :: qs, off)) = f) :
    (bytes f.1).drop f.2 = (bytes (q :: qs)).drop off ∧ (WellFormed (q :: qs) → WellFormed f.1) ∧
      (OnePacket (q :: qs) → OnePacket f.1) ∧ (∀ r ∈ f.1.head?, f.2 ≤ r.len) := by
  split at hf
  · subst hf
    have hend : off = q.len := by omega
    refine ⟨?_, And.right, And.right, fun _ _ => Nat.zero_le _⟩
    rw [drop_bytes_of_ge qs (le_of_eq hend.symm), hend, Nat.sub_self]
  · subst hf
    refine ⟨rfl, id, id, ?_⟩
    rintro r ⟨⟩
    exact hle

/-- A source of one packet with pbufs left has bytes left. -/
theorem source_left {off : ℕ} {f : List Pbuf × ℕ} (hwf : WellFormed (q :: qs))
    (hone : OnePacket (q :: qs)) (hf : (if q.len ≤ off then (qs, 0) else (q :: qs, off)) = f)
    (hne : f.1 ≠ []) : (bytes f.1).drop f.2 ≠ [] := by
  intro hempty
  split at hf
  · subst hf
    have hnone : (bytes qs).length = 0 := by rw [List.drop_zero] at hempty; rw [hempty]; rfl
    have htot := hwf.1
    rw [← hwf.2.bytes_length, hnone, Nat.add_zero] at htot
    exact hone.1 hne htot.symm
  · subst hf
    have := List.drop_eq_nil_iff.mp hempty
    rw [bytes_cons, List.length_append, Pbuf.data_length] at this
    omega

/-- The target cursor moves on when this pbuf is full. -/
theorem target_step {done : List Pbuf} {off : ℕ} {t : List Pbuf × List Pbuf × ℕ} (hle : off ≤ p.len)
    (ht : (if off = p.len then (done ++ [p], ps, 0) else (done, p :: ps, off)) = t) :
    (bytes t.2.1).drop t.2.2 = (bytes (p :: ps)).drop off ∧
      bytes t.1 ++ (bytes t.2.1).take t.2.2 = bytes done ++ (bytes (p :: ps)).take off ∧
      t.1 ++ t.2.1 = done ++ p :: ps ∧ (OnePacket (p :: ps) → OnePacket t.2.1) ∧
      (∀ r ∈ t.2.1.head?, t.2.2 ≤ r.len) := by
  split at ht
  · next hfull =>
    subst ht
    have hdata : (bytes (p :: ps)).take off = p.data := by
      rw [bytes_cons, List.take_left' (by rw [Pbuf.data_length, hfull])]
    refine ⟨?_, ?_, by simp, And.right, fun _ _ => Nat.zero_le _⟩
    · rw [drop_bytes_of_ge ps (le_of_eq hfull.symm), hfull, Nat.sub_self]
    · rw [hdata, bytes_append, bytes_cons, List.take_zero]
      simp [bytes]
  · subst ht
    refine ⟨rfl, rfl, rfl, id, ?_⟩
    rintro r ⟨⟩
    exact hle

/-- What is written stands behind what was there before, and the rest is kept. -/
theorem bytes_writeAt (ps : List Pbuf) (off : ℕ) (l : List UInt8) (h : off + l.length ≤ p.len) :
    (bytes (p.writeAt off l h :: ps)).take (off + l.length) = (bytes (p :: ps)).take off ++ l ∧
      (bytes (p.writeAt off l h :: ps)).drop (off + l.length) =
        (bytes (p :: ps)).drop (off + l.length) := by
  have hdata := p.data_length
  have hbytes : bytes (p.writeAt off l h :: ps) =
      ((bytes (p :: ps)).take off ++ l) ++ (bytes (p :: ps)).drop (off + l.length) := by
    rw [bytes_cons, bytes_cons, Pbuf.writeAt_data, List.take_append_of_le_length (by omega),
      List.drop_append_of_le_length (by omega)]
    simp only [List.append_assoc]
  have hlen : ((bytes (p :: ps)).take off ++ l).length = off + l.length := by
    rw [List.length_append, List.length_take, bytes_cons, List.length_append, hdata]
    omega
  rw [hbytes]
  exact ⟨List.take_left' hlen, List.drop_left' hlen⟩

/-- How much a turn copies, with the cursors as they move on. One of the two pbufs is used up. -/
theorem copyBody_eq (done ps qs : List Pbuf) {offTo offFrom : ℕ} (hto : offTo ≤ p.len)
    (hfrom : offFrom ≤ q.len) :
    ∃ (len : ℕ) (h : offTo + ((q.data.drop offFrom).take len).length ≤ p.len),
      offTo + len ≤ p.len ∧ offFrom + len ≤ q.len ∧ (offTo + len = p.len ∨ q.len ≤ offFrom + len) ∧
      ∀ {p' f t}, p.writeAt offTo ((q.data.drop offFrom).take len) h = p' →
        (if q.len ≤ offFrom + len then (qs, 0) else (q :: qs, offFrom + len)) = f →
        (if offTo + len = p'.len then (done ++ [p'], ps, 0) else (done, p' :: ps, offTo + len)) = t →
        copyBody ⟨done, p :: ps, offTo, q :: qs, offFrom⟩ =
          if t.2.1 = [] ∧ f.1 ≠ [] then none
          else if isQueue f.1 ∨ isQueue t.2.1 then none else some ⟨t.1, t.2.1, t.2.2, f.1, f.2⟩ := by
  obtain ⟨len, hlen⟩ : ∃ len, (if q.len - offFrom ≤ p.len - offTo then q.len - offFrom
      else p.len - offTo) = len := ⟨_, rfl⟩
  have hfit : offTo + len ≤ p.len ∧ offFrom + len ≤ q.len := by
    split at hlen <;> omega
  have hused : offTo + len = p.len ∨ q.len ≤ offFrom + len := by
    split at hlen <;> omega
  have hroom : offTo + ((q.data.drop offFrom).take len).length ≤ p.len := by
    rw [List.length_take]
    omega
  refine ⟨len, hroom, hfit.1, hfit.2, hused, ?_⟩
  rintro _ _ _ rfl rfl rfl
  simp only [copyBody, hlen, dif_pos hfit]
  rfl

/-- A turn has done with one of the two pbufs. -/
theorem cursors_less {done : List Pbuf} {offTo offFrom : ℕ} {f : List Pbuf × ℕ}
    {t : List Pbuf × List Pbuf × ℕ} (hused : offTo = p.len ∨ q.len ≤ offFrom)
    (hf : (if q.len ≤ offFrom then (qs, 0) else (q :: qs, offFrom)) = f)
    (ht : (if offTo = p.len then (done ++ [p], ps, 0) else (done, p :: ps, offTo)) = t) :
    t.2.1.length + f.1.length < (p :: ps).length + (q :: qs).length := by
  subst hf ht
  simp only [List.length_cons]
  rcases hused with hfull | hread
  · rw [if_pos hfull]
    split <;> simp only [List.length_cons] <;> omega
  · rw [if_pos hread]
    split <;> simp only [List.length_cons] <;> omega

/-- Where the cursors are after a turn that copies `len` bytes. -/
theorem Copied.turn {dst src done : List Pbuf} {m len offTo offFrom : ℕ} {p' : Pbuf} {f : List Pbuf × ℕ}
    {t : List Pbuf × List Pbuf × ℕ} (hk : Copied dst src m ⟨done, p :: ps, offTo, q :: qs, offFrom⟩)
    (hto : offTo + len ≤ p.len) (hfrom : offFrom + len ≤ q.len)
    (hroom : offTo + ((q.data.drop offFrom).take len).length ≤ p.len)
    (hp' : p.writeAt offTo ((q.data.drop offFrom).take len) hroom = p')
    (hf : (if q.len ≤ offFrom + len then (qs, 0) else (q :: qs, offFrom + len)) = f)
    (ht : (if offTo + len = p'.len then (done ++ [p'], ps, 0) else (done, p' :: ps, offTo + len)) = t) :
    (bytes f.1).drop f.2 = (bytes src).drop (m + len) ∧
      (bytes t.2.1).drop t.2.2 = (bytes dst).drop (m + len) ∧
      ((f.1 ≠ [] → t.2.1 ≠ []) → Copied dst src (m + len) ⟨t.1, t.2.1, t.2.2, f.1, f.2⟩) := by
  obtain ⟨hle, hrest, hfront, hback, hshape, hwf, hone, -, hoFrom, -⟩ := hk
  simp only at hrest hfront hback hshape hwf hone hoFrom
  have hpshape : p'.shape = p.shape := by rw [← hp', Pbuf.writeAt_shape]
  obtain ⟨hplen, hptot⟩ := len_of_shape hpshape
  -- the bytes that are copied, in the source and in the target
  have hchunkLen : ((q.data.drop offFrom).take len).length = len := by
    rw [List.length_take, List.length_drop, Pbuf.data_length]
    omega
  have hchunkSrc : ((bytes src).drop m).take len = (q.data.drop offFrom).take len := by
    rw [← hrest, drop_bytes_of_le qs (hoFrom q rfl), List.take_append_of_le_length]
    rw [List.length_drop, Pbuf.data_length]
    omega
  have hcopied := congrArg List.length hchunkSrc
  rw [List.length_take, List.length_drop, hchunkLen] at hcopied
  obtain ⟨hwTake, hwDrop⟩ := bytes_writeAt ps offTo _ hroom
  rw [hp', hchunkLen] at hwTake hwDrop
  obtain ⟨hfBytes, hfWf, hfOne, hfOff⟩ := source_step hfrom hf
  obtain ⟨htDrop, htTake, htAll, htOne, htOff⟩ := target_step (hplen.symm ▸ hto) ht
  have hrest' : (bytes f.1).drop f.2 = (bytes src).drop (m + len) := by
    rw [hfBytes, ← List.drop_drop, hrest, List.drop_drop]
  have hback' : (bytes t.2.1).drop t.2.2 = (bytes dst).drop (m + len) := by
    rw [htDrop, hwDrop, ← List.drop_drop, hback, List.drop_drop]
  refine ⟨hrest', hback', fun htarget => ⟨by omega, hrest', ?_, hback', ?_, hfWf hwf, fun ho => ?_, htOff,
    hfOff, htarget⟩⟩
  · rw [htTake, hwTake, ← List.append_assoc, hfront, ← hchunkSrc, List.take_add]
  · rw [htAll, ← hshape, List.map_append, List.map_append, List.map_cons, List.map_cons, hpshape]
  · obtain ⟨hpOne, hqOne⟩ := hone ho
    refine ⟨htOne ⟨?_, hpOne.2⟩, hfOne hqOne⟩
    rw [hplen, hptot]
    exact hpOne.1

/-- One turn of the loop. A guard stops it only when one of the chains is a packet queue. -/
theorem copyBody_spec {dst src : List Pbuf} {m : ℕ} (hk : Copied dst src m k) (hne : k.pFrom ≠ [])
    (hroom : (bytes src).length ≤ (bytes dst).length) :
    (copyBody k = none ∧ ¬ (OnePacket dst ∧ OnePacket src)) ∨
      ∃ m' k', copyBody k = some k' ∧ Copied dst src m' k' ∧
        k'.pTo.length + k'.pFrom.length < k.pTo.length + k.pFrom.length := by
  obtain ⟨done, pTo, offsetTo, pFrom, offsetFrom⟩ := k
  obtain ⟨q, qs, rfl⟩ := List.exists_cons_of_ne_nil hne
  obtain ⟨p, ps, rfl⟩ := List.exists_cons_of_ne_nil (hk.target hne)
  obtain ⟨len, hchunk, hto, hfrom, hused, hbody⟩ :=
    copyBody_eq done ps qs (hk.offsetTo p rfl) (hk.offsetFrom q rfl)
  obtain ⟨p', hp'⟩ : ∃ p', p.writeAt offsetTo _ hchunk = p' := ⟨_, rfl⟩
  obtain ⟨f, hf⟩ : ∃ f, (if q.len ≤ offsetFrom + len then (qs, 0)
      else (q :: qs, offsetFrom + len)) = f := ⟨_, rfl⟩
  obtain ⟨t, ht⟩ : ∃ t, (if offsetTo + len = p'.len then (done ++ [p'], ps, 0)
      else (done, p' :: ps, offsetTo + len)) = t := ⟨_, rfl⟩
  obtain ⟨hrest, hback, hmoved⟩ := hk.turn hto hfrom hchunk hp' hf ht
  rw [hbody hp' hf ht]
  split
  · next hover =>
    -- the target has no bytes left, and so the source has none
    refine .inl ⟨rfl, fun ho => source_left hk.wfFrom (hk.one ho).2 hf hover.2 ?_⟩
    rw [hover.1] at hback
    have hdst : (bytes dst).length ≤ m + len := List.drop_eq_nil_iff.mp (hback ▸ List.drop_nil)
    rw [hrest, List.drop_of_length_le (by omega)]
  · next hleft =>
    have hk' := hmoved fun h hnil => hleft ⟨hnil, h⟩
    split
    · next hqueue =>
      refine .inl ⟨rfl, fun ho => ?_⟩
      obtain ⟨hone, hone'⟩ := hk'.one ho
      rw [hone.not_isQueue, hone'.not_isQueue] at hqueue
      exact hqueue.elim Bool.false_ne_true Bool.false_ne_true
    · have hplen : p'.len = p.len := by
        rw [← hp']
        exact (len_of_shape (Pbuf.writeAt_shape ..)).1
      have hless := cursors_less (hplen.symm ▸ hused) hf ht
      exact .inr ⟨m + len, _, rfl, hk', hless⟩

/-- The bytes of the target when the source is read to its end. -/
theorem copyLoop_spec {dst src : List Pbuf} (fuel : ℕ) {m : ℕ} (hk : Copied dst src m k)
    (hne : k.pFrom ≠ []) (hroom : (bytes src).length ≤ (bytes dst).length)
    (hfuel : k.pTo.length + k.pFrom.length ≤ fuel) :
    (copyLoop fuel k = none ∧ ¬ (OnePacket dst ∧ OnePacket src)) ∨
      ∃ k', copyLoop fuel k = some k' ∧ Copied dst src (bytes src).length k' := by
  induction fuel generalizing m k with
  | zero =>
    have := List.length_pos_of_ne_nil hne
    omega
  | succ fuel ih =>
    rw [copyLoop]
    rcases copyBody_spec hk hne hroom with ⟨hnone, hqueue⟩ | ⟨m', k', hstep, hk', hless⟩
    · exact .inl ⟨by rw [hnone]; rfl, hqueue⟩
    rw [hstep, Option.bind_some]
    by_cases hend : k'.pFrom = []
    · rw [if_pos hend]
      have hall : m' = (bytes src).length := by
        have hrest := hk'.rest
        rw [hend] at hrest
        have := List.drop_eq_nil_iff.mp (show (bytes src).drop m' = [] by rw [← hrest]; simp [bytes])
        exact le_antisymm hk'.le this
      exact .inr ⟨k', rfl, hall ▸ hk'⟩
    · rw [if_neg hend]
      exact ih hk' hend (by omega)

/-- `pbuf_copy` either leaves the target with the bytes of the source in front, or stops at a guard
because one of the chains is a packet queue. -/
theorem pbufCopy_spec (hto : WellFormed pTo) (hfrom : WellFormed pFrom) (hne : pFrom ≠ [])
    (hroom : totLen pFrom ≤ totLen pTo) (htarget : pTo ≠ []) :
    (pbufCopy pTo pFrom = none ∧ ¬ (OnePacket pTo ∧ OnePacket pFrom)) ∨
      ∃ c, pbufCopy pTo pFrom = some c ∧ c.map Pbuf.shape = pTo.map Pbuf.shape ∧
        bytes c = bytes pFrom ++ (bytes pTo).drop (totLen pFrom) := by
  have hguard : ¬ (pTo = [] ∨ pFrom = [] ∨ totLen pTo < totLen pFrom) := by
    rintro (h | h | h)
    · exact htarget h
    · exact hne h
    · omega
  have hstart : Copied pTo pFrom 0 ⟨[], pTo, 0, pFrom, 0⟩ :=
    ⟨Nat.zero_le _, rfl, by simp [bytes], rfl, rfl, hfrom, id, fun _ _ => Nat.zero_le _,
      fun _ _ => Nat.zero_le _, fun _ => htarget⟩
  rw [← hto.bytes_length, ← hfrom.bytes_length] at hroom
  rw [pbufCopy, if_neg hguard]
  rcases copyLoop_spec _ hstart hne hroom le_rfl with ⟨hnone, hqueue⟩ | ⟨k', hrun, hk'⟩
  · exact .inl ⟨by rw [hnone]; rfl, hqueue⟩
  refine .inr ⟨k'.done ++ k'.pTo, by rw [hrun]; rfl, hk'.shape, ?_⟩
  have hsplit : bytes k'.pTo = (bytes k'.pTo).take k'.offsetTo ++ (bytes k'.pTo).drop k'.offsetTo :=
    (List.take_append_drop _ _).symm
  rw [bytes_append, hsplit, ← List.append_assoc, hk'.front, hk'.back, List.take_length,
    hfrom.bytes_length]

/-- A target of one pbuf is full before the end of a packet queue. -/
theorem copyLoop_queue {r : Pbuf} (fuel : ℕ) (hwf : WellFormed c) (hqueue : ¬ OnePacket c)
    (hpos : 0 < totLen c) (hroom : off + totLen c = r.len) :
    copyLoop fuel ⟨[], [r], off, c, 0⟩ = none := by
  induction c generalizing r off fuel with
  | nil => exact absurd trivial hqueue
  | cons q qs ih =>
    cases fuel with
    | zero => rfl
    | succ fuel =>
      have hsum : q.totLen = q.len + totLen qs := hwf.1
      have hroom' : off + q.totLen = r.len := hroom
      obtain ⟨len, hchunk, hto, hfrom, hused, hbody⟩ :=
        copyBody_eq (p := r) [] [] qs (show off ≤ r.len by omega) (Nat.zero_le q.len)
      obtain rfl : len = q.len := by omega
      obtain ⟨p', hp'⟩ : ∃ p', r.writeAt off _ hchunk = p' := ⟨_, rfl⟩
      have hplen : p'.len = r.len := by
        rw [← hp']
        exact (len_of_shape (Pbuf.writeAt_shape ..)).1
      rw [copyLoop, hbody hp' (if_pos (by omega)) rfl]
      by_cases hfull : off + q.len = p'.len
      · have hne : qs ≠ [] := by
          rintro rfl
          exact hqueue ⟨fun h => absurd rfl h, trivial⟩
        rw [if_pos hfull, if_pos ⟨rfl, hne⟩]
        rfl
      · have hqs : 0 < totLen qs := by omega
        have hne : qs ≠ [] := by
          rintro rfl
          exact absurd hqs (by decide)
        rw [if_neg hfull, if_neg fun h => List.cons_ne_nil _ _ h.1]
        split
        · rfl
        · rw [Option.bind_some, if_neg hne]
          have hrest : ¬ OnePacket qs := fun h => hqueue ⟨fun _ => by omega, h⟩
          exact ih fuel hwf.2 hrest hqs (show off + q.len + totLen qs = p'.len by omega)

/-- `pbuf_copy` to one pbuf of the same length. -/
theorem pbufCopy_one {r : Pbuf} (hr : r.totLen = r.len) (hlen : r.len = totLen c) (hwf : WellFormed c)
    (hpos : 0 < totLen c) :
    (pbufCopy [r] c = none ∧ ¬ OnePacket c) ∨
      OnePacket c ∧ ∃ r', pbufCopy [r] c = some [r'] ∧ r'.shape = r.shape ∧ bytes [r'] = bytes c := by
  have hne : c ≠ [] := by
    rintro rfl
    exact absurd hpos (by decide)
  have hrwf : WellFormed [r] := ⟨hr, trivial⟩
  have hrone : OnePacket [r] := ⟨fun h => absurd rfl h, trivial⟩
  by_cases hone : OnePacket c
  · obtain ⟨-, hqueue⟩ | ⟨c', hcopy, hshape, hbytes⟩ :=
      pbufCopy_spec hrwf hwf hne (show totLen c ≤ r.totLen by omega) (List.cons_ne_nil r [])
    · exact absurd ⟨hrone, hone⟩ hqueue
    · obtain ⟨r', qs, rfl, hr', hqs⟩ := List.map_eq_cons_iff.mp hshape
      rw [List.map_eq_nil_iff.mp hqs] at hcopy hbytes
      have hnone : (bytes [r]).drop (totLen c) = [] := by
        refine List.drop_of_length_le ?_
        rw [hrwf.bytes_length]
        exact (hr.trans hlen).le
      rw [hnone, List.append_nil] at hbytes
      exact .inr ⟨hone, r', hcopy, hr', hbytes⟩
  · refine .inl ⟨?_, hone⟩
    rw [pbufCopy]
    split
    · rfl
    · rw [copyLoop_queue _ hwf hone hpos (by omega)]
      rfl

/-- `pbuf_coalesce` returns one pbuf with the bytes of a packet when it gets the memory for it, and
otherwise the chain as it is. -/
theorem pbufCoalesce_spec (hne : c ≠ []) (hwf : WellFormed c) (href : Referenced c)
    (hone : OnePacket c) (layer : PbufLayer)
    (block : Option (RamBlock (layerOffset layer + totLen c))) :
    ∃ c' freed, pbufCoalesce c layer block = some (c', freed) ∧ WellFormed c' ∧
      bytes c' = bytes c ∧ (block.isSome → c'.length = 1) ∧ (block = none → c' = c) := by
  match c with
  | [p] => exact ⟨[p], [], rfl, hwf, rfl, fun _ => rfl, fun _ => rfl⟩
  | p :: q :: qs =>
    cases block with
    | none =>
      exact ⟨p :: q :: qs, [], rfl, hwf, rfl, (nomatch ·), fun _ => rfl⟩
    | some b =>
      have hlt := totLen_lt (p :: q :: qs)
      obtain ⟨r, hr⟩ : ∃ r, ramPbuf layer (totLen (p :: q :: qs)) hlt b = r := ⟨_, rfl⟩
      have hlens : r.len = totLen (p :: q :: qs) ∧ r.totLen = totLen (p :: q :: qs) := by
        rw [← hr]
        exact ⟨rfl, rfl⟩
      have hrwf : WellFormed [r] := ⟨by rw [hlens.1, hlens.2]; rfl, trivial⟩
      have hrone : OnePacket [r] := ⟨fun h => absurd rfl h, trivial⟩
      have hroom : totLen (p :: q :: qs) ≤ totLen [r] := le_of_eq hlens.2.symm
      obtain ⟨-, hqueue⟩ | ⟨c', hcopy, hshape, hbytes⟩ :=
        pbufCopy_spec hrwf hwf hne hroom (List.cons_ne_nil r [])
      · exact absurd ⟨hrone, hone⟩ hqueue
      obtain ⟨freed, hfree, -⟩ := freeLoop_spec hwf href 0
      have hfree : pbufFree (p :: q :: qs) = some freed := hfree
      have hend : (bytes [r]).drop (totLen (p :: q :: qs)) = [] :=
        List.drop_of_length_le (by rw [hrwf.bytes_length]; exact le_of_eq hlens.2)
      refine ⟨c', freed.freed, ?_, hrwf.of_shape hshape, by rw [hbytes, hend, List.append_nil],
        fun _ => ?_, (nomatch ·)⟩
      · simp only [pbufCoalesce, pbufAllocRam, Option.map_some, hr, hcopy, hfree, Option.bind_some]
      · simpa using congrArg List.length hshape

/-- The copying functions on the bytes of a chain. `pbuf_copy` refuses packet queues and copies whole
what it accepts. -/
theorem chain_copying (hne : c ≠ []) (hwf : WellFormed c) :
    (∀ (dataptr : ℕ → UInt8) (len offset : ℕ), len < 2 ^ 16 → offset < 2 ^ 16 →
      ∃ d, pbufCopyPartial c dataptr len offset = some (d, (((bytes c).drop offset).take len).length) ∧
        d.read 0 (((bytes c).drop offset).take len).length = ((bytes c).drop offset).take len ∧
        ∀ i, (((bytes c).drop offset).take len).length ≤ i → d.cells i = dataptr i) ∧
    (∀ (dataptr : List UInt8) (len : ℕ), len ≤ totLen c → len ≤ dataptr.length →
      ∃ c', pbufTake c dataptr len = some (.ok, c') ∧ c'.map Pbuf.shape = c.map Pbuf.shape ∧
        bytes c' = dataptr.take len ++ (bytes c).drop len) ∧
    (∀ i < totLen c, (bytes c)[i]? = some (pbufGetAt c i)) ∧
    (∀ pTo, pTo ≠ [] → WellFormed pTo → totLen c ≤ totLen pTo →
      (pbufCopy pTo c = none ∧ ¬ (OnePacket pTo ∧ OnePacket c)) ∨
        ∃ c', pbufCopy pTo c = some c' ∧ c'.map Pbuf.shape = pTo.map Pbuf.shape ∧
          bytes c' = bytes c ++ (bytes pTo).drop (totLen c)) ∧
    (OnePacket c → Referenced c →
      ∀ layer (block : Option (RamBlock (layerOffset layer + totLen c))),
        ∃ c' freed, pbufCoalesce c layer block = some (c', freed) ∧ WellFormed c' ∧
          bytes c' = bytes c ∧ (block.isSome → c'.length = 1) ∧ (block = none → c' = c)) := by
  refine ⟨fun dataptr len offset hlen _ => ?_, fun dataptr len hlen hdata => ?_, fun i hi => ?_,
    fun pTo hto htoWf hroom => ?_, fun hone href layer block => ?_⟩
  · obtain ⟨d, hrun, hext, hread, hkeep⟩ := pbufCopyPartial_spec hne hwf dataptr hlen offset
    have hcount : (((bytes c).drop offset).take len).length = d.extent := by
      rw [← hread, Region.read_length]
    rw [← hext] at hrun
    rw [hcount]
    exact ⟨d, hrun, hread, hkeep⟩
  · exact pbufTake_spec hne hwf hlen hdata
  · have hlt : i < (bytes c).length := hwf.bytes_length.symm ▸ hi
    rw [pbufGetAt_eq, List.getElem?_eq_getElem hlt, Option.getD_some]
  · exact pbufCopy_spec htoWf hwf hne hroom hto
  · exact pbufCoalesce_spec hne hwf href hone layer block

/-- A pbuf over the bytes, with `rest` bytes in the pbufs behind it. -/
def romPbuf (addr : ℕ) (data : List UInt8) (rest : ℕ) (hlen : data.length + rest < 2 ^ 16) : Pbuf where
  addr := addr
  mem := data
  payload := 0
  totLen := data.length + rest
  len := data.length
  type := .rom
  flags := 0
  ref := 1
  inMem := wholeData_inMem data
  lenLt := by omega
  totLt := hlen
  refLt := oneRef_lt

/-- A pbuf of five bytes. -/
def fiveBytes : Pbuf := romPbuf 0 [1, 2, 3, 4, 5] 0 (by decide)

/-- An empty pbuf. -/
def noBytes : Pbuf := romPbuf 1 [] 0 (by decide)

/-- Behind five bytes and an empty pbuf the target of five bytes is at its end before the source. -/
theorem pbufCopy_empty_tail : ¬ ∀ pTo pFrom : List Pbuf, pTo ≠ [] → pFrom ≠ [] → WellFormed pTo →
    WellFormed pFrom → totLen pFrom ≤ totLen pTo → ∃ c, pbufCopy pTo pFrom = some c ∧
      (bytes c).take (totLen pFrom) = bytes pFrom := by
  intro h
  obtain ⟨c, hc, -⟩ := h [fiveBytes] [fiveBytes, noBytes] (by decide) (by decide) (by decide)
    (by decide) (by decide)
  have hnone : pbufCopy [fiveBytes] [fiveBytes, noBytes] = none := by decide
  rw [hnone] at hc
  cases hc

/-- Five bytes, the first three of them in a pbuf of their own. -/
theorem chain_copying_split :
    (∃ c, pbufTake [romPbuf 0 [1, 2, 3] 2 (by decide), romPbuf 1 [4, 5] 0 (by decide)]
      [7, 8, 9, 10] 4 = some (.ok, c) ∧ bytes c = [7, 8, 9, 10, 5]) ∧
    ∃ c, pbufCopy [fiveBytes] [romPbuf 0 [1, 2, 3] 2 (by decide), romPbuf 1 [4, 5] 0 (by decide)] =
      some c ∧ bytes c = [1, 2, 3, 4, 5] := by
  obtain ⟨-, htake, -, hcopy, -⟩ :=
    chain_copying (c := [romPbuf 0 [1, 2, 3] 2 (by decide), romPbuf 1 [4, 5] 0 (by decide)])
      (by decide) (by decide)
  obtain ⟨c, hc, -, hbytes⟩ := htake [7, 8, 9, 10] 4 (by decide) (by decide)
  obtain ⟨-, hqueue⟩ | ⟨c', hc', -, hbytes'⟩ :=
    hcopy [fiveBytes] (by decide) (by decide) (by decide)
  · refine absurd ⟨⟨fun h => absurd rfl h, trivial⟩, ⟨fun _ => ?_, fun h => absurd rfl h, trivial⟩⟩
      hqueue
    decide
  · exact ⟨⟨c, hc, hbytes⟩, c', hc', hbytes'⟩

end QuietLwip.Buffers
