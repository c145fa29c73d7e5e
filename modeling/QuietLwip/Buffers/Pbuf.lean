import QuietLwip.Foundation.Word

/-!
# Packet buffers

A `Pbuf` is the `struct pbuf` of `pbuf.h` together with the memory its payload
pointer points into: for `PBUF_RAM` and `PBUF_POOL` the block behind the struct,
for `PBUF_ROM` and `PBUF_REF` the region referred to. `payload` is the offset of
the payload pointer in that memory. The `next` pointers are the list structure:
a chain is a list of pbufs, and a loop over `next` is a recursion on the list.

Functions that can run into an `LWIP_ASSERT` or `LWIP_ERROR`, both of which abort
the process in this build, return `none` there.
-/

namespace QuietLwip.Buffers

open QuietLwip.Word

/-! ### Configuration (`opt.h`, with an empty `lwipopts.h`) -/

def ETH_PAD_SIZE : ℕ := 0
def PBUF_LINK_HLEN : ℕ := 14 + ETH_PAD_SIZE
def PBUF_IP_HLEN : ℕ := 20
def PBUF_TRANSPORT_HLEN : ℕ := 20
def TCP_MSS : ℕ := 1024
/-- `LWIP_MEM_ALIGN_SIZE` is the identity at `MEM_ALIGNMENT` 1. -/
def PBUF_POOL_BUFSIZE_ALIGNED : ℕ := TCP_MSS + 40 + PBUF_LINK_HLEN

inductive PbufLayer where
  | transport | ip | link | raw
  deriving DecidableEq, Repr

inductive PbufType where
  | ram | rom | ref | pool
  deriving DecidableEq, Repr

/-- A pbuf whose `len` payload bytes lie inside its memory. -/
@[ext]
structure Pbuf where
  /-- address of the struct, its identity -/
  addr : ℕ
  mem : List UInt8
  payload : ℕ
  totLen : ℕ
  len : ℕ
  type : PbufType
  flags : ℕ
  ref : ℕ
  inMem : payload + len ≤ mem.length
  lenLt : len < 2 ^ 16
  totLt : totLen < 2 ^ 16
  refLt : ref < 2 ^ 16
  deriving DecidableEq

/-- The payload bytes of one pbuf. -/
def Pbuf.data (p : Pbuf) : List UInt8 := (p.mem.drop p.payload).take p.len

/-- The payload bytes of a chain. -/
def bytes (c : List Pbuf) : List UInt8 := c.flatMap Pbuf.data

/-- `p->tot_len` of the first pbuf, 0 for the `NULL` chain. -/
def totLen : List Pbuf → ℕ
  | [] => 0
  | p :: _ => p.totLen

/-- The invariant written at `struct pbuf`:
`p->tot_len == p->len + (p->next? p->next->tot_len: 0)`. -/
def WellFormed : List Pbuf → Prop
  | [] => True
  | p :: ps => p.totLen = p.len + totLen ps ∧ WellFormed ps

instance : (c : List Pbuf) → Decidable (WellFormed c)
  | [] => isTrue trivial
  | p :: ps =>
    have := instDecidableWellFormed ps
    inferInstanceAs (Decidable (p.totLen = p.len + totLen ps ∧ WellFormed ps))

/-! ### Field updates -/

/-- `p->tot_len = (u16_t)n` -/
def Pbuf.setTotLen (p : Pbuf) (n : ℤ) : Pbuf :=
  { p with totLen := u16 n, totLt := wrapU_lt 16 n }

/-- `p->ref = (u16_t)n` -/
def Pbuf.setRef (p : Pbuf) (n : ℤ) : Pbuf :=
  { p with ref := u16 n, refLt := wrapU_lt 16 n }

@[simp] theorem Pbuf.setTotLen_totLen (p : Pbuf) (n : ℤ) : (p.setTotLen n).totLen = u16 n := rfl
@[simp] theorem Pbuf.setTotLen_len (p : Pbuf) (n : ℤ) : (p.setTotLen n).len = p.len := rfl
@[simp] theorem Pbuf.setTotLen_data (p : Pbuf) (n : ℤ) : (p.setTotLen n).data = p.data := rfl
@[simp] theorem Pbuf.setRef_totLen (p : Pbuf) (n : ℤ) : (p.setRef n).totLen = p.totLen := rfl
@[simp] theorem Pbuf.setRef_len (p : Pbuf) (n : ℤ) : (p.setRef n).len = p.len := rfl
@[simp] theorem Pbuf.setRef_data (p : Pbuf) (n : ℤ) : (p.setRef n).data = p.data := rfl

/-! ### `pbuf_alloc` for `PBUF_POOL` -/

/-- A free element of the `MEMP_PBUF_POOL` pool: its address and the memory
behind the struct, with whatever bytes its last user left there. -/
structure PoolElem where
  addr : ℕ
  mem : List UInt8
  memLen : mem.length = PBUF_POOL_BUFSIZE_ALIGNED
  deriving DecidableEq

/-- The header room `pbuf_alloc` leaves for a layer. -/
def layerOffset : PbufLayer → ℕ
  | .transport => PBUF_LINK_HLEN + PBUF_IP_HLEN + PBUF_TRANSPORT_HLEN
  | .ip => PBUF_LINK_HLEN + PBUF_IP_HLEN
  | .link => PBUF_LINK_HLEN
  | .raw => 0

/-- The count of a pbuf with one reference -/
theorem oneRef_lt : 1 < 2 ^ 16 := by decide

/-- A pbuf over the whole of its data -/
theorem wholeData_inMem (data : List UInt8) : 0 + data.length ≤ data.length := by rw [Nat.zero_add]

/-- Set up a pool element whose payload starts `offset` bytes into its memory:
`tot_len = total`, `len = LWIP_MIN(total, PBUF_POOL_BUFSIZE_ALIGNED - offset)`. -/
def poolPbuf (e : PoolElem) (offset total : ℕ) (hoff : offset ≤ PBUF_POOL_BUFSIZE_ALIGNED)
    (htot : total < 2 ^ 16) : Pbuf where
  addr := e.addr
  mem := e.mem
  payload := offset
  totLen := total
  len := min total (PBUF_POOL_BUFSIZE_ALIGNED - offset)
  type := .pool
  flags := 0
  ref := 1
  inMem := by rw [e.memLen]; omega
  lenLt := by omega
  totLt := htot
  refLt := oneRef_lt

theorem layerOffset_le (layer : PbufLayer) : layerOffset layer ≤ PBUF_POOL_BUFSIZE_ALIGNED := by
  cases layer <;> decide

/-- The loop that allocates the tail of the chain, over the pool's free list:
`none` with the rest of the pool when the pool runs empty. The third component
lists the elements taken, in order. -/
def allocTail (remLen : ℕ) (hrem : remLen < 2 ^ 16) :
    List PoolElem → Option (List Pbuf) × List PoolElem × List PoolElem
  | [] => (if remLen = 0 then some [] else none, [], [])
  | e :: free =>
    if remLen = 0 then (some [], e :: free, [])
    else
      let q := poolPbuf e 0 remLen (Nat.zero_le _) hrem
      let r := allocTail (remLen - q.len) (by omega) free
      (r.1.map (q :: ·), r.2.1, e :: r.2.2)

/-- `pbuf_alloc(layer, length, PBUF_POOL)` on the free list of the pool. On
failure the elements taken so far are freed, each to the head of the free list. -/
def pbufAllocPool (layer : PbufLayer) (length : ℕ) (hlen : length < 2 ^ 16) :
    List PoolElem → Option (List Pbuf) × List PoolElem
  | [] => (none, [])
  | e :: free =>
    let p := poolPbuf e (layerOffset layer) length (layerOffset_le layer) hlen
    let r := allocTail (length - p.len) (by omega) free
    match r.1 with
    | some tail => (some (p :: tail), r.2.1)
    | none => (none, (e :: r.2.2).reverse ++ r.2.1)

/-! ### `pbuf_free`, `pbuf_ref`, `pbuf_clen` -/

/-- What a call of `pbuf_free` did: the `u8_t` count it returns, the pbufs it
deallocated, and the rest of the chain, which is still referenced. -/
structure FreeResult where
  count : ℕ
  freed : List Pbuf
  rest : List Pbuf
  deriving DecidableEq

/-- The loop of `pbuf_free`. -/
def freeLoop (count : ℕ) : List Pbuf → Option FreeResult
  | [] => some ⟨count, [], []⟩
  | p :: ps =>
    -- LWIP_ASSERT("pbuf_free: p->ref > 0", p->ref > 0)
    if 0 < p.ref then
      let p' := p.setRef (p.ref - 1)
      if p'.ref = 0 then
        (freeLoop (u8 (count + 1)) ps).map (fun r => { r with freed := p' :: r.freed })
      else some ⟨count, [], p' :: ps⟩
    else none

/-- `pbuf_free(p)`, with `LWIP_ASSERT("p != NULL", p != NULL)`. -/
def pbufFree : List Pbuf → Option FreeResult
  | [] => none
  | p :: ps => freeLoop 0 (p :: ps)

/-- `pbuf_ref(p)` -/
def pbufRef : List Pbuf → List Pbuf
  | [] => []
  | p :: ps => p.setRef (p.ref + 1) :: ps

/-- `pbuf_clen(p)`, counted in a `u8_t`. -/
def pbufClen (c : List Pbuf) : ℕ := c.foldl (fun len _ => u8 (len + 1)) 0

/-! ### `pbuf_cat`, `pbuf_chain`, `pbuf_dechain` -/

/-- The walk of `pbuf_cat` over the head chain. -/
def catLoop (t : List Pbuf) : List Pbuf → Option (List Pbuf)
  | [] => none
  | [p] =>
    -- LWIP_ASSERT("p->tot_len == p->len (of last pbuf in chain)", ..)
    if p.totLen = p.len then some (p.setTotLen (p.totLen + totLen t) :: t) else none
  | p :: q :: ps => (catLoop t (q :: ps)).map (p.setTotLen (p.totLen + totLen t) :: ·)

/-- `pbuf_cat(h, t)`: `LWIP_ERROR` when one of the chains is `NULL`. -/
def pbufCat (h t : List Pbuf) : Option (List Pbuf) :=
  match t with
  | [] => none
  | _ :: _ => catLoop t h

/-- `pbuf_chain(h, t)`: as `pbuf_cat`, and the tail gets a reference of its own. -/
def pbufChain (h t : List Pbuf) : Option (List Pbuf) :=
  pbufCat h (pbufRef t)

/-- The outcome of `pbuf_dechain(p)`: `p` alone, the pointer returned (`none` for
`NULL`), and what `pbuf_free` did to the rest of the chain. -/
structure DechainResult where
  head : Pbuf
  returned : Option ℕ
  tail : FreeResult
  deriving DecidableEq

/-- `pbuf_dechain(p)` -/
def pbufDechain : List Pbuf → Option DechainResult
  | [] => none
  | p :: [] => if p.totLen = p.len then some ⟨p, none, ⟨0, [], []⟩⟩ else none
  | p :: q :: qs =>
    -- LWIP_ASSERT("p->tot_len == p->len + q->tot_len", ..)
    if (q.totLen : ℤ) = p.totLen - p.len then
      let q' := q.setTotLen (p.totLen - p.len)
      (freeLoop 0 (q' :: qs)).map fun r =>
        ⟨p.setTotLen p.len, if 0 < r.count then none else some q.addr, r⟩
    else none

/-! ### `pbuf_realloc` -/

/-- The new last pbuf of a shrunk chain: `len = tot_len = remLen`. The memory of
a `PBUF_RAM` pbuf is cut to the same length by `mem_trim`. -/
def Pbuf.shrink (q : Pbuf) (remLen : ℕ) (h : remLen ≤ q.len) : Pbuf where
  addr := q.addr
  mem := if q.type = .ram ∧ remLen ≠ q.len then q.mem.take (q.payload + remLen) else q.mem
  payload := q.payload
  totLen := remLen
  len := remLen
  type := q.type
  flags := q.flags
  ref := q.ref
  inMem := by
    have hmem := q.inMem
    split
    · rw [List.length_take]; omega
    · omega
  lenLt := by have := q.lenLt; omega
  totLt := by have := q.lenLt; omega
  refLt := q.refLt

/-- The walk of `pbuf_realloc`: `remLen` bytes are still wanted, `grow` is added
to every `tot_len` passed. Returns the chain and what became of the pbufs behind
the new last one. -/
def reallocLoop (grow : ℤ) (remLen : ℕ) : List Pbuf → Option (List Pbuf × FreeResult)
  | [] => none -- LWIP_ASSERT("pbuf_realloc: q != NULL", q != NULL)
  | q :: qs =>
    if h : q.len < remLen then
      (reallocLoop grow (remLen - q.len) qs).map fun r =>
        (q.setTotLen (q.totLen + u16 grow) :: r.1, r.2)
    else
      match qs with
      | [] => some ([q.shrink remLen (by omega)], ⟨0, [], []⟩)
      | _ :: _ => (freeLoop 0 qs).map fun r => ([q.shrink remLen (by omega)], r)

/-- `pbuf_realloc(p, new_len)` -/
def pbufRealloc (c : List Pbuf) (newLen : ℕ) : Option (List Pbuf × FreeResult) :=
  match c with
  | [] => none
  | p :: _ =>
    if p.totLen ≤ newLen then some (c, ⟨0, [], []⟩)
    else reallocLoop (newLen - p.totLen) newLen c

/-! ### `pbuf_header` -/

theorem Pbuf.moveHeader_inMem (p : Pbuf) (inc : ℤ) (hlo : inc ≤ p.payload) (hhi : -inc ≤ p.len) :
    (p.payload - inc).toNat + u16 (p.len + inc) ≤ p.mem.length := by
  have hmem := p.inMem
  have hle : u16 (p.len + inc) ≤ (p.len + inc).toNat := by
    simp only [u16, wrapU]
    omega
  omega

/-- Move the payload pointer of `p` back by `inc` (forward when `inc` is
negative), with the length fields adjusted in 16 bits. -/
def Pbuf.moveHeader (p : Pbuf) (inc : ℤ) (hlo : inc ≤ p.payload) (hhi : -inc ≤ p.len) : Pbuf where
  addr := p.addr
  mem := p.mem
  payload := (p.payload - inc).toNat
  totLen := u16 (p.totLen + inc)
  len := u16 (p.len + inc)
  type := p.type
  flags := p.flags
  ref := p.ref
  inMem := p.moveHeader_inMem inc hlo hhi
  lenLt := wrapU_lt 16 _
  totLt := wrapU_lt 16 _
  refLt := p.refLt

/-- `pbuf_header(p, header_size_increment)`: the returned `u8_t` and the chain.
`none` is the abort of `LWIP_ERROR("increment_magnitude <= p->len")` and of the
assertion that `p` is not `NULL`. -/
def pbufHeader (c : List Pbuf) (inc : ℤ) : Option (ℕ × List Pbuf) :=
  match c with
  | [] => none
  | p :: ps =>
    if inc = 0 then some (0, p :: ps)
    else if hneg : inc < 0 then
      if hlen : -inc ≤ p.len then
        -- hiding a header succeeds for every type of pbuf
        some (0, p.moveHeader inc (by omega) hlen :: ps)
      else none
    else
      match p.type with
      | .ram | .pool =>
        -- not in front of the memory behind the struct
        if hlo : inc ≤ p.payload then some (0, p.moveHeader inc hlo (by omega) :: ps)
        else some (1, p :: ps)
      | .rom | .ref => some (1, p :: ps)

end QuietLwip.Buffers
