import QuietLwip.Buffers.Pbuf
import QuietLwip.Foundation.Links

/-!
# Pbufs in memory

Chains may share a tail, so here a pbuf is a node of a graph: an address with its links and
counts, in a memory whose allocators know what they have handed out. The payload does not matter.
A failing assertion aborts the process, and the use of a pbuf that is not handed out is a fault of
its own.
-/

namespace QuietLwip.Buffers

open Word

/-- The allocators: `MEMP_PBUF_POOL`, `MEMP_PBUF` and the heap. -/
inductive Place where
  | pbufPool | pbuf | heap
  deriving DecidableEq, Repr

def PbufType.place : PbufType → Place
  | .pool => .pbufPool
  | .rom => .pbuf
  | .ref => .pbuf
  | .ram => .heap

/-- A `struct pbuf` without its payload. -/
structure PbufNode where
  next : Option ℕ
  totLen : ℕ
  len : ℕ
  type : PbufType
  ref : ℕ

inductive Fault where
  -- an assertion on lengths, and `p->ref > 0` of `pbuf_free`
  | assertion
  | unreferenced
  -- a pbuf is used or freed that is not handed out
  | dangling
  -- a loop goes round
  | endless
  deriving DecidableEq, Repr

/-- The pbufs below `room`, and which of the allocators has handed out each of them. -/
structure Memory where
  room : ℕ
  pbuf : ℕ → PbufNode
  taken : ℕ → Option Place

namespace Memory

def next (m : Memory) (p : ℕ) : Option ℕ := (m.pbuf p).next

def modify (p : ℕ) (f : PbufNode → PbufNode) (m : Memory) : Memory :=
  { m with pbuf := Function.update m.pbuf p (f (m.pbuf p)) }

def setNext (p : ℕ) (next : Option ℕ) (m : Memory) : Memory :=
  m.modify p fun node => { node with next := next }

def setRef (p : ℕ) (ref : ℤ) (m : Memory) : Memory :=
  m.modify p fun node => { node with ref := u16 ref }

def setTotLen (p : ℕ) (totLen : ℤ) (m : Memory) : Memory :=
  m.modify p fun node => { node with totLen := u16 totLen }

/-- Reading a pbuf. -/
def read (p : ℕ) (m : Memory) : Except Fault PbufNode :=
  if (m.taken p).isSome then .ok (m.pbuf p) else .error .dangling

/-- `memp_free` and `mem_free`. -/
def release (place : Place) (p : ℕ) (m : Memory) : Except Fault Memory :=
  if m.taken p = some place then .ok { m with taken := Function.update m.taken p none }
  else .error .dangling

/-- `memp_malloc` and `mem_malloc` give something that is not in use. -/
def malloc (answer : Option ℕ) (m : Memory) : Option ℕ :=
  answer.filter fun p => p < m.room && (m.taken p).isNone

def take (p : ℕ) (node : PbufNode) (m : Memory) : Memory :=
  { m with
    pbuf := Function.update m.pbuf p node
    taken := Function.update m.taken p (some node.type.place) }

/-! ### `pbuf_free` -/

/-- The loop of `pbuf_free`; `count` is a `u8_t`. -/
def freeLoop : ℕ → ℕ → ℕ → Memory → Except Fault (Memory × ℕ)
  | 0, _, _, _ => .error .endless
  | fuel + 1, count, p, m => do
    let node ← m.read p
    if node.ref = 0 then .error .unreferenced
    else
      let m := m.setRef p (node.ref - 1)
      if (m.pbuf p).ref = 0 then do
        let m ← m.release node.type.place p
        match node.next with
        | none => .ok (m, u8 (count + 1))
        | some q => freeLoop fuel (u8 (count + 1)) q m
      else .ok (m, count)

def pbufFree (p : ℕ) (m : Memory) : Except Fault (Memory × ℕ) := freeLoop m.room 0 p m

/-! ### `pbuf_alloc` -/

/-- The loop that allocates the tail of a chain behind `r`; `answers` are those of the calls of
`memp_malloc`, from the one with number `k` on. -/
def allocTail (answers : ℕ → Option ℕ) (p : ℕ) :
    ℕ → ℕ → ℕ → ℕ → Memory → Except Fault (Memory × Option ℕ)
  | 0, _, _, remLen, m => if remLen = 0 then .ok (m, some p) else .error .endless
  | fuel + 1, k, r, remLen, m =>
    if remLen = 0 then .ok (m, some p)
    else
      match m.malloc (answers k) with
      | none => do
        let (m, _) ← m.pbufFree p
        .ok (m, none)
      | some q =>
        let len := min remLen PBUF_POOL_BUFSIZE_ALIGNED
        allocTail answers p fuel (k + 1) q (remLen - len)
          ((m.take q ⟨none, remLen, len, .pool, 1⟩).setNext r (some q))

/-- `pbuf_alloc(layer, length, type)` -/
def pbufAlloc (answers : ℕ → Option ℕ) (layer : PbufLayer) (length : ℕ) (type : PbufType)
    (m : Memory) : Except Fault (Memory × Option ℕ) :=
  match m.malloc (answers 0) with
  | none => .ok (m, none)
  | some p =>
    match type with
    | .pool =>
      let len := min length (PBUF_POOL_BUFSIZE_ALIGNED - layerOffset layer)
      allocTail answers p (length - len) 1 p (length - len)
        (m.take p ⟨none, length, len, .pool, 1⟩)
    | type => .ok (m.take p ⟨none, length, length, type, 1⟩, some p)

/-! ### Chains -/

/-- `pbuf_ref(p)` -/
def pbufRef (p : ℕ) (m : Memory) : Except Fault Memory := do
  let node ← m.read p
  .ok (m.setRef p (node.ref + 1))

/-- The walk of `pbuf_cat` to the last pbuf of the head chain. -/
def catWalk (t : ℕ) : ℕ → ℕ → Memory → Except Fault (Memory × ℕ)
  | 0, _, _ => .error .endless
  | fuel + 1, p, m => do
    let node ← m.read p
    match node.next with
    | none => .ok (m, p)
    | some q => catWalk t fuel q (m.setTotLen p (node.totLen + (m.pbuf t).totLen))

/-- `pbuf_cat(h, t)` -/
def pbufCat (h t : ℕ) (m : Memory) : Except Fault Memory := do
  let (m, p) ← m.catWalk t m.room h
  let node ← m.read p
  let tail ← m.read t
  if node.totLen = node.len then
    .ok ((m.setTotLen p (node.totLen + tail.totLen)).setNext p (some t))
  else .error .assertion

/-- `pbuf_chain(h, t)` -/
def pbufChain (h t : ℕ) (m : Memory) : Except Fault Memory := do
  let m ← m.pbufCat h t
  m.pbufRef t

/-- `LWIP_ASSERT("p->tot_len == p->len", p->tot_len == p->len)` -/
def assertAlone (p : ℕ) (m : Memory) : Except Fault Unit := do
  let node ← m.read p
  if node.totLen = node.len then .ok () else .error .assertion

/-- `pbuf_dechain(p)` -/
def pbufDechain (p : ℕ) (m : Memory) : Except Fault (Memory × Option ℕ) := do
  let node ← m.read p
  match node.next with
  | none => do
    m.assertAlone p
    .ok (m, none)
  | some q => do
    let tail ← m.read q
    if (tail.totLen : ℤ) = node.totLen - node.len then do
      let m := m.setTotLen q (node.totLen - node.len)
      let (m, tailGone) ← ((m.setNext p none).setTotLen p node.len).pbufFree q
      m.assertAlone p
      .ok (m, if 0 < tailGone then none else some q)
    else .error .assertion

/-- The walk of `pbuf_realloc` to the new last pbuf, which keeps the length that is left. -/
def reallocWalk (grow : ℤ) : ℕ → ℕ → ℕ → Memory → Except Fault (Memory × ℕ × ℕ)
  | 0, _, _, _ => .error .endless
  | fuel + 1, remLen, q, m => do
    let node ← m.read q
    if node.len < remLen then
      match node.next with
      | none => .error .assertion
      | some r =>
        reallocWalk grow fuel (remLen - node.len) r (m.setTotLen q (node.totLen + u16 grow))
    else .ok (m, q, remLen)

/-- What `pbuf_realloc` does behind the new last pbuf. -/
def freeRest (q : ℕ) (m : Memory) : Except Fault Memory := do
  let node ← m.read q
  match node.next with
  | none => .ok m
  | some r => do
    let (m, _) ← m.pbufFree r
    let _ ← m.read q
    .ok (m.setNext q none)

/-- `pbuf_realloc(p, new_len)`; `mem_trim` keeps the pbuf where it is. -/
def pbufRealloc (p newLen : ℕ) (m : Memory) : Except Fault Memory := do
  let node ← m.read p
  if node.totLen ≤ newLen then .ok m
  else do
    let (m, q, remLen) ← m.reallocWalk (newLen - node.totLen) m.room newLen p
    (m.modify q fun node => { node with len := remLen, totLen := remLen }).freeRest q

end Memory

/-! ### The clients -/

/-- The memory, and how many references to each pbuf the clients own. -/
structure PbufState where
  mem : Memory
  owned : ℕ → ℕ

inductive Op where
  | alloc (answers : ℕ → Option ℕ) (layer : PbufLayer) (length : ℕ) (type : PbufType)
  | ref (p : ℕ)
  | chain (h t : ℕ)
  | cat (h t : ℕ)
  | dechain (p : ℕ)
  | realloc (p newLen : ℕ)
  | free (p : ℕ)

/-- A client gets a reference to `p`. -/
def own (owned : ℕ → ℕ) (p : ℕ) : ℕ → ℕ := Function.update owned p (owned p + 1)

/-- A client gives up a reference to `p`. -/
def disown (owned : ℕ → ℕ) (p : ℕ) : ℕ → ℕ := Function.update owned p (owned p - 1)

def Op.exec (s : PbufState) : Op → Except Fault PbufState
  | .alloc answers layer length type => do
    let (m, p) ← s.mem.pbufAlloc answers layer length type
    .ok ⟨m, p.elim s.owned (own s.owned)⟩
  | .ref p => do
    let m ← s.mem.pbufRef p
    .ok ⟨m, own s.owned p⟩
  | .chain h t => do
    let m ← s.mem.pbufChain h t
    .ok ⟨m, s.owned⟩
  | .cat h t => do
    let m ← s.mem.pbufCat h t
    .ok ⟨m, disown s.owned t⟩
  | .dechain p => do
    let (m, _) ← s.mem.pbufDechain p
    .ok ⟨m, s.owned⟩
  | .realloc p newLen => do
    let m ← s.mem.pbufRealloc p newLen
    .ok ⟨m, s.owned⟩
  | .free p => do
    let (m, _) ← s.mem.pbufFree p
    .ok ⟨m, disown s.owned p⟩

/-- The clients use pbufs that are allocated, and give up only references that they own. -/
def Op.Valid (s : PbufState) : Op → Prop
  | .alloc _ _ length _ => length < 2 ^ 16
  | .ref p => (s.mem.taken p).isSome
  | .chain h t => (s.mem.taken h).isSome ∧ (s.mem.taken t).isSome
  | .cat h t => (s.mem.taken h).isSome ∧ 0 < s.owned t
  | .dechain p => (s.mem.taken p).isSome
  | .realloc p newLen => (s.mem.taken p).isSome ∧ newLen < 2 ^ 16
  | .free p => 0 < s.owned p

end QuietLwip.Buffers
