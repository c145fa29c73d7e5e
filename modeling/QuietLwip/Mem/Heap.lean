import QuietLwip.Foundation.Word

/-!
# The heap of `mem.c`

Pointers are offsets into `ram`; a pointer returned to the caller is the offset of
the user data. The `struct mem` headers are kept in a map from offsets, which no
two headers in use share: consecutive headers are at least `SIZEOF_STRUCT_MEM` apart.
At `MEM_ALIGNMENT` 1 `LWIP_MEM_ALIGN_SIZE` and `LWIP_MEM_ALIGN` are the identity, and the
alignment assertions hold of every pointer. Statistics and locking are left out.
A failed assertion aborts the process: the function has the value `none`.
-/

namespace QuietLwip.Mem

open QuietLwip.Word

def MEM_SIZE_ALIGNED : ℕ := 2 ^ 14
/-- `sizeof(struct mem)`: two `u16_t` and a `u8_t`, padded. -/
def SIZEOF_STRUCT_MEM : ℕ := 6
def MIN_SIZE_ALIGNED : ℕ := 12

/-- `struct mem` -/
structure StructMem where
  next : ℕ
  prev : ℕ
  used : Bool

structure Heap where
  ram : ℕ → StructMem
  /-- offset of the lowest free block -/
  lfree : ℕ

namespace Heap

variable (h : Heap)

def next (b : ℕ) : ℕ := (h.ram b).next
def prev (b : ℕ) : ℕ := (h.ram b).prev
def used (b : ℕ) : Bool := (h.ram b).used

def setNext (b n : ℕ) : Heap := { h with ram := Function.update h.ram b { h.ram b with next := n } }
def setPrev (b n : ℕ) : Heap := { h with ram := Function.update h.ram b { h.ram b with prev := n } }
def setUsed (b : ℕ) (u : Bool) : Heap :=
  { h with ram := Function.update h.ram b { h.ram b with used := u } }
def setLfree (b : ℕ) : Heap := { h with lfree := b }

@[simp] theorem setNext_next (b n : ℕ) : (h.setNext b n).next = Function.update h.next b n := by
  funext c
  by_cases hc : c = b <;> simp [next, setNext, hc]

@[simp] theorem setNext_prev (b n : ℕ) : (h.setNext b n).prev = h.prev := by
  funext c
  by_cases hc : c = b <;> simp [prev, setNext, hc]

@[simp] theorem setNext_used (b n : ℕ) : (h.setNext b n).used = h.used := by
  funext c
  by_cases hc : c = b <;> simp [used, setNext, hc]

@[simp] theorem setPrev_next (b n : ℕ) : (h.setPrev b n).next = h.next := by
  funext c
  by_cases hc : c = b <;> simp [next, setPrev, hc]

@[simp] theorem setPrev_prev (b n : ℕ) : (h.setPrev b n).prev = Function.update h.prev b n := by
  funext c
  by_cases hc : c = b <;> simp [prev, setPrev, hc]

@[simp] theorem setPrev_used (b n : ℕ) : (h.setPrev b n).used = h.used := by
  funext c
  by_cases hc : c = b <;> simp [used, setPrev, hc]

@[simp] theorem setUsed_next (b : ℕ) (u : Bool) : (h.setUsed b u).next = h.next := by
  funext c
  by_cases hc : c = b <;> simp [next, setUsed, hc]

@[simp] theorem setUsed_prev (b : ℕ) (u : Bool) : (h.setUsed b u).prev = h.prev := by
  funext c
  by_cases hc : c = b <;> simp [prev, setUsed, hc]

@[simp] theorem setUsed_used (b : ℕ) (u : Bool) :
    (h.setUsed b u).used = Function.update h.used b u := by
  funext c
  by_cases hc : c = b <;> simp [used, setUsed, hc]

@[simp] theorem setNext_lfree (b n : ℕ) : (h.setNext b n).lfree = h.lfree := rfl
@[simp] theorem setPrev_lfree (b n : ℕ) : (h.setPrev b n).lfree = h.lfree := rfl
@[simp] theorem setUsed_lfree (b : ℕ) (u : Bool) : (h.setUsed b u).lfree = h.lfree := rfl
@[simp] theorem setLfree_lfree (b : ℕ) : (h.setLfree b).lfree = b := rfl
@[simp] theorem setLfree_next (b : ℕ) : (h.setLfree b).next = h.next := rfl
@[simp] theorem setLfree_prev (b : ℕ) : (h.setLfree b).prev = h.prev := rfl
@[simp] theorem setLfree_used (b : ℕ) : (h.setLfree b).used = h.used := rfl

end Heap

/-- `mem_init`, over whatever the array holds elsewhere. -/
def memInit (ram : ℕ → StructMem) : Heap where
  ram := Function.update (Function.update ram 0 ⟨MEM_SIZE_ALIGNED, 0, false⟩)
    MEM_SIZE_ALIGNED ⟨MEM_SIZE_ALIGNED, MEM_SIZE_ALIGNED, true⟩
  lfree := 0

/-- The part of `plug_holes` that plugs the hole forward. -/
def plugForward (h : Heap) (mem : ℕ) : Heap :=
  let nmem := h.next mem
  if mem ≠ nmem ∧ h.used nmem = false ∧ nmem ≠ MEM_SIZE_ALIGNED then
    let h := if h.lfree = nmem then h.setLfree mem else h
    let h := h.setNext mem (h.next nmem)
    h.setPrev (h.next nmem) mem
  else h

/-- The part of `plug_holes` that plugs the hole backward. -/
def plugBackward (h : Heap) (mem : ℕ) : Heap :=
  let pmem := h.prev mem
  if pmem ≠ mem ∧ h.used pmem = false then
    let h := if h.lfree = mem then h.setLfree pmem else h
    let h := h.setNext pmem (h.next mem)
    h.setPrev (h.next mem) pmem
  else h

/-- `plug_holes(mem)` -/
def plugHoles (h : Heap) (mem : ℕ) : Option Heap :=
  -- LWIP_ASSERT mem < ram_end, mem->used == 0, mem->next <= MEM_SIZE_ALIGNED
  if mem < MEM_SIZE_ALIGNED ∧ h.used mem = false ∧ h.next mem ≤ MEM_SIZE_ALIGNED then
    some (plugBackward (plugForward h mem) mem)
  else none

/-- `mem_free(rmem)` -/
def memFree (h : Heap) (rmem : Option ℕ) : Option Heap :=
  match rmem with
  | none => some h
  | some rmem =>
    let mem := rmem - SIZEOF_STRUCT_MEM
    -- LWIP_ASSERT "mem_free: legal memory", "mem_free: mem->used"
    if rmem < MEM_SIZE_ALIGNED ∧ h.used mem = true then
      let h := h.setUsed mem false
      let h := if mem < h.lfree then h.setLfree mem else h
      plugHoles h mem
    else none

/-- The new block `ptr2` behind the shrunk block `ptr`, linked in front of `next`. -/
def linkAfter (h : Heap) (ptr ptr2 next : ℕ) : Heap :=
  let h := h.setUsed ptr2 false
  let h := h.setNext ptr2 next
  let h := h.setPrev ptr2 ptr
  let h := h.setNext ptr ptr2
  if h.next ptr2 ≠ MEM_SIZE_ALIGNED then h.setPrev (h.next ptr2) ptr2 else h

/-- `mem_trim(rmem, newsize)`: the heap and the pointer returned. -/
def memTrim (h : Heap) (rmem newsize : ℕ) : Option (Heap × Option ℕ) :=
  let newsize := if newsize < MIN_SIZE_ALIGNED then MIN_SIZE_ALIGNED else newsize
  if newsize > MEM_SIZE_ALIGNED then some (h, none)
  -- LWIP_ASSERT "mem_trim: legal memory"
  else if rmem < MEM_SIZE_ALIGNED then
    let ptr := rmem - SIZEOF_STRUCT_MEM
    let size := u16 ((h.next ptr : ℤ) - ptr - SIZEOF_STRUCT_MEM)
    -- LWIP_ASSERT "mem_trim can only shrink memory"
    if newsize ≤ size then
      if newsize = size then some (h, some rmem)
      else
        let mem2 := h.next ptr
        let ptr2 := u16 ((ptr : ℤ) + SIZEOF_STRUCT_MEM + newsize)
        if h.used mem2 = false then
          -- the next block is unused: it is moved down
          let next := h.next mem2
          let h := if h.lfree = mem2 then h.setLfree ptr2 else h
          some (linkAfter h ptr ptr2 next, some rmem)
        else if newsize + SIZEOF_STRUCT_MEM + MIN_SIZE_ALIGNED ≤ size then
          let h' := if ptr2 < h.lfree then h.setLfree ptr2 else h
          some (linkAfter h' ptr ptr2 (h.next ptr), some rmem)
        else some (h, some rmem)
    else none
  else none

/-- The scan of `mem_malloc` from block `ptr` on. The outer `none` is a scan that has
not come to an end, the inner one that no block was found. -/
def scan (h : Heap) (size : ℕ) : ℕ → ℕ → Option (Option ℕ)
  | 0, _ => none
  | fuel + 1, ptr =>
    if ptr < MEM_SIZE_ALIGNED - size then
      if h.used ptr = false ∧ size ≤ u64 ((h.next ptr : ℤ) - (ptr + SIZEOF_STRUCT_MEM)) then
        some (some ptr)
      else scan h size fuel (h.next ptr)
    else some none

/-- The loop that finds the next free block for `lfree`. -/
def nextFree (h : Heap) : ℕ → ℕ → Option ℕ
  | 0, _ => none
  | fuel + 1, cur =>
    if h.used cur = true ∧ cur ≠ MEM_SIZE_ALIGNED then nextFree h fuel (h.next cur)
    else some cur

/-- The block found is taken, and split when another block fits behind it. -/
def takeBlock (h : Heap) (ptr size : ℕ) : Heap :=
  if size + SIZEOF_STRUCT_MEM + MIN_SIZE_ALIGNED ≤
      u64 ((h.next ptr : ℤ) - (ptr + SIZEOF_STRUCT_MEM)) then
    (linkAfter h ptr (u16 ((ptr : ℤ) + SIZEOF_STRUCT_MEM + size)) (h.next ptr)).setUsed ptr true
  else h.setUsed ptr true

/-- `mem_malloc(size)` -/
def memMalloc (h : Heap) (size : ℕ) : Option (Heap × Option ℕ) :=
  if size = 0 then some (h, none)
  else
    let size := if size < MIN_SIZE_ALIGNED then MIN_SIZE_ALIGNED else size
    if size > MEM_SIZE_ALIGNED then some (h, none)
    else do
      match ← scan h size (MEM_SIZE_ALIGNED + 1) h.lfree with
      | none => return (h, none)
      | some ptr =>
        let h' := takeBlock h ptr size
        let h'' ← if ptr = h.lfree then do
            let cur ← nextFree h' (MEM_SIZE_ALIGNED + 1) h'.lfree
            -- LWIP_ASSERT "mem_malloc: !lfree->used"
            if cur = MEM_SIZE_ALIGNED ∨ h'.used cur = false then some (h'.setLfree cur) else none
          else some h'
        -- LWIP_ASSERT "mem_malloc: allocated memory not above ram_end."
        if ptr + SIZEOF_STRUCT_MEM + size ≤ MEM_SIZE_ALIGNED then
          return (h'', some (ptr + SIZEOF_STRUCT_MEM))
        else none

end QuietLwip.Mem
