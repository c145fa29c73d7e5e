import QuietLwip.Foundation.Memory
import QuietLwip.Foundation.Transition

/-!
# The memory pools

`memp.c` cuts one block of memory into the elements of all pools. The free elements of a pool are linked
through their own first bytes, where whoever has got an element keeps their own data. For the clients the
pools are a store of separate objects of fixed sizes, so many for each type, for every order in which any
number of threads call `memp_malloc` and `memp_free` and use what they have. Both functions change the
lists between `SYS_ARCH_PROTECT` and `SYS_ARCH_UNPROTECT`.
-/

namespace QuietLwip.Memp

open Transition Memory

/-- `LWIP_MEMPOOL(name,num,size,desc)` -/
structure Desc where
  num : ℕ
  size : ℕ

/-- The pools of `memp_std.h`, and where their memory begins. Every element has room for a `struct memp`. -/
structure Pools where
  descs : List Desc
  base : ℕ
  base_pos : 0 < base
  end_le : base + (descs.map fun d => d.num * d.size).sum ≤ 2 ^ 64
  num_lt : ∀ d ∈ descs, d.num < 2 ^ 16
  room : ∀ d ∈ descs, ptrLen ≤ d.size

namespace Pools

/-- `MEMP_MAX` -/
def mempMax (P : Pools) : ℕ := P.descs.length

def mempNum (P : Pools) (i : ℕ) : ℕ := (P.descs[i]?.map Desc.num).getD 0

def mempSizes (P : Pools) (i : ℕ) : ℕ := (P.descs[i]?.map Desc.size).getD 0

end Pools

/-- `lwip_stats.memp[i]`, as far as it changes -/
structure Stats where
  used : ℕ := 0
  max : ℕ := 0
  err : ℕ := 0

/-- `MEMP_STATS_INC_USED` -/
def Stats.incUsed (s : Stats) : Stats :=
  let used := (s.used + 1) % 2 ^ 16
  { s with used := used, max := if s.max < used then used else s.max }

/-- `MEMP_STATS_DEC(used, i)` -/
def Stats.decUsed (s : Stats) : Stats := { s with used := (s.used + (2 ^ 16 - 1)) % 2 ^ 16 }

/-- `MEMP_STATS_INC(err, i)` -/
def Stats.incErr (s : Stats) : Stats := { s with err := (s.err + 1) % 2 ^ 16 }

structure State where
  memory : Memory
  /-- `memp_tab` -/
  tab : ℕ → ℕ
  stats : ℕ → Stats

/-! ## The functions -/

/-- The variables of `memp_init` -/
structure Carving where
  memory : Memory
  memp : ℕ
  tab : ℕ → ℕ

/-- The inner loop: one element after the other is put in front of the list of the pool. -/
def carve (size i : ℕ) : ℕ → Carving → Carving
  | 0, c => c
  | n + 1, c => carve size i n
      ⟨c.memory.writePtr c.memp (c.tab i), c.memp + size, Function.update c.tab i c.memp⟩

/-- One turn of the outer loop -/
def carvePool (P : Pools) (c : Carving) (i : ℕ) : Carving :=
  carve (P.mempSizes i) i (P.mempNum i) { c with tab := Function.update c.tab i 0 }

def mempInit (P : Pools) (memory : Memory) (tab : ℕ → ℕ) : State :=
  let c := (List.range P.mempMax).foldl (carvePool P) ⟨memory, P.base, tab⟩
  ⟨c.memory, c.tab, fun _ => {}⟩

def mempMalloc (P : Pools) (s : State) (type : ℕ) : State × ℕ :=
  if type < P.mempMax then
    let memp := s.tab type
    if memp ≠ 0 then
      ({ s with
          tab := Function.update s.tab type (s.memory.readPtr memp)
          stats := Function.update s.stats type (s.stats type).incUsed }, memp)
    else ({ s with stats := Function.update s.stats type (s.stats type).incErr }, 0)
  else (s, 0)

def mempFree (s : State) (type mem : ℕ) : State :=
  if mem = 0 then s
  else
    { memory := s.memory.writePtr mem (s.tab type)
      tab := Function.update s.tab type mem
      stats := Function.update s.stats type (s.stats type).decUsed }

/-! ## The clients -/

/-- What a client does, and what it sees of it: a call, bytes written to or read from an element that was
handed out, or a look at the statistics. -/
inductive Act where
  | malloc (type mem : ℕ)
  | free (type mem : ℕ)
  | write (mem off : ℕ) (bs : List UInt8)
  | read (mem off : ℕ) (bs : List UInt8)
  | used (type n : ℕ)

/-- The pools, and the elements that the clients have, each with its type -/
structure Machine where
  state : State
  held : List (ℕ × ℕ)

/-- The clients give back what they have, to the pool that it is from, and stay inside it. -/
inductive Machine.Step (P : Pools) (k : Machine) : Act → Machine → Prop
  | malloc (type : ℕ) : Step P k (.malloc type (mempMalloc P k.state type).2)
      { state := (mempMalloc P k.state type).1
        held := if (mempMalloc P k.state type).2 = 0 then k.held
          else ((mempMalloc P k.state type).2, type) :: k.held }
  | free {type mem : ℕ} (h : mem = 0 ∨ (mem, type) ∈ k.held) : Step P k (.free type mem)
      ⟨mempFree k.state type mem, k.held.filter (·.1 ≠ mem)⟩
  | write {type mem off : ℕ} {bs : List UInt8} (h : (mem, type) ∈ k.held)
      (hin : off + bs.length ≤ P.mempSizes type) : Step P k (.write mem off bs)
      { k with state := { k.state with memory := k.state.memory.write (mem + off) bs } }
  | read {type mem off n : ℕ} (h : (mem, type) ∈ k.held) (hin : off + n ≤ P.mempSizes type) :
      Step P k (.read mem off (k.state.memory.read (mem + off) n)) k
  | used {type : ℕ} (h : type < P.mempMax) : Step P k (.used type (k.state.stats type).used) k

def machine (P : Pools) : System Machine Act where
  start k := k.held = [] ∧ ∃ memory tab, k.state = mempInit P memory tab
  step := Machine.Step P

/-! ## Separate objects -/

/-- An object with a name, a type and bytes of its own -/
structure Obj where
  mem : ℕ
  type : ℕ
  bytes : List UInt8

def count (live : List Obj) (type : ℕ) : ℕ := live.countP (·.type = type)

/-- What the clients may rely on. A new object has any bytes, and a name that no other one has; there is
one as long as there are less than `num` of its type. -/
inductive Objects.Step (P : Pools) (live : List Obj) : Act → List Obj → Prop
  | malloc {o : Obj} (htype : o.type < P.mempMax) (hroom : count live o.type < P.mempNum o.type)
      (hnull : o.mem ≠ 0) (hnew : o.mem ∉ live.map Obj.mem) (hlen : o.bytes.length = P.mempSizes o.type) :
      Step P live (.malloc o.type o.mem) (o :: live)
  | full {type : ℕ} (h : type < P.mempMax → count live type = P.mempNum type) :
      Step P live (.malloc type 0) live
  | nothing {type : ℕ} : Step P live (.free type 0) live
  | free {o : Obj} (h : o ∈ live) : Step P live (.free o.type o.mem) (live.filter (·.mem ≠ o.mem))
  | write {o : Obj} {off : ℕ} {bs : List UInt8} (h : o ∈ live) (hin : off + bs.length ≤ o.bytes.length) :
      Step P live (.write o.mem off bs)
        (live.map fun x => if x.mem = o.mem then { x with bytes := splice x.bytes off bs } else x)
  | read {o : Obj} {off n : ℕ} (h : o ∈ live) (hin : off + n ≤ o.bytes.length) :
      Step P live (.read o.mem off ((o.bytes.drop off).take n)) live
  | used {type : ℕ} (h : type < P.mempMax) : Step P live (.used type (count live type)) live

def objects (P : Pools) : System (List Obj) Act where
  start live := live = []
  step := Objects.Step P

/-! ## Where the elements are -/

variable {P : Pools} {i j a b n size : ℕ} {k : Machine} {live : List Obj} {o : Obj}

namespace Pools

/-- Where the elements of a pool begin -/
def start (P : Pools) (i : ℕ) : ℕ := P.base + ((P.descs.take i).map fun d => d.num * d.size).sum

/-- The elements of a pool -/
def elems (P : Pools) (i : ℕ) : List ℕ :=
  (List.range (P.mempNum i)).map fun j => P.start i + j * P.mempSizes i

theorem start_succ (P : Pools) (h : i < P.mempMax) :
    P.start (i + 1) = P.start i + P.mempNum i * P.mempSizes i := by
  have hi : i < P.descs.length := h
  rw [start, List.take_succ_eq_append_getElem hi, List.map_append, List.sum_append, ← Nat.add_assoc]
  simp [start, mempNum, mempSizes, List.getElem?_eq_getElem hi]

theorem start_mono (P : Pools) (h : i ≤ j) : P.start i ≤ P.start j := by
  obtain ⟨d, rfl⟩ := Nat.exists_eq_add_of_le h
  rw [start, start, List.take_add, List.map_append, List.sum_append]
  omega

theorem start_le (P : Pools) (i : ℕ) : P.start i ≤ 2 ^ 64 := by
  refine le_trans ?_ P.end_le
  have hsum := congrArg (fun l => (l.map fun d : Desc => d.num * d.size).sum) (List.take_append_drop i P.descs)
  simp only [List.map_append, List.sum_append] at hsum
  rw [start]
  omega

theorem ptrLen_le (h : i < P.mempMax) : ptrLen ≤ P.mempSizes i := by
  have hi : i < P.descs.length := h
  simpa [mempSizes, List.getElem?_eq_getElem hi] using P.room _ (List.getElem_mem hi)

theorem mempNum_lt (P : Pools) (i : ℕ) : P.mempNum i < 2 ^ 16 := by
  rw [mempNum]
  cases hd : P.descs[i]? with
  | none => decide
  | some d => exact P.num_lt d (List.mem_of_getElem? hd)

theorem mem_elems : a ∈ P.elems i ↔ ∃ j < P.mempNum i, P.start i + j * P.mempSizes i = a := by
  simp [elems]

/-- An element lies between the beginnings of its pool and of the next one. -/
theorem elems_between (h : a ∈ P.elems i) (hi : i < P.mempMax) :
    P.start i ≤ a ∧ a + P.mempSizes i ≤ P.start (i + 1) := by
  obtain ⟨j, hj, rfl⟩ := mem_elems.mp h
  have hle := Nat.mul_le_mul_right (P.mempSizes i) (Nat.succ_le_of_lt hj)
  rw [Nat.succ_mul] at hle
  rw [P.start_succ hi]
  omega

theorem elems_pos (h : a ∈ P.elems i) (hi : i < P.mempMax) : a ≠ 0 := by
  have hbase : P.base ≤ P.start i := Nat.le_add_right _ _
  have := P.base_pos
  have := (elems_between h hi).1
  omega

theorem elems_lt (h : a ∈ P.elems i) (hi : i < P.mempMax) : a < 2 ^ 64 := by
  have hroom : 0 < P.mempSizes i := Nat.lt_of_lt_of_le (by decide) (ptrLen_le hi)
  have := (elems_between h hi).2
  have := P.start_le (i + 1)
  omega

theorem elems_apart_of_lt (hij : i < j) (hj : j < P.mempMax) (ha : a ∈ P.elems i) (hb : b ∈ P.elems j) :
    a + P.mempSizes i ≤ b :=
  calc a + P.mempSizes i ≤ P.start (i + 1) := (elems_between ha (hij.trans hj)).2
    _ ≤ P.start j := P.start_mono hij
    _ ≤ b := (elems_between hb hj).1

/-- Two elements do not overlap. -/
theorem elems_apart (hi : i < P.mempMax) (hj : j < P.mempMax) (ha : a ∈ P.elems i) (hb : b ∈ P.elems j)
    (hne : a ≠ b) : a + P.mempSizes i ≤ b ∨ b + P.mempSizes j ≤ a := by
  rcases Nat.lt_trichotomy i j with hij | rfl | hij
  · exact .inl (elems_apart_of_lt hij hj ha hb)
  · obtain ⟨m, -, rfl⟩ := mem_elems.mp ha
    obtain ⟨n, -, rfl⟩ := mem_elems.mp hb
    rcases Nat.lt_trichotomy m n with hmn | rfl | hmn
    · have := Nat.mul_le_mul_right (P.mempSizes i) (Nat.succ_le_of_lt hmn)
      rw [Nat.succ_mul] at this
      omega
    · exact absurd rfl hne
    · have := Nat.mul_le_mul_right (P.mempSizes i) (Nat.succ_le_of_lt hmn)
      rw [Nat.succ_mul] at this
      omega
  · exact .inr (elems_apart_of_lt hij hi hb ha)

/-- An element is in one pool. -/
theorem elems_type (hi : i < P.mempMax) (hj : j < P.mempMax) (ha : a ∈ P.elems i) (hb : a ∈ P.elems j) :
    i = j := by
  have hroom : ∀ {i}, i < P.mempMax → 0 < P.mempSizes i :=
    fun hi => Nat.lt_of_lt_of_le (by decide) (ptrLen_le hi)
  rcases Nat.lt_trichotomy i j with hij | rfl | hij
  · have := elems_apart_of_lt hij hj ha hb
    have := hroom hi
    omega
  · rfl
  · have := elems_apart_of_lt hij hi hb ha
    have := hroom hj
    omega

theorem elems_nodup (hi : i < P.mempMax) : (P.elems i).Nodup := by
  have hroom : 0 < P.mempSizes i := Nat.lt_of_lt_of_le (by decide) (ptrLen_le hi)
  refine List.nodup_range.map fun m n heq => ?_
  exact Nat.eq_of_mul_eq_mul_right hroom (Nat.add_left_cancel heq)

end Pools

/-! ## The lists of free elements -/

/-- The lists of the pools below `max` have the elements that `free` says. -/
def Lists (P : Pools) (max : ℕ) (memory : Memory) (tab : ℕ → ℕ) (free : ℕ → List ℕ) : Prop :=
  ∀ i < max, memory.Free (tab i) (free i) ∧ ∀ a ∈ free i, a ∈ P.elems i

/-- The elements behind each other that `carve` puts on the list -/
def row (size : ℕ) : ℕ → ℕ → List ℕ
  | 0, _ => []
  | n + 1, a => a :: row size n (a + size)

theorem row_eq (size n a : ℕ) : row size n a = (List.range n).map fun j => a + j * size := by
  induction n generalizing a with
  | zero => rfl
  | succ n ih =>
    rw [row, ih, List.range_succ_eq_map, List.map_cons, List.map_map, Nat.zero_mul, Nat.add_zero]
    congr 1
    apply List.map_congr_left
    intro j _
    show a + size + j * size = a + (j + 1) * size
    rw [Nat.succ_mul]
    omega

/-- The loop writes into the elements only, and leaves the lists of the other pools where they begin. -/
theorem carve_frame (size i n : ℕ) (c : Carving) :
    (carve size i n c).memp = c.memp + n * size ∧
      (∀ j, j ≠ i → (carve size i n c).tab j = c.tab j) ∧
      ∀ a < c.memp, (carve size i n c).memory a = c.memory a := by
  induction n generalizing c with
  | zero => exact ⟨by simp [carve], fun _ _ => rfl, fun _ _ => rfl⟩
  | succ n ih =>
    obtain ⟨hmemp, htab, hmem⟩ := ih
      ⟨c.memory.writePtr c.memp (c.tab i), c.memp + size, Function.update c.tab i c.memp⟩
    rw [carve]
    refine ⟨?_, fun j hj => ?_, fun a ha => ?_⟩
    · rw [hmemp, Nat.succ_mul]
      dsimp only
      omega
    · rw [htab j hj]
      exact Function.update_of_ne hj _ _
    · rw [hmem a (Nat.lt_add_right size ha)]
      exact write_of_outside (.inl ha)

/-- The elements are put on the list one in front of the other. -/
theorem carve_free {l : List ℕ} {c : Carving} (hroom : ptrLen ≤ size) (h : c.memory.Free (c.tab i) l)
    (hpos : c.memp ≠ 0) (hend : c.memp + n * size ≤ 2 ^ 64) (hhead : c.tab i < 2 ^ 64)
    (hapart : ∀ b ∈ l, b + ptrLen ≤ c.memp) :
    (carve size i n c).memory.Free ((carve size i n c).tab i) ((row size n c.memp).reverse ++ l) := by
  induction n generalizing c l with
  | zero => exact h
  | succ n ih =>
    have hsize : 0 < size := Nat.lt_of_lt_of_le (by decide) hroom
    rw [Nat.succ_mul] at hend
    have hpush := h.push hpos hhead fun b hb => .inl (hapart b hb)
    rw [row, List.reverse_cons, List.append_assoc, carve]
    refine ih ?_ (Nat.add_pos_right c.memp hsize).ne' ?_ ?_ fun b hb => ?_
    · simpa using hpush
    · show c.memp + size + n * size ≤ 2 ^ 64
      omega
    · show Function.update c.tab i c.memp i < 2 ^ 64
      rw [Function.update_self]
      omega
    · rcases List.mem_cons.mp hb with rfl | hb
      · exact Nat.add_le_add_left hroom _
      · have := hapart b hb
        dsimp only
        omega

/-- The lists when the first pools have been made -/
theorem carvePools_lists (P : Pools) (c : Carving) (hc : c.memp = P.base) {max : ℕ} (hmax : max ≤ P.mempMax) :
    ((List.range max).foldl (carvePool P) c).memp = P.start max ∧
      Lists P max ((List.range max).foldl (carvePool P) c).memory ((List.range max).foldl (carvePool P) c).tab
        fun i => (P.elems i).reverse := by
  induction max with
  | zero => exact ⟨by simp [hc, Pools.start], fun i hi => absurd hi (Nat.not_lt_zero i)⟩
  | succ max ih =>
    obtain ⟨hmemp, hlists⟩ := ih (Nat.le_of_succ_le hmax)
    rw [List.range_succ, List.foldl_append]
    generalize (List.range max).foldl (carvePool P) c = c' at hmemp hlists ⊢
    have hroom := P.ptrLen_le (i := max) hmax
    have hend := P.start_le (max + 1)
    rw [P.start_succ hmax, ← hmemp] at hend
    have hpos : c'.memp ≠ 0 := by
      have := P.base_pos
      rw [hmemp, Pools.start]
      omega
    obtain ⟨hnext, htab, hmem⟩ := carve_frame (P.mempSizes max) max (P.mempNum max)
      { c' with tab := Function.update c'.tab max 0 }
    refine ⟨?_, fun i hi => ⟨?_, fun a ha => List.mem_reverse.mp ha⟩⟩
    · rw [P.start_succ hmax, ← hmemp]
      exact hnext
    · rcases Nat.lt_succ_iff_lt_or_eq.mp hi with hi | rfl
      · -- an earlier pool lies below
        obtain ⟨hfree, -⟩ := hlists i hi
        show Free (carve _ _ _ _).memory ((carve _ _ _ _).tab i) _
        rw [htab i hi.ne]
        dsimp only
        rw [Function.update_of_ne hi.ne]
        refine hfree.congr fun a ha => read_congr fun b _ hb => hmem b ?_
        have hbetween := P.elems_between (List.mem_reverse.mp ha) (hi.trans hmax)
        have hle := P.ptrLen_le (hi.trans hmax)
        have hstart := P.start_mono (show i + 1 ≤ max from hi)
        show b < c'.memp
        omega
      · have hrow := carve_free (i := i) (n := P.mempNum i) (l := [])
          (c := { c' with tab := Function.update c'.tab i 0 }) hroom (by simp [Free, node, Links.ListAt])
          hpos hend (by simp) (by simp)
        rw [List.append_nil, row_eq] at hrow
        show Free (carve _ _ _ _).memory ((carve _ _ _ _).tab i) (P.elems i).reverse
        rw [Pools.elems, ← hmemp]
        exact hrow

/-! ## The refinement -/

/-- The pools show the live objects: every pool is divided into its free list and the objects of its type,
whose bytes are in the memory. -/
structure Shows (P : Pools) (k : Machine) (live : List Obj) : Prop where
  held : k.held = live.map fun o => (o.mem, o.type)
  nodup : (live.map Obj.mem).Nodup
  types : ∀ o ∈ live, o.type < P.mempMax
  bytes : ∀ o ∈ live, o.bytes = k.state.memory.read o.mem (P.mempSizes o.type)
  lists : ∃ free, Lists P P.mempMax k.state.memory k.state.tab free ∧
    ∀ i < P.mempMax, (free i ++ (live.filter (·.type = i)).map Obj.mem).Perm (P.elems i)
  used : ∀ i < P.mempMax, (k.state.stats i).used = count live i

namespace Shows

theorem init (h : (machine P).start k) : Shows P k [] := by
  obtain ⟨hheld, memory, tab, hstate⟩ := h
  obtain ⟨-, hlists⟩ := carvePools_lists P ⟨memory, P.base, tab⟩ rfl le_rfl
  exact {
    held := hheld
    nodup := List.nodup_nil
    types := fun o ho => absurd ho List.not_mem_nil
    bytes := fun o ho => absurd ho List.not_mem_nil
    lists := by
      refine ⟨fun i => (P.elems i).reverse, ?_, fun i _ => ?_⟩
      · rw [hstate]
        exact hlists
      · simp
    used := by
      intro i _
      rw [hstate]
      rfl }

/-- An object is an element of the pool of its type. -/
theorem mem_elems (h : Shows P k live) (ho : o ∈ live) : o.mem ∈ P.elems o.type := by
  obtain ⟨free, -, hperm⟩ := h.lists
  refine (hperm o.type (h.types o ho)).mem_iff.mp (List.mem_append_right _ ?_)
  exact List.mem_map_of_mem (List.mem_filter.mpr ⟨ho, by simp⟩)

theorem eq_of_mem (h : Shows P k live) {o' : Obj} (ho : o ∈ live) (ho' : o' ∈ live) (heq : o.mem = o'.mem) :
    o = o' := List.inj_on_of_nodup_map h.nodup ho ho' heq

/-- What the clients say they have is an object. -/
theorem of_held (h : Shows P k live) {mem type : ℕ} (hheld : (mem, type) ∈ k.held) :
    ∃ o ∈ live, o.mem = mem ∧ o.type = type := by
  rw [h.held] at hheld
  obtain ⟨o, ho, heq⟩ := List.mem_map.mp hheld
  exact ⟨o, ho, (Prod.mk.inj heq).1, (Prod.mk.inj heq).2⟩

/-- A write into an object is apart from every other object. -/
theorem apart (h : Shows P k live) {o' : Obj} (ho : o ∈ live) (ho' : o' ∈ live) (hne : o'.mem ≠ o.mem) :
    o'.mem + P.mempSizes o'.type ≤ o.mem ∨ o.mem + P.mempSizes o.type ≤ o'.mem :=
  P.elems_apart (h.types o' ho') (h.types o ho) (h.mem_elems ho') (h.mem_elems ho) hne

end Shows

/-- The number of objects and free elements of a type -/
theorem length_eq {free : ℕ → List ℕ}
    (hperm : (free i ++ (live.filter (·.type = i)).map Obj.mem).Perm (P.elems i)) :
    (free i).length + count live i = P.mempNum i := by
  have hlen := hperm.length_eq
  rwa [List.length_append, List.length_map, ← List.countP_eq_length_filter, Pools.elems, List.length_map,
    List.length_range] at hlen

/-- What is written apart from the free elements leaves the lists. -/
theorem Lists.write {max : ℕ} {memory : Memory} {tab : ℕ → ℕ} {free : ℕ → List ℕ} {bs : List UInt8}
    (h : Lists P max memory tab free)
    (hapart : ∀ i < max, ∀ b ∈ free i, b + ptrLen ≤ a ∨ a + bs.length ≤ b) :
    Lists P max (memory.write a bs) tab free :=
  fun i hi => ⟨(h i hi).1.write (hapart i hi), (h i hi).2⟩

/-- The other objects, when one of them is given back -/
theorem perm_filter (hnodup : (live.map Obj.mem).Nodup) (ho : o ∈ live) :
    live.Perm (o :: live.filter (·.mem ≠ o.mem)) := by
  obtain ⟨front, back, rfl⟩ := List.append_of_mem ho
  rw [List.map_append, List.map_cons] at hnodup
  have hout := (List.nodup_cons.mp (List.nodup_middle.mp hnodup)).1
  rw [← List.map_append] at hout
  have hself : (front ++ back).filter (·.mem ≠ o.mem) = front ++ back := by
    refine List.filter_eq_self.mpr fun x hx => decide_eq_true fun heq => hout ?_
    exact heq ▸ List.mem_map_of_mem hx
  have hfilter : (front ++ o :: back).filter (·.mem ≠ o.mem) = front ++ back := by
    rw [List.filter_append, List.filter_cons_of_neg (by simp), ← List.filter_append, hself]
  rw [hfilter]
  exact List.perm_middle

namespace Shows

/-- A free element is apart from every object. -/
theorem free_apart (h : Shows P k live) {free : ℕ → List ℕ}
    (hperm : ∀ i < P.mempMax, (free i ++ (live.filter (·.type = i)).map Obj.mem).Perm (P.elems i))
    (hi : i < P.mempMax) (ha : a ∈ free i) (ho : o ∈ live) :
    a + P.mempSizes i ≤ o.mem ∨ o.mem + P.mempSizes o.type ≤ a := by
  have helem : a ∈ P.elems i := (hperm i hi).mem_iff.mp (List.mem_append_left _ ha)
  refine P.elems_apart hi (h.types o ho) helem (h.mem_elems ho) ?_
  rintro rfl
  obtain rfl := P.elems_type hi (h.types o ho) helem (h.mem_elems ho)
  have hnodup := (hperm o.type hi).nodup_iff.mpr (P.elems_nodup hi)
  refine (List.nodup_append.mp hnodup).2.2 o.mem ha o.mem ?_ rfl
  exact List.mem_map_of_mem (List.mem_filter.mpr ⟨ho, by simp⟩)

/-- `memp_malloc` takes an element out of the free list, or finds none there. -/
theorem malloc (h : Shows P k live) (type : ℕ) :
    ∃ live', Objects.Step P live (.malloc type (mempMalloc P k.state type).2) live' ∧
      Shows P { state := (mempMalloc P k.state type).1
                held := if (mempMalloc P k.state type).2 = 0 then k.held
                  else ((mempMalloc P k.state type).2, type) :: k.held } live' := by
  by_cases htype : type < P.mempMax
  · obtain ⟨free, hlists, hperm⟩ := h.lists
    obtain ⟨hfree, helems⟩ := hlists type htype
    have hlength := length_eq (hperm type htype)
    by_cases hnull : k.state.tab type = 0
    · -- the pool is used up
      have hnil : free type = [] := hfree.nil_iff.mpr hnull
      have hmalloc : mempMalloc P k.state type =
          ({ k.state with stats := Function.update k.state.stats type (k.state.stats type).incErr }, 0) := by
        rw [mempMalloc, if_pos htype]
        exact if_neg (not_not.mpr hnull)
      rw [hmalloc]
      refine ⟨live, .full fun _ => ?_, h.held, h.nodup, h.types, h.bytes, ⟨free, hlists, hperm⟩, ?_⟩
      · rwa [hnil, List.length_nil, Nat.zero_add] at hlength
      · intro i hi
        by_cases heq : i = type
        · rw [← h.used i hi, heq]
          simp [Stats.incErr]
        · rw [← h.used i hi]
          simp [heq]
    · obtain ⟨rest, hrest, hpop⟩ := hfree.pop hnull
      have hmalloc : mempMalloc P k.state type =
          ({ k.state with
              tab := Function.update k.state.tab type (k.state.memory.readPtr (k.state.tab type))
              stats := Function.update k.state.stats type (k.state.stats type).incUsed },
            k.state.tab type) := by
        rw [mempMalloc, if_pos htype]
        exact if_pos hnull
      have hmem : k.state.tab type ∈ free type := by simp [hrest]
      have hnew : k.state.tab type ∉ live.map Obj.mem := by
        intro hin
        obtain ⟨o, ho, heq⟩ := List.mem_map.mp hin
        have hapart := h.free_apart hperm htype hmem ho
        have hpos := P.ptrLen_le htype
        have hpos' := P.ptrLen_le (h.types o ho)
        rw [ptrLen] at hpos hpos'
        omega
      have hroom : count live type < P.mempNum type := by
        rw [hrest, List.length_cons] at hlength
        omega
      rw [hmalloc]
      refine ⟨⟨k.state.tab type, type, k.state.memory.read (k.state.tab type) (P.mempSizes type)⟩ :: live,
        Objects.Step.malloc
          (o := ⟨k.state.tab type, type, k.state.memory.read (k.state.tab type) (P.mempSizes type)⟩)
          htype hroom hnull hnew (read_length ..), ?_⟩
      rw [if_neg hnull]
      exact {
        held := by
          rw [h.held]
          rfl
        nodup := List.nodup_cons.mpr ⟨hnew, h.nodup⟩
        types := List.forall_mem_cons.mpr ⟨htype, h.types⟩
        bytes := List.forall_mem_cons.mpr ⟨rfl, h.bytes⟩
        lists := by
          refine ⟨Function.update free type rest, fun i hi => ?_, fun i hi => ?_⟩
          · by_cases heq : i = type
            · subst heq
              simp only [Function.update_self]
              exact ⟨hpop, fun a ha => helems a (by simp [hrest, ha])⟩
            · simp only [Function.update_of_ne heq]
              exact hlists i hi
          · by_cases heq : i = type
            · subst heq
              have hmiddle := hperm i hi
              rw [hrest] at hmiddle
              rw [Function.update_self, List.filter_cons_of_pos (by simp), List.map_cons]
              exact List.perm_middle.trans hmiddle
            · rw [Function.update_of_ne heq, List.filter_cons_of_neg (by simpa using Ne.symm heq)]
              exact hperm i hi
        used := by
          intro i hi
          have hused := h.used i hi
          by_cases heq : i = type
          · subst heq
            have hlt := P.mempNum_lt i
            have hsucc : count live i + 1 < 2 ^ 16 := by omega
            simp only [Function.update_self, Stats.incUsed, hused, Nat.mod_eq_of_lt hsucc]
            simp [count]
          · simp only [Function.update_of_ne heq, hused]
            simp [count, Ne.symm heq] }
  · have hmalloc : mempMalloc P k.state type = (k.state, 0) := if_neg htype
    rw [hmalloc]
    exact ⟨live, .full fun hlt => absurd hlt htype, h⟩

/-- `memp_free` makes an object a free element again. -/
theorem free (h : Shows P k live) (ho : o ∈ live) :
    Shows P ⟨mempFree k.state o.type o.mem, k.held.filter (·.1 ≠ o.mem)⟩ (live.filter (·.mem ≠ o.mem)) := by
  obtain ⟨free, hlists, hperm⟩ := h.lists
  have htype := h.types o ho
  have helem := h.mem_elems ho
  have hroom := P.ptrLen_le htype
  have hlive := perm_filter h.nodup ho
  have hapart : ∀ i < P.mempMax, ∀ b ∈ free i, b + ptrLen ≤ o.mem ∨ o.mem + ptrLen ≤ b := by
    intro i hi b hb
    have hsize := P.ptrLen_le hi
    have := h.free_apart hperm hi hb ho
    omega
  have hhead : k.state.tab o.type < 2 ^ 64 := by
    by_cases hzero : k.state.tab o.type = 0
    · rw [hzero]
      decide
    · obtain ⟨rest, hrest, -⟩ := (hlists o.type htype).1.pop hzero
      exact P.elems_lt ((hlists o.type htype).2 _ (by simp [hrest])) htype
  have hfree : mempFree k.state o.type o.mem =
      { memory := k.state.memory.writePtr o.mem (k.state.tab o.type)
        tab := Function.update k.state.tab o.type o.mem
        stats := Function.update k.state.stats o.type (k.state.stats o.type).decUsed } :=
    if_neg (P.elems_pos helem htype)
  rw [hfree]
  exact {
    held := by
      rw [h.held, List.filter_map]
      rfl
    nodup := h.nodup.sublist (List.filter_sublist.map _)
    types := fun x hx => h.types x (List.mem_of_mem_filter hx)
    bytes := by
      intro x hx
      have hne : x.mem ≠ o.mem := by simpa using (List.mem_filter.mp hx).2
      have hx := List.mem_of_mem_filter hx
      have := h.apart ho hx hne
      rw [h.bytes x hx]
      exact (read_writePtr_apart (by omega)).symm
    lists := by
      refine ⟨Function.update free o.type (o.mem :: free o.type), fun i hi => ?_, fun i hi => ?_⟩
      · by_cases heq : i = o.type
        · subst heq
          obtain ⟨hlist, helems⟩ := hlists o.type hi
          simp only [Function.update_self]
          exact ⟨hlist.push (P.elems_pos helem htype) hhead (hapart o.type hi),
            List.forall_mem_cons.mpr ⟨helem, helems⟩⟩
        · simp only [Function.update_of_ne heq]
          obtain ⟨hlist, helems⟩ := hlists i hi
          exact ⟨hlist.write (by simpa using hapart i hi), helems⟩
      · have hfilter := (hlive.filter (·.type = i)).map Obj.mem
        by_cases heq : i = o.type
        · subst heq
          rw [List.filter_cons_of_pos (by simp), List.map_cons] at hfilter
          rw [Function.update_self]
          exact (List.perm_middle.symm.trans (hfilter.symm.append_left _)).trans (hperm o.type hi)
        · rw [List.filter_cons_of_neg (by simpa using Ne.symm heq)] at hfilter
          rw [Function.update_of_ne heq]
          exact (hfilter.symm.append_left _).trans (hperm i hi)
    used := by
      intro i hi
      have hused := h.used i hi
      have hlength := length_eq (hperm i hi)
      have hlt := P.mempNum_lt i
      have hcount : count live i = count (o :: live.filter (·.mem ≠ o.mem)) i := hlive.countP_eq _
      by_cases heq : i = o.type
      · subst heq
        simp only [count, List.countP_cons, decide_true, if_true] at hcount
        simp only [Function.update_self, Stats.decUsed, hused, count]
        rw [count] at hlength
        omega
      · simp only [Function.update_of_ne heq, hused, hcount]
        simp [count, Ne.symm heq] }

/-- What is written into an object changes this object. -/
theorem write (h : Shows P k live) (ho : o ∈ live) {off : ℕ} {bs : List UInt8}
    (hin : off + bs.length ≤ P.mempSizes o.type) :
    Shows P { k with state := { k.state with memory := k.state.memory.write (o.mem + off) bs } }
      (live.map fun x => if x.mem = o.mem then { x with bytes := splice x.bytes off bs } else x) := by
  obtain ⟨free, hlists, hperm⟩ := h.lists
  have hmem : ∀ x : Obj, (if x.mem = o.mem then { x with bytes := splice x.bytes off bs } else x).mem = x.mem := by
    intro x
    split <;> rfl
  have htype : ∀ x : Obj,
      (if x.mem = o.mem then { x with bytes := splice x.bytes off bs } else x).type = x.type := by
    intro x
    split <;> rfl
  have hapart : ∀ i < P.mempMax, ∀ b ∈ free i, b + ptrLen ≤ o.mem + off ∨ o.mem + off + bs.length ≤ b := by
    intro i hi b hb
    have hsize := P.ptrLen_le hi
    have := h.free_apart hperm hi hb ho
    omega
  exact {
    held := by
      rw [h.held, List.map_map]
      exact List.map_congr_left fun x _ => by simp only [Function.comp_apply, hmem, htype]
    nodup := by
      rw [List.map_map]
      simpa only [Function.comp_def, hmem] using h.nodup
    types := by
      intro x hx
      obtain ⟨y, hy, rfl⟩ := List.mem_map.mp hx
      rw [htype]
      exact h.types y hy
    bytes := by
      intro x hx
      obtain ⟨y, hy, rfl⟩ := List.mem_map.mp hx
      rw [hmem, htype]
      by_cases heq : y.mem = o.mem
      · obtain rfl := h.eq_of_mem hy ho heq
        rw [if_pos rfl]
        dsimp only
        rw [read_write_inside hin, h.bytes y hy]
      · have := h.apart ho hy heq
        rw [if_neg heq, h.bytes y hy]
        exact (read_write_apart (by omega)).symm
    lists := by
      refine ⟨free, hlists.write hapart, fun i hi => ?_⟩
      rw [List.filter_map, List.map_map]
      simpa only [Function.comp_def, hmem, htype] using hperm i hi
    used := by
      intro i hi
      rw [h.used i hi, count, count, List.countP_map]
      simp only [Function.comp_def, htype] }

/-- Every step of the pools is one of the objects. -/
theorem step {act : Act} {k' : Machine} (h : Shows P k live) (hstep : (machine P).step k act k') :
    ∃ live', (objects P).step live act live' ∧ Shows P k' live' := by
  cases hstep with
  | malloc type => exact h.malloc type
  | @free type mem hheld =>
    rcases hheld with rfl | hheld
    · refine ⟨live, .nothing, ?_⟩
      have hfilter : k.held.filter (·.1 ≠ 0) = k.held := by
        refine List.filter_eq_self.mpr fun x hx => decide_eq_true ?_
        obtain ⟨o, ho, hmem, -⟩ := h.of_held (show (x.1, x.2) ∈ k.held from hx)
        exact hmem ▸ P.elems_pos (h.mem_elems ho) (h.types o ho)
      rw [hfilter]
      exact h
    · obtain ⟨o, ho, rfl, rfl⟩ := h.of_held hheld
      exact ⟨_, .free ho, h.free ho⟩
  | write hheld hin =>
    obtain ⟨o, ho, rfl, rfl⟩ := h.of_held hheld
    exact ⟨_, .write ho (by rwa [h.bytes o ho, read_length]), h.write ho hin⟩
  | read hheld hin =>
    obtain ⟨o, ho, rfl, rfl⟩ := h.of_held hheld
    have hlen : o.bytes.length = P.mempSizes o.type := by rw [h.bytes o ho, read_length]
    rw [read_part hin, ← h.bytes o ho]
    exact ⟨live, .read ho (hlen.symm ▸ hin), h⟩
  | used htype =>
    rw [h.used _ htype]
    exact ⟨live, .used htype, h⟩

end Shows

/-- The pools are a store of separate objects: whatever the clients do with what they have, everything
they see is what such a store shows, and what they have are its objects. -/
theorem pools_are_objects {P : Pools} {as : List Act} {k : Machine}
    (h : (machine P).Run (fun _ _ => True) as k) :
    ∃ live, (objects P).Run (fun _ _ => True) as live ∧ k.held = live.map fun o => (o.mem, o.type) := by
  have hshows : ∃ live, (objects P).Run (fun _ _ => True) as live ∧ Shows P k live := by
    induction h with
    | start hstart => exact ⟨[], .start rfl, Shows.init hstart⟩
    | snoc _ _ hstep ih =>
      obtain ⟨live, hrun, hlive⟩ := ih
      obtain ⟨live', hstep', hlive'⟩ := hlive.step hstep
      exact ⟨live', hrun.snoc trivial hstep', hlive'⟩
  obtain ⟨live, hrun, hlive⟩ := hshows
  exact ⟨live, hrun, hlive.held⟩

/-- One element, which one client gets and writes to; a second one gets nothing. -/
theorem pools_are_objects_single :
    ∃ P : Pools, P.descs = [⟨1, 8⟩] ∧ ∃ live,
      (objects P).Run (fun _ _ => True) [.malloc 0 1, .write 1 2 [7], .malloc 0 0, .used 0 1] live ∧
        [(1, 0)] = live.map fun o => (o.mem, o.type) := by
  let P : Pools := ⟨[⟨1, 8⟩], 1, by decide, by decide, by decide, by decide⟩
  let k₀ : Machine := ⟨mempInit P (fun _ => 0) (fun _ => 0), []⟩
  let k₁ : Machine := ⟨(mempMalloc P k₀.state 0).1, [(1, 0)]⟩
  let k₂ : Machine := { k₁ with state := { k₁.state with memory := k₁.state.memory.write (1 + 2) [7] } }
  have h₀ : (machine P).Run (fun _ _ => True) [] k₀ := .start ⟨rfl, _, _, rfl⟩
  have h₁ : (machine P).Run (fun _ _ => True) [.malloc 0 1] k₁ := h₀.snoc trivial (.malloc 0)
  have h₂ : (machine P).Run (fun _ _ => True) [.malloc 0 1, .write 1 2 [7]] k₂ :=
    h₁.snoc trivial (Machine.Step.write (show (1, 0) ∈ [(1, 0)] by decide) (by decide))
  have hheld : k₂.held = [(1, 0)] := rfl
  have hfull : (mempMalloc P k₂.state 0).2 = 0 := by decide +kernel
  have hused : ((mempMalloc P k₂.state 0).1.stats 0).used = 1 := by decide +kernel
  clear_value k₂
  have hstep : Machine.Step P k₂ (.malloc 0 0) ⟨(mempMalloc P k₂.state 0).1, k₂.held⟩ := by
    have hmalloc := Machine.Step.malloc (P := P) (k := k₂) 0
    rwa [hfull, if_pos rfl] at hmalloc
  have hlook : Machine.Step P ⟨(mempMalloc P k₂.state 0).1, k₂.held⟩ (.used 0 1)
      ⟨(mempMalloc P k₂.state 0).1, k₂.held⟩ := by
    rw [← hused]
    exact .used (show 0 < 1 by decide)
  have hrun := (h₂.snoc trivial hstep).snoc trivial hlook
  obtain ⟨live, hobjects, hlive⟩ := pools_are_objects hrun
  exact ⟨P, rfl, live, hobjects, hheld.symm.trans hlive⟩

end QuietLwip.Memp
