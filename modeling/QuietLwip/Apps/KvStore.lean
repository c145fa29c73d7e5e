import Mathlib.Data.List.Sort
import Mathlib.Data.Vector.Basic
import Mathlib.Data.List.Lex
import QuietLwip.Foundation.BinarySearch

/-!
# The store of the key-value server

`kv_server.c` keeps its pairs in an array that is doubled when it is full and sorted by `kv_compare` after
every insertion; `key_value_find` is a binary search in it. What the store is for is a finite map from keys
to values. Allocation succeeds, as the program takes for granted.
-/

namespace QuietLwip.Apps.KvStore

def kvNumItemsInit : ℕ := 8
def keyLen : ℕ := 32
def valueLen : ℕ := 32

abbrev Key := List.Vector UInt8 keyLen
abbrev Value := List.Vector UInt8 valueLen

/-- A `kv_t` with the bytes that its two pointers lead to. -/
@[ext]
structure Kv where
  key : Key
  value : Value
  deriving DecidableEq

/-- A slot from `calloc` -/
def Kv.zero : Kv := ⟨.replicate keyLen 0, .replicate valueLen 0⟩

def memcmp : List UInt8 → List UInt8 → ℤ
  | a :: l, b :: r => if a = b then memcmp l r else (a.toNat : ℤ) - b.toNat
  | _, _ => 0

/-- `memcpy` of the first `n` bytes of `src` into a buffer of the same size -/
def memcpy {m : ℕ} (dst src : List.Vector UInt8 m) (n : ℕ) : List.Vector UInt8 m :=
  ⟨src.toList.take n ++ dst.toList.drop n, by simp; omega⟩

/-- `kv_compare` -/
def kvCompare (l r : Kv) : ℤ := memcmp l.key.toList r.key.toList

/-- `qsort` of the C library leaves open in which order it puts elements that compare equal. -/
structure Qsort (α : Type*) (compar : α → α → ℤ) where
  sort : List α → List α
  perm : ∀ l, (sort l).Perm l
  ascending : ∀ l, (sort l).Pairwise fun a b => compar a b ≤ 0

/-- `key_value_t` -/
structure Store where
  kv : List Kv
  numItems : ℕ
  cap : ℕ
  deriving DecidableEq

/-- `key_value_init` -/
def keyValueInit : Store := ⟨.replicate kvNumItemsInit Kv.zero, 0, kvNumItemsInit⟩

/-- The slots that are in use -/
def Store.items (s : Store) : List Kv := s.kv.take s.numItems

/-- `key_value_find`: the index of the entry, where the code returns its address -/
def keyValueFind (s : Store) (k : Kv) : Option ℕ := BinarySearch.search (kvCompare k) s.items

/-- The entry that `key_value_find` points to -/
def Store.entry (s : Store) (k : Kv) : Option Kv := (keyValueFind s k).bind fun i => s.kv[i]?

/-- The resizing in `key_value_add` -/
def Store.grow (s : Store) : Store :=
  if s.numItems = s.cap then
    { s with kv := s.kv ++ .replicate s.cap Kv.zero, cap := s.cap * 2 }
  else s

/-- The copy into the slot behind the last one -/
def Store.append (s : Store) (pair : Kv) : Store :=
  { s with
    kv := s.kv.modify s.numItems fun slot =>
      ⟨memcpy slot.key pair.key (keyLen - 1), memcpy slot.value pair.value (valueLen - 1)⟩
    numItems := s.numItems + 1 }

def Store.qsort (qs : Qsort Kv kvCompare) (s : Store) : Store :=
  { s with kv := qs.sort s.items ++ s.kv.drop s.numItems }

/-- `key_value_add` -/
def keyValueAdd (qs : Qsort Kv kvCompare) (s : Store) (pair : Kv) : Store :=
  match keyValueFind s pair with
  | some offset =>
    { s with
      kv := s.kv.modify offset fun e => { e with value := memcpy e.value pair.value (valueLen - 1) } }
  | none => (s.grow.append pair).qsort qs

inductive Op where
  | add (pair : Kv)
  | find (k : Kv)

/-- `key_value_find` writes nothing. -/
def step (qs : Qsort Kv kvCompare) (s : Store) : Op → Store
  | .add pair => keyValueAdd qs s pair
  | .find _ => s

def run (qs : Qsort Kv kvCompare) (ops : List Op) : Store := ops.foldl (step qs) keyValueInit

/-! ## The finite map -/

abbrev Model := Key → Option Value

def Model.step (m : Model) : Op → Model
  | .add pair => Function.update m pair.key (some pair.value)
  | .find _ => m

def Model.run (ops : List Op) : Model := ops.foldl Model.step fun _ => none

/-- A value without its last byte, the place of the terminator -/
def text (v : Value) : List UInt8 := v.toList.take (valueLen - 1)

/-- The store shows the map `m`: it is sorted with different keys, and looking a key up gives the entry
for that key with the value of the map. -/
structure Refines (m : Model) (s : Store) : Prop where
  sorted : s.items.Pairwise fun a b => kvCompare a b ≤ 0
  keys_nodup : (s.items.map (·.key)).Nodup
  numItems_le : s.numItems ≤ s.cap
  length_eq : s.kv.length = s.cap
  entry_eq : ∀ k : Kv, (s.entry k).map (fun e => (e.key, text e.value))
    = (m k.key).map fun v => (k.key, text v)

/-- The byte that the insertion does not copy is 0. -/
def Terminated (k : Key) : Prop := k.toList.drop (keyLen - 1) = [0]

instance (k : Key) : Decidable (Terminated k) := inferInstanceAs (Decidable (_ = _))

/-! ## The order of the keys -/

theorem memcmp_swap (l r : List UInt8) : memcmp r l = -memcmp l r := by
  induction l generalizing r with
  | nil => cases r <;> rfl
  | cons a l ih =>
    cases r with
    | nil => rfl
    | cons b r =>
      by_cases hab : a = b
      · simp only [memcmp, if_pos hab, if_pos hab.symm, ih]
      · simp only [memcmp, if_neg hab, if_neg (Ne.symm hab)]
        omega

theorem memcmp_eq_zero {l r : List UInt8} (h : l.length = r.length) : memcmp l r = 0 ↔ l = r := by
  induction l generalizing r with
  | nil => simp [List.length_eq_zero_iff.mp h.symm, memcmp]
  | cons a l ih =>
    cases r with
    | nil => cases h
    | cons b r =>
      by_cases hab : a = b
      · rw [memcmp, if_pos hab, ih (Nat.succ.inj h), hab, List.cons_inj_right]
      · have hne : a.toNat ≠ b.toNat := fun heq => hab (UInt8.toNat_inj.mp heq)
        rw [memcmp, if_neg hab]
        simp only [List.cons.injEq, hab, false_and, iff_false]
        omega

/-- `memcmp` is the lexicographic order of the bytes as numbers. -/
theorem memcmp_neg {l r : List UInt8} (h : l.length = r.length) :
    memcmp l r < 0 ↔ l.map UInt8.toNat < r.map UInt8.toNat := by
  induction l generalizing r with
  | nil => simp [List.length_eq_zero_iff.mp h.symm, memcmp]
  | cons a l ih =>
    cases r with
    | nil => cases h
    | cons b r =>
      rw [List.map_cons, List.map_cons, List.cons_lt_cons_iff]
      by_cases hab : a = b
      · rw [memcmp, if_pos hab, ih (Nat.succ.inj h), hab]
        simp
      · have hne : a.toNat ≠ b.toNat := fun heq => hab (UInt8.toNat_inj.mp heq)
        rw [memcmp, if_neg hab]
        simp only [hne, false_and, or_false]
        omega

/-- The place of a key in the order -/
def rank (k : Key) : List ℕ := k.toList.map UInt8.toNat

theorem key_lengths (a b : Key) : a.toList.length = b.toList.length := by simp

theorem kvCompare_neg (a b : Kv) : kvCompare a b < 0 ↔ rank a.key < rank b.key :=
  memcmp_neg (key_lengths a.key b.key)

theorem kvCompare_pos (a b : Kv) : 0 < kvCompare a b ↔ rank b.key < rank a.key := by
  rw [← kvCompare_neg b a, kvCompare, kvCompare, memcmp_swap]
  omega

theorem kvCompare_nonpos (a b : Kv) : kvCompare a b ≤ 0 ↔ rank a.key ≤ rank b.key := by
  rw [← not_lt, kvCompare_pos, not_lt]

theorem kvCompare_eq_zero (a b : Kv) : kvCompare a b = 0 ↔ a.key = b.key := by
  rw [kvCompare, memcmp_eq_zero (key_lengths a.key b.key)]
  exact ⟨List.Vector.eq a.key b.key, fun h => by rw [h]⟩

/-- A sorted array is what the binary search needs, whatever key it looks for. -/
theorem falling_of_sorted {l : List Kv} (h : l.Pairwise fun a b => kvCompare a b ≤ 0) (k : Kv) :
    BinarySearch.Falling (kvCompare k) l := by
  refine h.imp fun {a b} hab => ?_
  rw [kvCompare_nonpos] at hab
  rw [kvCompare_neg, kvCompare_neg, kvCompare_pos, kvCompare_pos]
  exact ⟨fun hlt => lt_of_lt_of_le hlt hab, fun hlt => lt_of_le_of_lt hab hlt⟩

/-! ## Copies -/

theorem take_memcpy {m n : ℕ} (dst src : List.Vector UInt8 m) (h : n ≤ m) :
    (memcpy dst src n).toList.take n = src.toList.take n :=
  List.take_left' (by simpa using h)

theorem drop_memcpy {m n : ℕ} (dst src : List.Vector UInt8 m) (h : n ≤ m) :
    (memcpy dst src n).toList.drop n = dst.toList.drop n :=
  List.drop_left' (by simpa using h)

theorem text_memcpy (dst src : Value) : text (memcpy dst src (valueLen - 1)) = text src :=
  take_memcpy dst src (by decide)

/-- What a new pair looks like in its slot -/
def stored (pair : Kv) : Kv :=
  ⟨memcpy Kv.zero.key pair.key (keyLen - 1), memcpy Kv.zero.value pair.value (valueLen - 1)⟩

/-- The last byte of a stored key is the one of the empty slot. -/
theorem stored_terminated (pair : Kv) : Terminated (stored pair).key :=
  drop_memcpy Kv.zero.key pair.key (by decide)

theorem stored_key {pair : Kv} (h : Terminated pair.key) : (stored pair).key = pair.key := by
  apply List.Vector.eq
  rw [← List.take_append_drop (keyLen - 1) pair.key.toList, h,
    ← List.take_append_drop (keyLen - 1) (stored pair).key.toList, stored_terminated pair]
  exact congrArg (· ++ [0]) (take_memcpy Kv.zero.key pair.key (by decide))

theorem text_stored (pair : Kv) : text (stored pair).value = text pair.value :=
  text_memcpy Kv.zero.value pair.value

/-! ## The invariant -/

/-- The keys in use, in the order of the array -/
def Store.keys (s : Store) : List Key := s.items.map (·.key)

/-- What every run keeps, whatever keys are added -/
structure Inv (s : Store) : Prop where
  cap_pos : 0 < s.cap
  numItems_le : s.numItems ≤ s.cap
  length_eq : s.kv.length = s.cap
  free : ∀ e ∈ s.kv.drop s.numItems, e = Kv.zero
  sorted : s.items.Pairwise fun a b => kvCompare a b ≤ 0
  terminated : ∀ k ∈ s.keys, Terminated k

variable {qs : Qsort Kv kvCompare} {s : Store} {pair k e : Kv} {i : ℕ}

theorem Inv.init : Inv keyValueInit where
  cap_pos := by decide
  numItems_le := by decide
  length_eq := by decide
  free := fun _ he => List.eq_of_mem_replicate (List.mem_of_mem_drop he)
  sorted := List.Pairwise.nil
  terminated := fun _ hk => (List.not_mem_nil hk).elim

theorem Inv.items_length (h : Inv s) : s.items.length = s.numItems :=
  List.length_take_of_le (h.length_eq ▸ h.numItems_le)

/-- What is found is an entry in use, and it has the key that was asked for. -/
theorem find_eq_some (h : keyValueFind s k = some i) :
    ∃ e, s.items[i]? = some e ∧ s.kv[i]? = some e ∧ e.key = k.key := by
  obtain ⟨e, he, hcmp⟩ := BinarySearch.search_eq_some h
  have hi : i < s.numItems := by
    have := (List.getElem?_eq_some_iff.mp he).1
    exact lt_of_lt_of_le this (List.length_take_le _ _)
  refine ⟨e, he, ?_, ((kvCompare_eq_zero k e).mp hcmp).symm⟩
  rwa [Store.items, List.getElem?_take_of_lt hi] at he

theorem Inv.find_eq_none (h : Inv s) (hnone : keyValueFind s k = none) : k.key ∉ s.keys := by
  intro hmem
  obtain ⟨e, he, hkey⟩ := List.mem_map.mp hmem
  exact BinarySearch.search_eq_none (falling_of_sorted h.sorted k) hnone e he
    ((kvCompare_eq_zero k e).mpr hkey.symm)

/-! ## What an addition does to the entries -/

theorem map_modify {α β : Type*} {g : α → β} (f : α → α) (h : ∀ a, g (f a) = g a) (l : List α)
    (i : ℕ) :
    (l.modify i f).map g = l.map g := by
  induction l generalizing i with
  | nil => rw [List.modify_nil]
  | cons a l ih =>
    cases i with
    | zero => rw [List.modify_zero_cons, List.map_cons, List.map_cons, h]
    | succ i => rw [List.modify_succ_cons, List.map_cons, List.map_cons, ih]

/-- The entry with the value of `pair` copied over its own -/
def overwriteValue (pair e : Kv) : Kv := { e with value := memcpy e.value pair.value (valueLen - 1) }

theorem add_of_some (h : keyValueFind s pair = some i) : keyValueAdd qs s pair
    = { s with kv := s.kv.modify i (overwriteValue pair) } := by
  rw [keyValueAdd, h]
  rfl

theorem add_of_none (h : keyValueFind s pair = none) :
    keyValueAdd qs s pair = (s.grow.append pair).qsort qs := by
  rw [keyValueAdd, h]

theorem items_update (f : Kv → Kv) (i : ℕ) :
    ({ s with kv := s.kv.modify i f } : Store).items = s.items.modify i f :=
  List.take_modify f i s.numItems s.kv

theorem keys_update (i : ℕ) :
    ({ s with kv := s.kv.modify i (overwriteValue pair) } : Store).keys = s.keys := by
  rw [Store.keys, items_update]
  exact map_modify (overwriteValue pair) (fun _ => rfl) s.items i

theorem grow_items (h : Inv s) : s.grow.items = s.items := by
  have hle : s.numItems ≤ s.kv.length := h.length_eq ▸ h.numItems_le
  rw [Store.grow]
  split
  · exact List.take_append_of_le_length hle
  · rfl

theorem Inv.grow (h : Inv s) : Inv s.grow := by
  have hle : s.numItems ≤ s.kv.length := h.length_eq ▸ h.numItems_le
  by_cases hfull : s.numItems = s.cap
  · have hgrow : s.grow = { s with kv := s.kv ++ .replicate s.cap Kv.zero, cap := s.cap * 2 } := if_pos hfull
    have hitems := grow_items h
    rw [hgrow] at hitems ⊢
    exact {
      cap_pos := Nat.mul_pos h.cap_pos two_pos
      numItems_le := h.numItems_le.trans (Nat.le_mul_of_pos_right s.cap two_pos)
      length_eq := by simp only [List.length_append, List.length_replicate, h.length_eq, Nat.mul_two]
      free := by
        simp only [List.drop_append_of_le_length hle]
        intro e he
        rcases List.mem_append.mp he with he | he
        · exact h.free e he
        · exact List.eq_of_mem_replicate he
      sorted := hitems ▸ h.sorted
      terminated := by
        rw [Store.keys, hitems]
        exact h.terminated }
  · rwa [Store.grow, if_neg hfull]

theorem grow_room (h : Inv s) : s.grow.numItems < s.grow.cap := by
  have hpos := h.cap_pos
  have hle := h.numItems_le
  rw [Store.grow]
  split
  · show s.numItems < s.cap * 2
    omega
  · omega

/-- The slot behind the last one is empty, so that it holds afterwards what `stored` says. -/
theorem append_items (h : Inv s) (hroom : s.numItems < s.cap) :
    (s.append pair).items = s.items ++ [stored pair] := by
  have hlt : s.numItems < s.kv.length := h.length_eq ▸ hroom
  have hzero : s.kv[s.numItems] = Kv.zero :=
    h.free _ (List.mem_drop_iff_getElem.mpr ⟨0, by omega, rfl⟩)
  rw [Store.items, Store.append]
  simp only [List.modify_eq_take_cons_drop hlt, hzero]
  rw [← List.singleton_append, ← List.append_assoc]
  exact List.take_left' (by simp only [List.length_append, List.length_take, List.length_singleton]; omega)

theorem append_free (h : Inv s) : ∀ e ∈ (s.append pair).kv.drop (s.append pair).numItems, e = Kv.zero := by
  rw [Store.append]
  simp only [List.drop_modify_of_lt _ _ _ _ (Nat.lt_succ_self _)]
  intro e he
  exact h.free e ((List.drop_sublist_drop_left s.kv (Nat.le_succ _)).mem he)

theorem sort_length (hlen : s.numItems ≤ s.kv.length) : (qs.sort s.items).length = s.numItems :=
  (qs.perm s.items).length_eq.trans (List.length_take_of_le hlen)

theorem qsort_items (hlen : s.numItems ≤ s.kv.length) : (s.qsort qs).items = qs.sort s.items :=
  List.take_left' (sort_length hlen)

theorem qsort_drop (hlen : s.numItems ≤ s.kv.length) :
    (s.qsort qs).kv.drop (s.qsort qs).numItems = s.kv.drop s.numItems :=
  List.drop_left' (sort_length hlen)

theorem sorted_iff : (s.items.Pairwise fun a b => kvCompare a b ≤ 0)
    ↔ s.keys.Pairwise fun a b => rank a ≤ rank b := by
  rw [Store.keys, List.pairwise_map]
  simp only [kvCompare_nonpos]

/-- An insertion puts the stored pair somewhere among the entries. -/
theorem insert_items (h : Inv s) :
    ((s.grow.append pair).qsort qs).items = qs.sort (s.items ++ [stored pair]) := by
  have hroom := grow_room h
  have hlen : (s.grow.append pair).numItems ≤ (s.grow.append pair).kv.length := by
    have := h.grow.length_eq
    simp only [Store.append, List.length_modify]
    omega
  rw [qsort_items hlen, append_items h.grow hroom, grow_items h]

theorem insert_perm (h : Inv s) :
    ((s.grow.append pair).qsort qs).items.Perm (s.items ++ [stored pair]) :=
  insert_items h ▸ qs.perm _

theorem Inv.update (h : Inv s) (hfind : keyValueFind s pair = some i) :
    Inv { s with kv := s.kv.modify i (overwriteValue pair) } := by
  obtain ⟨e, he, -, -⟩ := find_eq_some hfind
  have hi : i < s.numItems := h.items_length ▸ (List.getElem?_eq_some_iff.mp he).1
  exact {
    cap_pos := h.cap_pos
    numItems_le := h.numItems_le
    length_eq := (List.length_modify _ _ _).trans h.length_eq
    free := by
      simp only [List.drop_modify_of_lt _ _ _ _ hi]
      exact h.free
    sorted := by
      rw [sorted_iff, keys_update]
      exact sorted_iff.mp h.sorted
    terminated := by
      rw [keys_update]
      exact h.terminated }

theorem Inv.insert (h : Inv s) : Inv ((s.grow.append pair).qsort qs) := by
  have hroom := grow_room h
  have hlength : (s.grow.append pair).kv.length = s.grow.cap :=
    (List.length_modify _ _ _).trans h.grow.length_eq
  exact {
    cap_pos := h.grow.cap_pos
    numItems_le := hroom
    length_eq := by
      show (qs.sort _ ++ List.drop _ _).length = s.grow.cap
      rw [List.length_append, sort_length (hlength ▸ hroom), List.length_drop, hlength]
      exact Nat.add_sub_of_le hroom
    free := by
      rw [qsort_drop (hlength ▸ hroom)]
      exact append_free h.grow
    sorted := insert_items h ▸ qs.ascending _
    terminated := by
      intro k hk
      obtain ⟨e, he, rfl⟩ := List.mem_map.mp hk
      rcases List.mem_append.mp ((insert_perm h).mem_iff.mp he) with he | he
      · exact h.terminated e.key (List.mem_map_of_mem he)
      · rw [List.mem_singleton.mp he]
        exact stored_terminated pair }

theorem Inv.step (h : Inv s) (op : Op) : Inv (step qs s op) := by
  cases op with
  | find k => exact h
  | add pair =>
    show Inv (keyValueAdd qs s pair)
    cases hfind : keyValueFind s pair with
    | none =>
      rw [add_of_none hfind]
      exact h.insert
    | some i =>
      rw [add_of_some hfind]
      exact h.update hfind

theorem run_concat (ops : List Op) (op : Op) : run qs (ops ++ [op]) = step qs (run qs ops) op := by
  rw [run, run, List.foldl_concat]

theorem Inv.run (ops : List Op) : Inv (run qs ops) := by
  induction ops using List.reverseRecOn with
  | nil => exact Inv.init
  | append_singleton ops op ih =>
    rw [run_concat]
    exact ih.step op

/-! ## The refinement -/

/-- An entry in use has the key `k` and the text `t`. -/
def Holds (s : Store) (k : Key) (t : List UInt8) : Prop := ∃ e ∈ s.items, e.key = k ∧ text e.value = t

/-- The entries are the map `m`, with one entry for a key. -/
structure Represents (m : Model) (s : Store) : Prop where
  nodup : s.keys.Nodup
  holds_iff : ∀ k t, Holds s k t ↔ (m k).map text = some t

variable {m : Model} {key : Key} {t : List UInt8}

theorem modify_eq_map {α β : Type*} [DecidableEq β] {g : α → β} {l : List α} {a : α} (f : α → α)
    (hnodup : (l.map g).Nodup) (ha : l[i]? = some a) :
    l.modify i f = l.map fun b => if g b = g a then f b else b := by
  induction l generalizing i with
  | nil => cases ha
  | cons b l ih =>
    rw [List.map_cons, List.nodup_cons] at hnodup
    cases i with
    | zero =>
      cases ha
      have hother : ∀ c ∈ l, (if g c = g a then f c else c) = c := by
        intro c hc
        exact if_neg fun heq : g c = g a => hnodup.1 (heq ▸ List.mem_map_of_mem hc)
      rw [List.modify_zero_cons, List.map_cons, if_pos rfl, List.map_congr_left hother, List.map_id']
    | succ i =>
      have hmem : a ∈ l := List.mem_of_getElem? ha
      have hne : g b ≠ g a := fun heq => hnodup.1 (heq ▸ List.mem_map_of_mem hmem)
      rw [List.modify_succ_cons, List.map_cons, if_neg hne, ih hnodup.2 ha]

theorem holds_insert (h : Inv s) (hnew : pair.key ∉ s.keys) (hterm : Terminated pair.key) :
    Holds ((s.grow.append pair).qsort qs) key t
      ↔ key = pair.key ∧ t = text pair.value ∨ key ≠ pair.key ∧ Holds s key t := by
  have hmem : ∀ e, e ∈ ((s.grow.append pair).qsort qs).items ↔ e ∈ s.items ∨ e = stored pair := by
    intro e
    rw [(insert_perm h).mem_iff, List.mem_append, List.mem_singleton]
  constructor
  · rintro ⟨e, he, rfl, rfl⟩
    rcases (hmem e).mp he with he | rfl
    · exact .inr ⟨fun heq => hnew (heq ▸ List.mem_map_of_mem he), e, he, rfl, rfl⟩
    · exact .inl ⟨stored_key hterm, text_stored pair⟩
  · rintro (⟨rfl, rfl⟩ | ⟨-, e, he, hkey, htext⟩)
    · exact ⟨stored pair, (hmem _).mpr (.inr rfl), stored_key hterm, text_stored pair⟩
    · exact ⟨e, (hmem e).mpr (.inl he), hkey, htext⟩

theorem holds_update (hnodup : s.keys.Nodup) (he : s.items[i]? = some e) (hkey : e.key = pair.key) :
    Holds { s with kv := s.kv.modify i (overwriteValue pair) } key t
      ↔ key = pair.key ∧ t = text pair.value ∨ key ≠ pair.key ∧ Holds s key t := by
  have hitems : ({ s with kv := s.kv.modify i (overwriteValue pair) } : Store).items
      = s.items.map fun b => if b.key = pair.key then overwriteValue pair b else b := by
    rw [items_update, modify_eq_map (overwriteValue pair) hnodup he, hkey]
  rw [Holds, hitems]
  simp only [List.mem_map, exists_exists_and_eq_and]
  constructor
  · rintro ⟨b, hb, hk, ht⟩
    by_cases hbk : b.key = pair.key
    · rw [if_pos hbk] at hk ht
      exact .inl ⟨hk.symm.trans hbk, ht.symm.trans (text_memcpy b.value pair.value)⟩
    · rw [if_neg hbk] at hk ht
      exact .inr ⟨hk ▸ hbk, b, hb, hk, ht⟩
  · rintro (⟨rfl, rfl⟩ | ⟨hne, c, hc, rfl, rfl⟩)
    · refine ⟨e, List.mem_of_getElem? he, ?_⟩
      rw [if_pos hkey]
      exact ⟨hkey, text_memcpy e.value pair.value⟩
    · refine ⟨c, hc, ?_⟩
      rw [if_neg hne]
      exact ⟨rfl, rfl⟩

theorem model_add : (Function.update m pair.key (some pair.value) key).map text = some t
    ↔ key = pair.key ∧ t = text pair.value ∨ key ≠ pair.key ∧ (m key).map text = some t := by
  by_cases heq : key = pair.key
  · subst heq
    simp [eq_comm]
  · simp [heq]

theorem Represents.add (hr : Represents m s) (h : Inv s) (hterm : Terminated pair.key) :
    Represents (m.step (.add pair)) (keyValueAdd qs s pair) := by
  cases hfind : keyValueFind s pair with
  | none =>
    have hnew := h.find_eq_none hfind
    rw [add_of_none hfind]
    constructor
    · have hperm : ((s.grow.append pair).qsort qs).keys.Perm (s.keys ++ [pair.key]) := by
        rw [← stored_key hterm, Store.keys, Store.keys]
        simpa only [List.map_append, List.map_cons, List.map_nil] using (insert_perm h).map (·.key)
      rw [hperm.nodup_iff, List.nodup_append]
      refine ⟨hr.nodup, List.nodup_singleton _, fun k hk k' hk' => ?_⟩
      rw [List.mem_singleton.mp hk']
      exact fun heq => hnew (heq ▸ hk)
    · intro k t
      rw [holds_insert h hnew hterm, hr.holds_iff]
      exact model_add.symm
  | some i =>
    obtain ⟨e, he, -, hkey⟩ := find_eq_some hfind
    rw [add_of_some hfind]
    constructor
    · rw [keys_update]
      exact hr.nodup
    · intro k t
      rw [holds_update hr.nodup he hkey, hr.holds_iff]
      exact model_add.symm

theorem model_run_concat (ops : List Op) (op : Op) :
    Model.run (ops ++ [op]) = (Model.run ops).step op := by
  rw [Model.run, Model.run, List.foldl_concat]

theorem represents_run (ops : List Op) (hterm : ∀ pair, Op.add pair ∈ ops → Terminated pair.key) :
    Represents (Model.run ops) (run qs ops) := by
  induction ops using List.reverseRecOn with
  | nil =>
    refine ⟨List.nodup_nil, fun k t => ⟨?_, fun h => by cases h⟩⟩
    rintro ⟨e, he, -⟩
    exact (List.not_mem_nil he).elim
  | append_singleton ops op ih =>
    have hr := ih fun pair hmem => hterm pair (List.mem_append_left _ hmem)
    rw [run_concat, model_run_concat]
    cases op with
    | find k => exact hr
    | add pair => exact hr.add (Inv.run ops) (hterm pair (by simp))

theorem Represents.entry_eq (hr : Represents m s) (h : Inv s) (k : Kv) :
    (s.entry k).map (fun e => (e.key, text e.value)) = (m k.key).map fun v => (k.key, text v) := by
  cases hfind : keyValueFind s k with
  | none =>
    have hnone : m k.key = none := by
      cases hm : m k.key with
      | none => rfl
      | some v =>
        obtain ⟨e, he, hkey, -⟩ := (hr.holds_iff k.key (text v)).mpr (by rw [hm]; rfl)
        exact (h.find_eq_none hfind (hkey ▸ List.mem_map_of_mem he)).elim
    rw [Store.entry, hfind, hnone]
    rfl
  | some i =>
    obtain ⟨e, he, hkv, hkey⟩ := find_eq_some hfind
    have hheld := (hr.holds_iff k.key (text e.value)).mp ⟨e, List.mem_of_getElem? he, hkey, rfl⟩
    obtain ⟨v, hv, htext⟩ := Option.map_eq_some_iff.mp hheld
    rw [Store.entry, hfind, hv, Option.bind_some, hkv, Option.map_some, Option.map_some, hkey, htext]

theorem Represents.refines (hr : Represents m s) (h : Inv s) : Refines m s where
  sorted := h.sorted
  keys_nodup := hr.nodup
  numItems_le := h.numItems_le
  length_eq := h.length_eq
  entry_eq := hr.entry_eq h

/-- A key whose last byte is not 0 is in no slot. -/
theorem Refines.terminated (hr : Refines m s) (h : Inv s) (hm : m pair.key ≠ none) :
    Terminated pair.key := by
  obtain ⟨v, hv⟩ := Option.ne_none_iff_exists'.mp hm
  have heq := hr.entry_eq pair
  cases hfind : keyValueFind s pair with
  | none =>
    rw [Store.entry, hfind, hv] at heq
    cases heq
  | some i =>
    obtain ⟨e, he, -, hkey⟩ := find_eq_some hfind
    exact hkey ▸ h.terminated e.key (List.mem_map_of_mem (List.mem_of_getElem? he))

theorem model_ne_none {ops : List Op} (hmem : Op.add pair ∈ ops) : Model.run ops pair.key ≠ none := by
  induction ops using List.reverseRecOn with
  | nil => cases hmem
  | append_singleton ops op ih =>
    rw [model_run_concat]
    rcases List.mem_append.mp hmem with hold | hnew
    · cases op with
      | find k => exact ih hold
      | add other =>
        rw [Model.step]
        by_cases heq : pair.key = other.key
        · rw [heq, Function.update_self]
          exact Option.some_ne_none _
        · rw [Function.update_of_ne heq]
          exact ih hold
    · rw [← List.mem_singleton.mp hnew, Model.step, Function.update_self]
      exact Option.some_ne_none _

/-- The store is a finite map, for exactly the sequences that add no key with a last byte other than 0:
the last byte of a key is the place of its terminator, as that of a value is. -/
theorem refines_iff (qs : Qsort Kv kvCompare) (ops : List Op) :
    Refines (Model.run ops) (run qs ops) ↔ ∀ pair, Op.add pair ∈ ops → Terminated pair.key :=
  ⟨fun hr _ hmem => hr.terminated (Inv.run ops) (model_ne_none hmem),
    fun hterm => (represents_run ops hterm).refines (Inv.run ops)⟩

/-- A `qsort` that leaves equal elements in their order -/
def Qsort.insertion : Qsort Kv kvCompare where
  sort := List.insertionSort fun a b => kvCompare a b ≤ 0
  perm := List.perm_insertionSort _
  ascending := by
    have htotal : Std.Total fun a b : Kv => kvCompare a b ≤ 0 := ⟨fun a b => by
      rw [kvCompare_nonpos, kvCompare_nonpos]
      exact le_total _ _⟩
    have htrans : IsTrans Kv fun a b => kvCompare a b ≤ 0 := ⟨fun a b c hab hbc => by
      rw [kvCompare_nonpos] at hab hbc ⊢
      exact hab.trans hbc⟩
    exact List.pairwise_insertionSort _

/-- A pair whose key fills its 32 bytes -/
def fullPair : Kv := ⟨.replicate keyLen 0x61, .replicate valueLen 0x62⟩

/-- A full key is not found after it was added, and adding it again gives two equal keys. -/
theorem refines_full_key :
    ((run Qsort.insertion [.add fullPair]).entry fullPair = none
      ∧ Model.run [.add fullPair] fullPair.key = some fullPair.value)
    ∧ ¬ ((run Qsort.insertion [.add fullPair, .add fullPair]).items.map (·.key)).Nodup
    ∧ ¬ Refines (Model.run [.add fullPair]) (run Qsort.insertion [.add fullPair]) := by
  have hentry : (run Qsort.insertion [.add fullPair]).entry fullPair = none := by decide +kernel
  have hmodel : Model.run [.add fullPair] fullPair.key = some fullPair.value := by decide +kernel
  refine ⟨⟨hentry, hmodel⟩, by decide +kernel, fun h => ?_⟩
  have heq := h.entry_eq fullPair
  rw [hentry, hmodel] at heq
  cases heq

/-! ## The pairs of the server

`main` builds the pair of an `ADD:` message from the buffer of the connection: the key ends in front of the
first `=`, which is looked for in 32 bytes.
-/

/-- `strlen(recv_add_str)` -/
def keyOffset : ℕ := 4
def addDelim : UInt8 := 0x3d

/-- A difference as a `size_t` -/
def sizeT (n : ℤ) : ℕ := (n % 2 ^ 64).toNat

/-- A buffer that was cleared before `n` bytes of `buf` were copied into it -/
def filled {m : ℕ} (buf : ℕ → UInt8) (offset n : ℕ) : List.Vector UInt8 m :=
  .ofFn fun i => if i.val < n then buf (offset + i) else 0

/-- The length of the key -/
def delimiter (buf : ℕ → UInt8) (recvLen : ℤ) : Option ℕ :=
  (List.range keyLen).find? fun i => i < sizeT (sizeT (recvLen - keyOffset) - 1) ∧ buf (keyOffset + i) = addDelim

/-- The pair that is added; a value that does not fit into its buffer is written past the end of it, and
nothing is said of what follows. -/
def addRequest (buf : ℕ → UInt8) (recvLen : ℤ) : Option Kv :=
  (delimiter buf recvLen).bind fun i =>
    let valueOffset := keyOffset + i + 1
    let n := sizeT (recvLen - valueOffset)
    if valueLen < n then none else some ⟨filled buf keyOffset i, filled buf valueOffset n⟩

theorem filled_terminated (buf : ℕ → UInt8) (offset : ℕ) {n : ℕ} (h : n < keyLen) :
    Terminated (filled buf offset n) := by
  have hlast : ¬ keyLen - 1 < n := by omega
  have hlen : keyLen - 1 < (filled buf offset n : Key).toList.length := by
    rw [List.Vector.toList_length]
    decide
  rw [Terminated, List.drop_eq_getElem_cons hlen, List.drop_eq_nil_of_le (by simp [keyLen])]
  simp only [filled, List.Vector.toList_ofFn, List.getElem_ofFn, if_neg hlast]

theorem addRequest_terminated {buf : ℕ → UInt8} {recvLen : ℤ} (h : addRequest buf recvLen = some pair) :
    Terminated pair.key := by
  obtain ⟨n, hn, hpair⟩ := Option.bind_eq_some_iff.mp h
  have hlt : n < keyLen := List.mem_range.mp (List.mem_of_find?_eq_some hn)
  dsimp only at hpair
  split at hpair
  · cases hpair
  · cases hpair
    exact filled_terminated buf keyOffset hlt

/-- What the server adds and looks up is a finite map. -/
theorem requests_refine {ops : List Op}
    (h : ∀ pair, Op.add pair ∈ ops → ∃ buf recvLen, addRequest buf recvLen = some pair) :
    Refines (Model.run ops) (run qs ops) :=
  (represents_run ops fun pair hmem =>
    let ⟨_, _, hpair⟩ := h pair hmem
    addRequest_terminated hpair).refines (Inv.run ops)

end QuietLwip.Apps.KvStore
