import Mathlib.Data.Nat.ModEq
import Mathlib.Data.List.GetD
import Mathlib.Logic.Function.Basic
import QuietLwip.Foundation.Links

/-!
# Bytes, pointers and free lists in memory

A memory has a byte at every address. Reads and writes of ranges do not meet if the ranges are apart, and
a pointer is eight bytes with the lowest first. A list may be linked through the first bytes of its
nodes, where everybody else keeps their own data as soon as the node is handed out: what a write anywhere
else leaves of it is said here once.
-/

namespace QuietLwip

abbrev Memory := ℕ → UInt8

namespace Memory

variable {m : Memory} {a b n p : ℕ} {bs : List UInt8}

/-- The `n` bytes from `a` on -/
def read (m : Memory) (a n : ℕ) : List UInt8 := (List.range n).map fun i => m (a + i)

/-- `bs` in the place of the bytes from `a` on -/
def write (m : Memory) (a : ℕ) (bs : List UInt8) : Memory :=
  fun i => if a ≤ i then bs[i - a]?.getD (m i) else m i

/-- A list of bytes with others written over those from `off` on -/
def splice (l : List UInt8) (off : ℕ) (bs : List UInt8) : List UInt8 :=
  l.take off ++ bs ++ l.drop (off + bs.length)

@[simp] theorem read_length (m : Memory) (a n : ℕ) : (m.read a n).length = n := by
  simp [read]

@[simp] theorem splice_length {l : List UInt8} {off : ℕ} (h : off + bs.length ≤ l.length) :
    (splice l off bs).length = l.length := by
  simp only [splice, List.length_append, List.length_take, List.length_drop]
  omega

theorem write_of_outside {i : ℕ} (h : i < a ∨ a + bs.length ≤ i) : m.write a bs i = m i := by
  rw [write]
  split
  · rw [List.getElem?_eq_none (by omega), Option.getD_none]
  · rfl

theorem write_of_inside {i : ℕ} (h : i < bs.length) : m.write a bs (a + i) = bs[i] := by
  rw [write, if_pos (Nat.le_add_right a i), Nat.add_sub_cancel_left, List.getElem?_eq_getElem h,
    Option.getD_some]

theorem read_congr {m' : Memory} (h : ∀ i, a ≤ i → i < a + n → m' i = m i) : m'.read a n = m.read a n := by
  apply List.map_congr_left
  intro i hi
  rw [List.mem_range] at hi
  exact h (a + i) (by omega) (by omega)

theorem read_append (m : Memory) (a n k : ℕ) : m.read a n ++ m.read (a + n) k = m.read a (n + k) := by
  simp [read, List.range_add, Nat.add_assoc, Function.comp_def]

/-- A write does not show in what lies apart from it. -/
theorem read_write_apart (h : b + n ≤ a ∨ a + bs.length ≤ b) : (m.write a bs).read b n = m.read b n :=
  read_congr fun _ _ _ => write_of_outside (by omega)

theorem read_write (m : Memory) (a : ℕ) (bs : List UInt8) : (m.write a bs).read a bs.length = bs := by
  apply List.ext_getElem
  · simp
  · intro i _ hi
    simp only [read, List.getElem_map, List.getElem_range, write_of_inside hi]

/-- A write inside a range -/
theorem read_write_inside {off : ℕ} (h : off + bs.length ≤ n) :
    (m.write (a + off) bs).read a n = splice (m.read a n) off bs := by
  have hsplit : ∀ m' : Memory, m'.read a n =
      m'.read a off ++ m'.read (a + off) bs.length ++ m'.read (a + off + bs.length) (n - (off + bs.length)) := by
    intro m'
    rw [read_append, Nat.add_assoc a, read_append, Nat.add_sub_cancel' h]
  have hlow : (m.write (a + off) bs).read a off = m.read a off := read_write_apart (.inl le_rfl)
  have hhigh : (m.write (a + off) bs).read (a + off + bs.length) (n - (off + bs.length)) =
      m.read (a + off + bs.length) (n - (off + bs.length)) := read_write_apart (.inr le_rfl)
  rw [hsplit, hlow, read_write, hhigh, splice, hsplit m]
  congr 1
  · rw [List.append_assoc, List.take_left' (read_length m a off)]
  · rw [List.drop_left' (by simp)]

/-- A part of a range -/
theorem read_part {off k : ℕ} (h : off + k ≤ n) : m.read (a + off) k = ((m.read a n).drop off).take k := by
  apply List.ext_getElem
  · simp
    omega
  · intro i _ _
    simp [read, Nat.add_assoc]

/-! ## Pointers -/

/-- The size of a pointer -/
def ptrLen : ℕ := 8

/-- The lowest `n` bytes of a number -/
def encode : ℕ → ℕ → List UInt8
  | 0, _ => []
  | n + 1, p => UInt8.ofNat p :: encode n (p / 256)

def decode : List UInt8 → ℕ
  | [] => 0
  | b :: bs => b.toNat + 256 * decode bs

@[simp] theorem encode_length (n p : ℕ) : (encode n p).length = n := by
  induction n generalizing p with
  | zero => rfl
  | succ n ih => rw [encode, List.length_cons, ih]

theorem decode_encode (n p : ℕ) : decode (encode n p) = p % 256 ^ n := by
  induction n generalizing p with
  | zero => rw [encode, decode, pow_zero, Nat.mod_one]
  | succ n ih =>
    rw [encode, decode, ih, UInt8.toNat_ofNat']
    exact (Nat.mod_mul (x := p) (a := 256)).symm.trans (by rw [pow_succ'])

/-- `*a` for a pointer to a pointer -/
def readPtr (m : Memory) (a : ℕ) : ℕ := decode (m.read a ptrLen)

/-- `*a = p` -/
def writePtr (m : Memory) (a p : ℕ) : Memory := m.write a (encode ptrLen p)

theorem readPtr_writePtr (h : p < 2 ^ 64) : (m.writePtr a p).readPtr a = p := by
  have hread := read_write m a (encode ptrLen p)
  rw [encode_length] at hread
  rw [readPtr, writePtr, hread, decode_encode]
  exact Nat.mod_eq_of_lt h

theorem read_writePtr_apart (h : b + n ≤ a ∨ a + ptrLen ≤ b) : (m.writePtr a p).read b n = m.read b n :=
  read_write_apart (by rwa [encode_length])

/-! ## Free lists -/

/-- A pointer as the node it leads to -/
def node (p : ℕ) : Option ℕ := if p = 0 then none else some p

theorem node_eq_some (h : a ≠ 0) : node a = some a := if_neg h

theorem node_eq_some_iff : node p = some a ↔ p = a ∧ a ≠ 0 := by
  rw [node]
  split <;> simp <;> omega

/-- The nodes that are linked through their first bytes -/
def Free (m : Memory) (p : ℕ) (l : List ℕ) : Prop := Links.ListAt (fun a => node (m.readPtr a)) (node p) l

theorem Free.nil_iff {l : List ℕ} (h : m.Free p l) : l = [] ↔ p = 0 := by
  have hhead := h.head
  rw [node] at hhead
  split at hhead
  · exact iff_of_true (List.head?_eq_none_iff.mp hhead) ‹_›
  · refine iff_of_false ?_ ‹_›
    rintro rfl
    cases hhead

/-- What is taken from the front -/
theorem Free.pop {l : List ℕ} (h : m.Free p l) (hp : p ≠ 0) : ∃ rest, l = p :: rest ∧ m.Free (m.readPtr p) rest := by
  cases l with
  | nil => exact absurd (h.nil_iff.mp rfl) hp
  | cons a rest =>
    obtain rfl : p = a := (node_eq_some_iff.mp h.1).1
    exact ⟨rest, rfl, h.2⟩

/-- A memory with the same links has the same list. -/
theorem Free.congr {m' : Memory} {l : List ℕ} (h : m.Free p l)
    (hsame : ∀ a ∈ l, m'.read a ptrLen = m.read a ptrLen) : m'.Free p l := by
  refine Links.ListAt.congr h fun a ha => ?_
  rw [readPtr, readPtr, hsame a ha]

/-- A list is not touched by writes that are apart from the links. -/
theorem Free.write {l : List ℕ} (h : m.Free p l)
    (hapart : ∀ b ∈ l, b + ptrLen ≤ a ∨ a + bs.length ≤ b) : (m.write a bs).Free p l :=
  h.congr fun b hb => read_write_apart (hapart b hb)

/-- What is put in front -/
theorem Free.push {l : List ℕ} (h : m.Free p l) (ha : a ≠ 0) (hp : p < 2 ^ 64)
    (hapart : ∀ b ∈ l, b + ptrLen ≤ a ∨ a + ptrLen ≤ b) : (m.writePtr a p).Free a (a :: l) := by
  refine ⟨node_eq_some ha, ?_⟩
  show (m.writePtr a p).Free ((m.writePtr a p).readPtr a) l
  rw [readPtr_writePtr hp]
  exact h.write (by simpa using hapart)

end Memory

end QuietLwip
