import Mathlib.Data.List.Forall2
import Mathlib.Data.Nat.Digits.Lemmas
import Mathlib.Tactic.Ring
import QuietLwip.Ip.Text

/-!
# The text form of an address

Which strings are an address in numbers and dots, and which of them `ipaddr_aton` reads as one; and
`ipaddr_ntoa_r`, which writes an address into a buffer.
-/

namespace QuietLwip.Ip

/-! ### Numbers and dots -/

/-- The number that the digits are in the base -/
def number (base : ℕ) (ds : List ℕ) : ℕ := ds.foldl (fun val d => val * base + d) 0

/-- A number as in C -/
inductive CNumber : List UInt8 → ℕ → Prop
  | zero : CNumber [0x30] 0
  | decimal {c : UInt8} {ds : List UInt8} (hc : isdigit c) (hne : c ≠ 0x30) (h : ∀ d ∈ ds, isdigit d) :
    CNumber (c :: ds) (number 10 ((c :: ds).map digit))
  | octal {ds : List UInt8} (hne : ds ≠ []) (h : ∀ d ∈ ds, inRange d 0x30 0x37) :
    CNumber (0x30 :: ds) (number 8 (ds.map digit))
  | hex {x : UInt8} {ds : List UInt8} (hx : x = 0x78 ∨ x = 0x58) (hne : ds ≠ []) (h : ∀ d ∈ ds, isxdigit d) :
    CNumber (0x30 :: x :: ds) (number 16 (ds.map digit))

/-- The numbers fit in `w` bytes: each in front in one, and the last in those that remain. -/
def Fits : ℕ → List ℕ → Prop
  | 0, _ => False
  | _ + 1, [] => False
  | w + 1, [last] => last < 256 ^ (w + 1)
  | w + 1, n :: m :: ns => n < 256 ∧ Fits w (m :: ns)

/-- The `w` bytes -/
def place : ℕ → List ℕ → ℕ
  | _, [] => 0
  | _, [last] => last
  | w, n :: m :: ns => n * 256 ^ (w - 1) + place (w - 1) (m :: ns)

/-- The string is the address: numbers with dots between them, up to the end or to white space. -/
def Denotes (s : List UInt8) (a : IpAddr) : Prop :=
  ∃ texts values tail, List.Forall₂ CNumber texts values ∧ s = [0x2e].intercalate texts ++ tail ∧
    (∀ c ∈ tail.head?, isspace c) ∧ Fits 4 values ∧ a.toNat = place 4 values

/-! ### What the parser reads -/

/-- What is read as a number, with its base and its digits: octal digits may be 8 and 9, and behind `0x` there
may be none. -/
inductive Numeral : List UInt8 → ℕ → List ℕ → Prop
  | decimal {c : UInt8} {ds : List UInt8} (hc : isdigit c) (hne : c ≠ 0x30) (h : ∀ d ∈ ds, isdigit d) :
    Numeral (c :: ds) 10 ((c :: ds).map digit)
  | octal {ds : List UInt8} (h : ∀ d ∈ ds, isdigit d) : Numeral (0x30 :: ds) 8 (ds.map digit)
  | hex {x : UInt8} {ds : List UInt8} (hx : x = 0x78 ∨ x = 0x58) (h : ∀ d ∈ ds, isxdigit d) :
    Numeral (0x30 :: x :: ds) 16 (ds.map digit)

/-- The bases and the digits of the numbers, with dots between them, up to the end or to white space -/
inductive Dotted : List UInt8 → List (ℕ × List ℕ) → Prop
  | last {t tail : List UInt8} {b : ℕ} {ds : List ℕ} (h : Numeral t b ds)
    (htail : ∀ c ∈ tail.head?, isspace c) : Dotted (t ++ tail) [(b, ds)]
  | dot {t s : List UInt8} {b : ℕ} {ds : List ℕ} {ns : List (ℕ × List ℕ)} (h : Numeral t b ds)
    (hs : Dotted s ns) : Dotted (t ++ 0x2e :: s) ((b, ds) :: ns)

def valueOf (n : ℕ × List ℕ) : ℕ := number n.1 n.2

/-- The checks on the numbers: not more than four, and the 32 bits that are kept of the last one fit. -/
def Accepted (ns : List (ℕ × List ℕ)) : Prop :=
  ns.length ≤ 4 ∧ ∀ n ∈ ns.getLast?, valueOf n % 2 ^ 32 < 256 ^ (5 - ns.length)

/-- No digit above 7 in an octal number, and at least one digit in a hexadecimal one -/
def Proper (n : ℕ × List ℕ) : Prop := (n.1 = 8 → ∀ d ∈ n.2, d < 8) ∧ (n.1 = 16 → n.2 ≠ [])

/-- Where the string passes the checks, its numbers are proper, those in front of a dot are bytes and the last
one has at most 32 bits. -/
def Plain (s : List UInt8) : Prop :=
  ∀ ns, Dotted s ns → Accepted ns → (∀ n ∈ ns, Proper n) ∧ (∀ n ∈ ns.dropLast, valueOf n < 256) ∧
    ∀ n ∈ ns.getLast?, valueOf n < 2 ^ 32

/-! ### The printer -/

/-- The digits of a byte, the last one in front. It has at most three. -/
def invDigits : ℕ → ℕ → List UInt8
  | 0, _ => []
  | k + 1, ap => .ofNat (0x30 + ap % 10) :: if ap / 10 = 0 then [] else invDigits k (ap / 10)

/-- `buf`, and `len`, which is also where `rp` points to -/
structure Printer where
  buf : ℕ → UInt8
  len : ℕ

/-- A character is written if there is room for it. -/
def putChar (buflen : ℤ) (st : Printer) (c : UInt8) : Except (ℕ → UInt8) Printer :=
  if buflen ≤ st.len then .error st.buf
  else .ok ⟨Function.update st.buf st.len c, st.len + 1⟩

/-- The digits of a byte and a dot -/
def putByte (buflen : ℤ) (st : Printer) (ap : UInt8) : Except (ℕ → UInt8) Printer :=
  ((invDigits 3 ap.toNat).reverse ++ [0x2e]).foldlM (putChar buflen) st

/-- The bytes of an address in network order -/
def octets (addr : IpAddr) : List UInt8 :=
  [24, 16, 8, 0].map fun i => .ofNat (addr.toNat / 2 ^ i % 256)

/-- `ipaddr_ntoa_r`: whether it returns `NULL`, and the buffer. The last dot is overwritten. -/
def ipaddrNtoaR (addr : IpAddr) (buf : ℕ → UInt8) (buflen : ℤ) : Bool × (ℕ → UInt8) :=
  match (octets addr).foldlM (putByte buflen) ⟨buf, 0⟩ with
  | .error buf => (true, buf)
  | .ok st => (false, Function.update st.buf (st.len - 1) 0)

/-! ### Digits -/

variable {s t t' rest tail : List UInt8} {b b' : ℕ} {ds ds' : List ℕ} {ns ns' : List (ℕ × List ℕ)}
  {a : IpAddr}

/-- A character of a number -/
def isNumeral (c : UInt8) : Bool := isxdigit c || c == 0x78 || c == 0x58

theorem isxdigit_of_isdigit {c : UInt8} (h : isdigit c) : isxdigit c := by
  rw [isxdigit, h]
  rfl

theorem isNumeral_of_isxdigit {c : UInt8} (h : isxdigit c) : isNumeral c := by
  rw [isNumeral, h]
  rfl

/-- Neither a dot nor what ends a string is part of a number. -/
theorem not_isNumeral {c : UInt8} (h : c = 0x2e ∨ isspace c) : ¬ isNumeral c := by
  revert h
  simp only [isNumeral, isxdigit, isdigit, inRange, isspace, Bool.or_eq_true, decide_eq_true_eq, beq_iff_eq,
    UInt8.le_iff_toNat_le, ← UInt8.toNat_inj]
  simp only [UInt8.toNat_ofNat]
  omega

/-- The digits are added to the number in 32 bits. -/
theorem collectDigits_append (val : ℕ) {cs : List UInt8} (h : ∀ c ∈ cs, isdigit c ∨ b = 16 ∧ isxdigit c)
    (hrest : ∀ c ∈ rest.head?, ¬ isNumeral c) :
    collectDigits b (.ofNat 32 val) (cs ++ rest) =
      (.ofNat 32 ((cs.map digit).foldl (fun val d => val * b + d) val), rest) := by
  induction cs generalizing val with
  | nil =>
    cases rest with
    | nil => rfl
    | cons c rest =>
      have hno : ¬ (isdigit c ∨ b = 16 ∧ isxdigit c) := by
        rintro (hd | ⟨-, hx⟩)
        · exact hrest c rfl (isNumeral_of_isxdigit (isxdigit_of_isdigit hd))
        · exact hrest c rfl (isNumeral_of_isxdigit hx)
      rw [List.nil_append, collectDigits, if_neg hno]
      rfl
  | cons c cs ih =>
    obtain ⟨hc, hcs⟩ := List.forall_mem_cons.mp h
    have hval : BitVec.ofNat 32 val * .ofNat 32 b + .ofNat 32 (digit c) = .ofNat 32 (val * b + digit c) := by
      rw [← BitVec.ofNat_mul, ← BitVec.ofNat_add]
    rw [List.cons_append, collectDigits, if_pos hc, hval, ih _ hcs]
    rfl

theorem collectDigits_reads (val : ℕ) (b : ℕ) (s : List UInt8) :
    ∃ cs rest, s = cs ++ rest ∧ (∀ c ∈ cs, isdigit c ∨ b = 16 ∧ isxdigit c) ∧
      collectDigits b (.ofNat 32 val) s =
        (.ofNat 32 ((cs.map digit).foldl (fun val d => val * b + d) val), rest) := by
  induction s generalizing val with
  | nil => exact ⟨[], [], rfl, fun c hc => absurd hc List.not_mem_nil, rfl⟩
  | cons c s ih =>
    by_cases hc : isdigit c ∨ b = 16 ∧ isxdigit c
    · have hval : BitVec.ofNat 32 val * .ofNat 32 b + .ofNat 32 (digit c) =
          .ofNat 32 (val * b + digit c) := by
        rw [← BitVec.ofNat_mul, ← BitVec.ofNat_add]
      obtain ⟨cs, rest, rfl, hcs, hread⟩ := ih (val * b + digit c)
      refine ⟨c :: cs, rest, rfl, List.forall_mem_cons.mpr ⟨hc, hcs⟩, ?_⟩
      rw [collectDigits, if_pos hc, hval, hread]
      rfl
    · refine ⟨[], c :: s, rfl, fun c hc => absurd hc List.not_mem_nil, ?_⟩
      rw [collectDigits, if_neg hc]
      rfl

/-! ### Numbers -/

theorem collectNumber_decimal {c : UInt8} (hc : isdigit c) (hne : c ≠ 0x30) (s : List UInt8) :
    collectNumber (c :: s) = some (collectDigits 10 0 (c :: s)) := by
  rw [collectNumber.eq_def]
  dsimp only
  rw [hc, if_neg hne]
  rfl

theorem collectNumber_hex {x : UInt8} (hx : x = 0x78 ∨ x = 0x58) (s : List UInt8) :
    collectNumber (0x30 :: x :: s) = some (collectDigits 16 0 s) := if_pos hx

theorem collectNumber_octal {x : UInt8} (hx : ¬ (x = 0x78 ∨ x = 0x58)) (s : List UInt8) :
    collectNumber (0x30 :: x :: s) = some (collectDigits 8 0 (x :: s)) := if_neg hx

theorem collectNumber_none {c : UInt8} (hc : ¬ isdigit c) (s : List UInt8) :
    collectNumber (c :: s) = none := by
  have hno : isdigit c = false := Bool.not_eq_true _ ▸ hc
  rw [collectNumber.eq_def]
  dsimp only
  rw [hno]
  rfl

theorem Numeral.isNumeral (h : Numeral t b ds) : ∀ c ∈ t, isNumeral c := by
  have hdigit : ∀ {cs : List UInt8}, (∀ c ∈ cs, isdigit c) → ∀ c ∈ cs, Ip.isNumeral c := fun h c hc =>
    isNumeral_of_isxdigit (isxdigit_of_isdigit (h c hc))
  cases h with
  | decimal hc hne h => exact hdigit (List.forall_mem_cons.mpr ⟨hc, h⟩)
  | octal h => exact hdigit (List.forall_mem_cons.mpr ⟨by decide, h⟩)
  | hex hx h =>
    refine List.forall_mem_cons.mpr ⟨by decide, List.forall_mem_cons.mpr ⟨?_, fun c hc => ?_⟩⟩
    · rcases hx with rfl | rfl <;> decide
    · exact isNumeral_of_isxdigit (h c hc)

theorem Numeral.ne_nil (h : Numeral t b ds) : t ≠ [] := by
  cases h <;> exact List.cons_ne_nil _ _

/-- The text determines the base and the digits. -/
theorem Numeral.unique (h : Numeral t b ds) (h' : Numeral t b' ds') : b = b' ∧ ds = ds' := by
  have hletter : ∀ {x : UInt8}, x = 0x78 ∨ x = 0x58 → ¬ isdigit x := by
    rintro x (rfl | rfl) <;> decide
  cases h with
  | decimal hc hne h =>
    cases h' with
    | decimal => exact ⟨rfl, rfl⟩
    | octal => exact absurd rfl hne
    | hex => exact absurd rfl hne
  | octal h =>
    cases h' with
    | decimal hc hne => exact absurd rfl hne
    | octal => exact ⟨rfl, rfl⟩
    | hex hx => exact absurd (h _ List.mem_cons_self) (hletter hx)
  | hex hx h =>
    cases h' with
    | decimal hc hne => exact absurd rfl hne
    | octal h' => exact absurd (h' _ List.mem_cons_self) (hletter hx)
    | hex => exact ⟨rfl, rfl⟩

/-- A number is read up to what does not belong to it. -/
theorem Numeral.collectNumber (h : Numeral t b ds) (hrest : ∀ c ∈ rest.head?, ¬ Ip.isNumeral c) :
    collectNumber (t ++ rest) = some (.ofNat 32 (number b ds), rest) := by
  have hletter : ∀ {x : UInt8}, x = 0x78 ∨ x = 0x58 → isdigit x = false := by
    rintro x (rfl | rfl) <;> decide
  cases h with
  | @decimal c cs hc hne h =>
    have hall : ∀ d ∈ c :: cs, isdigit d := List.forall_mem_cons.mpr ⟨hc, h⟩
    have hread := collectDigits_append (b := 10) 0 (fun d hd => .inl (hall d hd)) hrest
    rw [List.cons_append, collectNumber_decimal hc hne]
    exact congrArg some hread
  | @octal cs h =>
    have hread := collectDigits_append (b := 8) 0 (fun d hd => .inl (h d hd)) hrest
    cases cs with
    | nil =>
      cases rest with
      | nil => rfl
      | cons x rest =>
        have hx : ¬ (x = 0x78 ∨ x = 0x58) := fun hx => hrest x rfl (by rcases hx with rfl | rfl <;> decide)
        exact (collectNumber_octal hx rest).trans (congrArg some hread)
    | cons x cs =>
      have hx : ¬ (x = 0x78 ∨ x = 0x58) := fun hx =>
        absurd ((hletter hx).symm.trans (h x List.mem_cons_self)) Bool.noConfusion
      exact (collectNumber_octal hx (cs ++ rest)).trans (congrArg some hread)
  | @hex x cs hx h =>
    have hread := collectDigits_append (b := 16) 0 (fun d hd => .inr ⟨rfl, h d hd⟩) hrest
    exact (collectNumber_hex hx (cs ++ rest)).trans (congrArg some hread)

/-- What is read is a number. -/
theorem collectNumber_reads {val : BitVec 32} (h : collectNumber s = some (val, rest)) :
    ∃ t b ds, s = t ++ rest ∧ Numeral t b ds ∧ val = .ofNat 32 (number b ds) := by
  have hdecimal : ∀ {b : ℕ} {cs : List UInt8}, b ≠ 16 → (∀ d ∈ cs, isdigit d ∨ b = 16 ∧ isxdigit d) →
      ∀ d ∈ cs, isdigit d := fun hne hcs d hd => (hcs d hd).resolve_right fun hx => hne hx.1
  cases s with
  | nil => cases h
  | cons c s =>
    by_cases hc : isdigit c
    · by_cases hzero : c = 0x30
      · subst hzero
        cases s with
        | nil =>
          cases h
          exact ⟨[0x30], 8, [], rfl, .octal fun d hd => absurd hd List.not_mem_nil, rfl⟩
        | cons x s =>
          by_cases hx : x = 0x78 ∨ x = 0x58
          · rw [collectNumber_hex hx] at h
            obtain ⟨cs, rest', rfl, hcs, hread⟩ := collectDigits_reads 0 16 s
            cases hread.symm.trans (Option.some.inj h)
            have hall : ∀ d ∈ cs, isxdigit d := fun d hd =>
              (hcs d hd).elim isxdigit_of_isdigit And.right
            exact ⟨0x30 :: x :: cs, 16, _, rfl, .hex hx hall, rfl⟩
          · rw [collectNumber_octal hx] at h
            obtain ⟨cs, rest', heq, hcs, hread⟩ := collectDigits_reads 0 8 (x :: s)
            cases hread.symm.trans (Option.some.inj h)
            exact ⟨0x30 :: cs, 8, _, congrArg (0x30 :: ·) heq, .octal (hdecimal (by decide) hcs), rfl⟩
      · rw [collectNumber_decimal hc hzero, collectDigits, if_pos (.inl hc)] at h
        obtain ⟨cs, rest', rfl, hcs, hread⟩ := collectDigits_reads (0 * 10 + digit c) 10 s
        have hval : (0 : BitVec 32) * .ofNat 32 10 + .ofNat 32 (digit c) = .ofNat 32 (0 * 10 + digit c) := by
          rw [BitVec.ofNat_add, BitVec.ofNat_mul]
          rfl
        rw [hval] at h
        cases hread.symm.trans (Option.some.inj h)
        exact ⟨c :: cs, 10, _, rfl, .decimal hc hzero (hdecimal (by decide) hcs), rfl⟩
    · rw [collectNumber_none hc] at h
      cases h

/-! ### Parts -/

/-- The numbers as they are kept, in 32 bits -/
def kept (n : ℕ × List ℕ) : BitVec 32 := .ofNat 32 (valueOf n)

theorem Dotted.ne_nil (h : Dotted s ns) : ns ≠ [] := by
  cases h <;> exact List.cons_ne_nil _ _

theorem span_unique {p : UInt8 → Bool} (ht : ∀ c ∈ t, p c) (ht' : ∀ c ∈ t', p c) {r r' : List UInt8}
    (hr : ∀ c ∈ r.head?, ¬ p c) (hr' : ∀ c ∈ r'.head?, ¬ p c) (h : t ++ r = t' ++ r') : t = t' ∧ r = r' := by
  have htake : ∀ {t r : List UInt8}, (∀ c ∈ t, p c) → (∀ c ∈ r.head?, ¬ p c) →
      (t ++ r).takeWhile p = t := by
    intro t r ht hr
    rw [List.takeWhile_append_of_pos ht]
    cases r with
    | nil => exact List.append_nil t
    | cons c r => rw [List.takeWhile_cons_of_neg (hr c rfl), List.append_nil]
  have heq : t = t' := by rw [← htake ht hr, h, htake ht' hr']
  subst heq
  exact ⟨rfl, List.append_cancel_left h⟩

theorem dot_not_isNumeral (s : List UInt8) : ∀ c ∈ (0x2e :: s).head?, ¬ isNumeral c := by
  rintro c ⟨rfl⟩
  decide

theorem tail_not_isNumeral (h : ∀ c ∈ tail.head?, isspace c) : ∀ c ∈ tail.head?, ¬ isNumeral c :=
  fun c hc => not_isNumeral (.inr (h c hc))

/-- The string determines the numbers. -/
theorem Dotted.unique (h : Dotted s ns) (h' : Dotted s ns') : ns = ns' := by
  induction h generalizing ns' with
  | @last t tail b ds hn htail =>
    generalize hs : t ++ tail = s at h'
    cases h' with
    | @last t' tail' b' ds' hn' htail' =>
      obtain ⟨rfl, -⟩ := span_unique hn.isNumeral hn'.isNumeral (tail_not_isNumeral htail)
        (tail_not_isNumeral htail') hs
      obtain ⟨rfl, rfl⟩ := hn.unique hn'
      rfl
    | @dot t' s' b' ds' ns' hn' hs' =>
      obtain ⟨-, rfl⟩ := span_unique hn.isNumeral hn'.isNumeral (tail_not_isNumeral htail)
        (dot_not_isNumeral s') hs
      exact absurd (htail 0x2e rfl) (by decide)
  | @dot t s b ds ns hn hs ih =>
    generalize hs : t ++ 0x2e :: s = s₀ at h'
    cases h' with
    | @last t' tail' b' ds' hn' htail' =>
      obtain ⟨-, rfl⟩ := span_unique hn.isNumeral hn'.isNumeral (dot_not_isNumeral s)
        (tail_not_isNumeral htail') hs
      exact absurd (htail' 0x2e rfl) (by decide)
    | @dot t' s' b' ds' ns' hn' hs' =>
      obtain ⟨rfl, heq⟩ := span_unique hn.isNumeral hn'.isNumeral (dot_not_isNumeral s)
        (dot_not_isNumeral s') hs
      obtain ⟨rfl, rfl⟩ := hn.unique hn'
      cases heq
      rw [ih hs']

theorem collectParts_zero (s : List UInt8) : collectParts 0 s = (collectNumber s).bind fun (val, cp) =>
    if cp.head? = some 0x2e then none else some ([], val, cp) := by
  rw [collectParts.eq_def]
  dsimp only
  cases collectNumber s <;> rfl

theorem collectParts_succ (k : ℕ) (s : List UInt8) :
    collectParts (k + 1) s = (collectNumber s).bind fun (val, cp) =>
      if cp.head? = some 0x2e then
        (collectParts k (cp.drop 1)).map fun (parts, last, cp) => (val :: parts, last, cp)
      else some ([], val, cp) := by
  rw [collectParts.eq_def]
  dsimp only
  cases collectNumber s <;> rfl

/-- The numbers in front of a dot and the last one, if the dots are not too many -/
theorem Dotted.collectParts {k : ℕ} (h : Dotted s ns) (hlen : ns.length ≤ k + 1) :
    ∃ last tail, ns.getLast? = some last ∧ (∀ c ∈ tail.head?, isspace c) ∧
      collectParts k s = some (ns.dropLast.map kept, kept last, tail) := by
  induction h generalizing k with
  | @last t tail b ds hn htail =>
    refine ⟨(b, ds), tail, rfl, htail, ?_⟩
    have hread := hn.collectNumber (tail_not_isNumeral htail)
    have hdot : tail.head? ≠ some 0x2e := fun hd => absurd (htail 0x2e hd) (by decide)
    cases k with
    | zero =>
      rw [collectParts_zero, hread]
      exact if_neg hdot
    | succ k =>
      rw [collectParts_succ, hread]
      exact if_neg hdot
  | @dot t s b ds ns hn hs ih =>
    have hread := hn.collectNumber (dot_not_isNumeral s)
    have hpos := List.length_pos_iff.mpr hs.ne_nil
    rw [List.length_cons] at hlen
    cases k with
    | zero => omega
    | succ k =>
      obtain ⟨last, tail, hlast, htail, hparts⟩ := ih (by omega : ns.length ≤ k + 1)
      obtain ⟨m, ms, rfl⟩ := List.exists_cons_of_ne_nil hs.ne_nil
      refine ⟨last, tail, hlast, htail, ?_⟩
      rw [collectParts_succ, hread, Option.bind_some]
      dsimp only
      rw [List.head?_cons, if_pos rfl, List.drop_one, List.tail_cons, hparts]
      rfl

/-- What is read are numbers with dots between them. -/
theorem collectParts_reads {k : ℕ} {parts : List (BitVec 32)} {val : BitVec 32}
    (h : collectParts k s = some (parts, val, tail)) (htail : ∀ c ∈ tail.head?, isspace c) :
    ∃ ns, Dotted s ns ∧ ns.length ≤ k + 1 := by
  induction k generalizing s parts with
  | zero =>
    rw [collectParts_zero] at h
    obtain ⟨⟨v, rest⟩, hread, hparts⟩ := Option.bind_eq_some_iff.mp h
    obtain ⟨t, b, ds, rfl, hn, -⟩ := collectNumber_reads hread
    dsimp only at hparts
    split at hparts
    · cases hparts
    · cases hparts
      exact ⟨[(b, ds)], .last hn htail, Nat.le_refl 1⟩
  | succ k ih =>
    rw [collectParts_succ] at h
    obtain ⟨⟨v, rest⟩, hread, hmore⟩ := Option.bind_eq_some_iff.mp h
    obtain ⟨t, b, ds, rfl, hn, -⟩ := collectNumber_reads hread
    dsimp only at hmore
    split at hmore
    · rename_i hdot
      obtain ⟨⟨parts', last', tail'⟩, hparts, heq⟩ := Option.map_eq_some_iff.mp hmore
      cases heq
      obtain ⟨ns, hns, hlen⟩ := ih hparts
      obtain ⟨rest', rfl⟩ : ∃ rest', rest = 0x2e :: rest' := by
        cases rest with
        | nil => cases hdot
        | cons c rest' =>
          cases hdot
          exact ⟨rest', rfl⟩
      exact ⟨(b, ds) :: ns, .dot hn hns, Nat.succ_le_succ hlen⟩
    · cases hmore
      exact ⟨[(b, ds)], .last hn htail, Nat.le_add_left 1 _⟩

/-! ### Addresses -/

/-- The address according to the number of parts -/
def concoct (val : BitVec 32) : List (BitVec 32) → Option IpAddr
  | [] => some val
  | [a] => if 0xffffff#32 < val then none else some (val ||| a <<< 24)
  | [a, b] => if 0xffff#32 < val then none else some (val ||| (a <<< 24 ||| b <<< 16))
  | a :: b :: c :: _ => if 0xff#32 < val then none else some (val ||| (a <<< 24 ||| b <<< 16 ||| c <<< 8))

/-- The end of `ipaddr_aton` -/
theorem ipaddrAton_eq {parts : List (BitVec 32)} {val : BitVec 32}
    (h : collectParts 3 s = some (parts, val, tail)) (htail : ∀ c ∈ tail.head?, isspace c) :
    ipaddrAton s = concoct val parts := by
  have hend : tail.head?.any (!isspace ·) = false := by
    cases hhead : tail.head? with
    | none => rfl
    | some c =>
      rw [Option.any_some, htail c hhead]
      rfl
  rw [ipaddrAton, h]
  change (if tail.head?.any (!isspace ·) = true then none else concoct val parts) = _
  rw [hend]
  rfl

theorem kept_toNat (n : ℕ × List ℕ) : (kept n).toNat = valueOf n % 2 ^ 32 := BitVec.toNat_ofNat _ _

/-- What passes the checks is an address. -/
theorem ipaddrAton_isSome (h : Dotted s ns) (hacc : Accepted ns) : ∃ a, ipaddrAton s = some a := by
  obtain ⟨hlen, hlast⟩ := hacc
  obtain ⟨last, tail, hlast', htail, hparts⟩ := h.collectParts hlen
  have hle := hlast last hlast'
  rw [← kept_toNat] at hle
  rw [ipaddrAton_eq hparts htail]
  match ns with
  | [] => exact absurd rfl h.ne_nil
  | [_] => exact ⟨_, rfl⟩
  | [_, _] => exact ⟨_, if_neg (by rw [BitVec.lt_def]; exact Nat.not_lt.mpr (Nat.le_of_lt_succ hle))⟩
  | [_, _, _] => exact ⟨_, if_neg (by rw [BitVec.lt_def]; exact Nat.not_lt.mpr (Nat.le_of_lt_succ hle))⟩
  | [_, _, _, _] => exact ⟨_, if_neg (by rw [BitVec.lt_def]; exact Nat.not_lt.mpr (Nat.le_of_lt_succ hle))⟩
  | _ :: _ :: _ :: _ :: _ :: ns =>
    simp only [List.length_cons] at hlen
    omega

/-- What is read as an address has passed the checks. -/
theorem accepted_of_ipaddrAton (h : ipaddrAton s = some a) : ∃ ns, Dotted s ns ∧ Accepted ns := by
  rw [ipaddrAton] at h
  obtain ⟨⟨parts, val, tail⟩, hparts, h⟩ := Option.bind_eq_some_iff.mp h
  dsimp only at h
  by_cases hend : tail.head?.any (!isspace ·) = true
  · rw [if_pos hend] at h
    cases h
  · have htail : ∀ c ∈ tail.head?, isspace c := by
      intro c hc
      rw [hc, Option.any_some] at hend
      simpa using hend
    rw [if_neg hend] at h
    obtain ⟨ns, hns, hlen⟩ := collectParts_reads hparts htail
    obtain ⟨last, tail', hlast, -, hparts'⟩ := hns.collectParts hlen
    cases hparts.symm.trans hparts'
    refine ⟨ns, hns, hlen, fun n hn => ?_⟩
    cases hlast.symm.trans hn
    have hbound : ∀ {r : Option IpAddr} (lim : ℕ), lim < 2 ^ 32 →
        (if BitVec.ofNat 32 lim < kept last then none else r) = some a →
        valueOf last % 2 ^ 32 < lim + 1 := by
      intro r lim hlim hr
      by_cases hlt : BitVec.ofNat 32 lim < kept last
      · rw [if_pos hlt] at hr
        cases hr
      · rw [BitVec.lt_def, BitVec.toNat_ofNat, kept_toNat, Nat.mod_eq_of_lt hlim] at hlt
        omega
    match ns with
    | [] => exact absurd rfl hns.ne_nil
    | [_] => exact Nat.mod_lt _ (by decide)
    | [_, _] => exact hbound 0xffffff (by decide) h
    | [_, _, _] => exact hbound 0xffff (by decide) h
    | [_, _, _, _] => exact hbound 0xff (by decide) h
    | _ :: _ :: _ :: _ :: _ :: ns =>
      simp only [List.length_cons] at hlen
      omega

theorem toNat_or_shift {x y : BitVec 32} {k : ℕ} (hx : x.toNat < 2 ^ k) (hy : y.toNat * 2 ^ k < 2 ^ 32) :
    (x ||| y <<< k).toNat = y.toNat * 2 ^ k + x.toNat := by
  have hshift : (y <<< k).toNat = y.toNat <<< k := by
    rw [BitVec.toNat_shiftLeft, Nat.shiftLeft_eq, Nat.mod_eq_of_lt hy]
  rw [BitVec.toNat_or, hshift, Nat.or_comm, ← Nat.shiftLeft_add_eq_or_of_lt hx, Nat.shiftLeft_eq]

theorem kept_toNat_of_lt {n : ℕ × List ℕ} (h : valueOf n < 2 ^ 32) : (kept n).toNat = valueOf n := by
  rw [kept_toNat, Nat.mod_eq_of_lt h]

/-- Numbers that fit are put together to the address. -/
theorem concoct_of_fits (hfits : Fits 4 (ns.map valueOf)) {last : ℕ × List ℕ}
    (hlast : ns.getLast? = some last) :
    ∃ a, concoct (kept last) (ns.dropLast.map kept) = some a ∧ a.toNat = place 4 (ns.map valueOf) := by
  have hif : ∀ {r : Option IpAddr} (lim : ℕ), lim < 2 ^ 32 → valueOf last < lim + 1 →
      (if BitVec.ofNat 32 lim < kept last then none else r) = r := by
    intro r lim hlim hle
    refine if_neg ?_
    rw [BitVec.lt_def, BitVec.toNat_ofNat, kept_toNat_of_lt (by omega), Nat.mod_eq_of_lt hlim]
    omega
  match ns, hfits with
  | [n], hn =>
    cases hlast
    exact ⟨kept n, rfl, kept_toNat_of_lt hn⟩
  | [m, n], ⟨hm, hn⟩ =>
    cases hlast
    have hn' : valueOf n < 2 ^ 24 := hn
    have hkm := kept_toNat_of_lt (n := m) (by omega)
    have hkn := kept_toNat_of_lt (n := n) (by omega)
    refine ⟨kept n ||| kept m <<< 24, hif 0xffffff (by decide) hn, ?_⟩
    rw [toNat_or_shift (by omega) (by omega), hkm, hkn]
    rfl
  | [l, m, n], ⟨hl, hm, hn⟩ =>
    cases hlast
    have hn' : valueOf n < 2 ^ 16 := hn
    have hkl := kept_toNat_of_lt (n := l) (by omega)
    have hkm := kept_toNat_of_lt (n := m) (by omega)
    have hkn := kept_toNat_of_lt (n := n) (by omega)
    refine ⟨kept n ||| (kept l <<< 24 ||| kept m <<< 16), hif 0xffff (by decide) hn, ?_⟩
    have hlow := toNat_or_shift (x := kept n) (y := kept m) (k := 16) (by omega) (by omega)
    rw [BitVec.or_comm (kept l <<< 24), ← BitVec.or_assoc, toNat_or_shift (by omega) (by omega), hlow, hkl,
      hkm, hkn]
    rfl
  | [k, l, m, n], ⟨hk, hl, hm, hn⟩ =>
    cases hlast
    have hn' : valueOf n < 2 ^ 8 := hn
    have hkk := kept_toNat_of_lt (n := k) (by omega)
    have hkl := kept_toNat_of_lt (n := l) (by omega)
    have hkm := kept_toNat_of_lt (n := m) (by omega)
    have hkn := kept_toNat_of_lt (n := n) (by omega)
    refine ⟨kept n ||| (kept k <<< 24 ||| kept l <<< 16 ||| kept m <<< 8), hif 0xff (by decide) hn, ?_⟩
    have hlow := toNat_or_shift (x := kept n) (y := kept m) (k := 8) (by omega) (by omega)
    have hmid := toNat_or_shift (x := kept n ||| kept m <<< 8) (y := kept l) (k := 16) (by omega) (by omega)
    rw [BitVec.or_comm _ (kept m <<< 8), BitVec.or_comm (kept k <<< 24), ← BitVec.or_assoc, ← BitVec.or_assoc,
      toNat_or_shift (by omega) (by omega), hmid, hlow, hkk, hkl, hkm, hkn]
    rfl

theorem Fits.length_le (h : Fits 4 (ns.map valueOf)) : ns.length ≤ 4 := by
  match ns, h with
  | [_], _ => exact Nat.le_add_left 1 3
  | [_, _], _ => exact Nat.le_add_left 2 2
  | [_, _, _], _ => exact Nat.le_add_left 3 1
  | [_, _, _, _], _ => exact Nat.le_refl 4

theorem ipaddrAton_of_fits (h : Dotted s ns) (hfits : Fits 4 (ns.map valueOf)) :
    ∃ a, ipaddrAton s = some a ∧ a.toNat = place 4 (ns.map valueOf) := by
  obtain ⟨last, tail, hlast, htail, hparts⟩ := h.collectParts hfits.length_le
  rw [ipaddrAton_eq hparts htail]
  exact concoct_of_fits hfits hlast

/-! ### The two readings -/

theorem intercalate_dot (t : List UInt8) (m : List UInt8) (ts : List (List UInt8)) (tail : List UInt8) :
    [0x2e].intercalate (t :: m :: ts) ++ tail = t ++ 0x2e :: ([0x2e].intercalate (m :: ts) ++ tail) := by
  simp [List.intercalate]

theorem CNumber.numeral {n : ℕ} (h : CNumber t n) :
    ∃ b ds, Numeral t b ds ∧ Proper (b, ds) ∧ n = number b ds := by
  cases h with
  | zero => exact ⟨8, [], .octal fun d hd => absurd hd List.not_mem_nil,
      ⟨fun _ d hd => absurd hd List.not_mem_nil, fun h => absurd h (by decide)⟩, rfl⟩
  | decimal hc hne h => exact ⟨10, _, .decimal hc hne h,
      ⟨fun (h : 10 = 8) => absurd h (by decide), fun (h : 10 = 16) => absurd h (by decide)⟩, rfl⟩
  | @octal cs hne h =>
    have hdigit : ∀ d ∈ cs, isdigit d ∧ digit d < 8 := by
      intro d hd
      have hrange := h d hd
      simp only [inRange, decide_eq_true_eq, UInt8.le_iff_toNat_le] at hrange
      have hd' : isdigit d = true := by
        simp only [isdigit, inRange, decide_eq_true_eq, UInt8.le_iff_toNat_le]
        exact ⟨hrange.1, hrange.2.trans (by decide)⟩
      have hle : d.toNat ≤ 0x37 := hrange.2
      refine ⟨hd', ?_⟩
      rw [digit, if_pos hd']
      omega
    refine ⟨8, _, .octal fun d hd => (hdigit d hd).1,
      ⟨fun _ d hd => ?_, fun (h : 8 = 16) => absurd h (by decide)⟩, rfl⟩
    obtain ⟨c, hc, rfl⟩ := List.mem_map.mp hd
    exact (hdigit c hc).2
  | hex hx hne h => exact ⟨16, _, .hex hx h, ⟨fun (h : 16 = 8) => absurd h (by decide), fun _ hnil =>
      hne (List.map_eq_nil_iff.mp hnil)⟩, rfl⟩

theorem Numeral.cNumber (h : Numeral t b ds) (hproper : Proper (b, ds)) : CNumber t (number b ds) := by
  obtain ⟨hoctal, hhex⟩ := hproper
  cases h with
  | decimal hc hne h => exact .decimal hc hne h
  | @octal cs h =>
    by_cases hnil : cs = []
    · subst hnil
      exact .zero
    · refine .octal hnil fun d hd => ?_
      have hlt := hoctal rfl (digit d) (List.mem_map_of_mem hd)
      have hdigit := h d hd
      rw [digit, if_pos hdigit] at hlt
      simp only [isdigit, inRange, decide_eq_true_eq, UInt8.le_iff_toNat_le] at hdigit ⊢
      refine ⟨hdigit.1, ?_⟩
      change d.toNat ≤ 0x37
      omega
  | hex hx h => exact .hex hx (fun hnil => hhex rfl (List.map_eq_nil_iff.mpr hnil)) h

/-- An address in numbers and dots is what is read from proper numbers that fit. -/
theorem denotes_iff : Denotes s a ↔ ∃ ns, Dotted s ns ∧ (∀ n ∈ ns, Proper n) ∧ Fits 4 (ns.map valueOf) ∧
    a.toNat = place 4 (ns.map valueOf) := by
  constructor
  · rintro ⟨texts, values, tail, hnumbers, rfl, htail, hfits, ha⟩
    have hread : texts ≠ [] → ∃ ns, Dotted ([0x2e].intercalate texts ++ tail) ns ∧ (∀ n ∈ ns, Proper n) ∧
        ns.map valueOf = values := by
      clear hfits ha
      induction hnumbers with
      | nil => exact fun hne => absurd rfl hne
      | @cons t n texts values hn hrest ih =>
        intro _
        obtain ⟨b, ds, hnum, hproper, rfl⟩ := hn.numeral
        cases texts with
        | nil =>
          cases hrest
          have hone : [0x2e].intercalate [t] = t := by simp [List.intercalate]
          rw [hone]
          exact ⟨[(b, ds)], .last hnum htail, List.forall_mem_singleton.mpr hproper, rfl⟩
        | cons m texts =>
          obtain ⟨ns, hns, hall, rfl⟩ := ih (List.cons_ne_nil m texts)
          rw [intercalate_dot]
          exact ⟨(b, ds) :: ns, .dot hnum hns, List.forall_mem_cons.mpr ⟨hproper, hall⟩, rfl⟩
    have hne : texts ≠ [] := by
      rintro rfl
      cases hnumbers
      exact hfits
    obtain ⟨ns, hns, hall, rfl⟩ := hread hne
    exact ⟨ns, hns, hall, hfits, ha⟩
  · rintro ⟨ns, hns, hall, hfits, ha⟩
    have htexts : ∃ texts tail, texts ≠ [] ∧ List.Forall₂ CNumber texts (ns.map valueOf) ∧
        s = [0x2e].intercalate texts ++ tail ∧ ∀ c ∈ tail.head?, isspace c := by
      clear hfits ha
      induction hns with
      | @last t tail b ds hn htail =>
        have hone : [0x2e].intercalate [t] = t := by simp [List.intercalate]
        exact ⟨[t], tail, List.cons_ne_nil t [], .cons (hn.cNumber (hall _ List.mem_cons_self)) .nil,
          by rw [hone], htail⟩
      | @dot t s b ds ns hn hs ih =>
        obtain ⟨hproper, hall⟩ := List.forall_mem_cons.mp hall
        obtain ⟨texts, tail, hne, hnumbers, rfl, htail⟩ := ih hall
        obtain ⟨m, texts, rfl⟩ := List.exists_cons_of_ne_nil hne
        exact ⟨t :: m :: texts, tail, List.cons_ne_nil t _, .cons (hn.cNumber hproper) hnumbers,
          (intercalate_dot t m texts tail).symm, htail⟩
    obtain ⟨texts, tail, -, hnumbers, rfl, htail⟩ := htexts
    exact ⟨texts, ns.map valueOf, tail, hnumbers, rfl, htail, hfits, ha⟩

theorem fits_iff (hne : ns ≠ []) : Fits 4 (ns.map valueOf) ↔ ns.length ≤ 4 ∧
    (∀ n ∈ ns.dropLast, valueOf n < 256) ∧ ∀ n ∈ ns.getLast?, valueOf n < 256 ^ (5 - ns.length) := by
  match ns with
  | [] => exact absurd rfl hne
  | [_] => simp [Fits]
  | [_, _] => simp [Fits]
  | [_, _, _] => simp [Fits, and_assoc]
  | [_, _, _, _] => simp [Fits, and_assoc]
  | _ :: _ :: _ :: _ :: _ :: ns => simp [Fits]

/-- Every address in numbers and dots is read. -/
theorem ipaddrAton_of_denotes (h : Denotes s a) : ipaddrAton s = some a := by
  obtain ⟨ns, hns, -, hfits, hplace⟩ := denotes_iff.mp h
  obtain ⟨a', ha', hplace'⟩ := ipaddrAton_of_fits hns hfits
  rw [ha', BitVec.eq_of_toNat_eq (hplace'.trans hplace.symm)]

/-- The parser reads exactly the address that the string is, if and only if the string is plain. -/
theorem ipaddrAton_iff (s : List UInt8) : (∀ a, ipaddrAton s = some a ↔ Denotes s a) ↔ Plain s := by
  constructor
  · intro h ns hns hacc
    obtain ⟨a, ha⟩ := ipaddrAton_isSome hns hacc
    obtain ⟨ns', hns', hproper, hfits, -⟩ := denotes_iff.mp ((h a).mp ha)
    obtain rfl := hns.unique hns'
    obtain ⟨hlen, hfront, hlast⟩ := (fits_iff hns.ne_nil).mp hfits
    refine ⟨hproper, hfront, fun n hn => (hlast n hn).trans_le ?_⟩
    have hpos := List.length_pos_iff.mpr hns.ne_nil
    calc 256 ^ (5 - ns.length) ≤ 256 ^ 4 := Nat.pow_le_pow_right (by decide) (by omega)
      _ = 2 ^ 32 := by decide
  · intro h a
    constructor
    · intro ha
      obtain ⟨ns, hns, hacc⟩ := accepted_of_ipaddrAton ha
      obtain ⟨hproper, hfront, hlast⟩ := h ns hns hacc
      have hfits : Fits 4 (ns.map valueOf) := by
        refine (fits_iff hns.ne_nil).mpr ⟨hacc.1, hfront, fun n hn => ?_⟩
        rw [← Nat.mod_eq_of_lt (hlast n hn)]
        exact hacc.2 n hn
      obtain ⟨a', ha', hplace⟩ := ipaddrAton_of_fits hns hfits
      cases ha.symm.trans ha'
      exact denotes_iff.mpr ⟨ns, hns, hproper, hfits, hplace⟩
    · exact ipaddrAton_of_denotes

/-! ### Printing -/

variable {buf buf' : ℕ → UInt8} {buflen : ℤ} {st st' : Printer} {cs text : List UInt8}

/-- The characters that have been written, and what is in memory behind them -/
structure Written (buf : ℕ → UInt8) (buflen : ℤ) (cs : List UInt8) (st : Printer) : Prop where
  len : st.len = cs.length
  chars : ∀ i (h : i < cs.length), st.buf i = cs[i]
  outside : ∀ i, cs.length ≤ i → st.buf i = buf i
  inside : cs ≠ [] → (cs.length : ℤ) ≤ buflen

theorem putChar_spec (h : Written buf buflen cs st) (c : UInt8) :
    (buflen ≤ cs.length ∧ putChar buflen st c = .error st.buf) ∨
      cs.length < buflen ∧ ∃ st', putChar buflen st c = .ok st' ∧ Written buf buflen (cs ++ [c]) st' := by
  rw [putChar, h.len]
  by_cases hfull : buflen ≤ cs.length
  · exact .inl ⟨hfull, if_pos hfull⟩
  · refine .inr ⟨by omega, _, if_neg hfull, ?_⟩
    refine ⟨by rw [List.length_append]; rfl, fun i hi => ?_, fun i hi => ?_, fun _ => ?_⟩
    · rw [List.length_append, List.length_singleton] at hi
      dsimp only
      by_cases hlt : i < cs.length
      · rw [List.getElem_append_left hlt, Function.update_of_ne (Nat.ne_of_lt hlt), h.chars i hlt]
      · obtain rfl : i = cs.length := by omega
        rw [List.getElem_concat_length rfl, Function.update_self]
    · rw [List.length_append, List.length_singleton] at hi
      dsimp only
      rw [Function.update_of_ne (by omega), h.outside i (by omega)]
    · rw [List.length_append, List.length_singleton]
      push_cast
      omega

/-- All of the characters are written if there is room for them; otherwise nothing is written behind the
buffer. -/
theorem putChars_spec (h : Written buf buflen cs st) (text : List UInt8) :
    (buflen < cs.length + text.length ∧ ∃ buf', text.foldlM (putChar buflen) st = .error buf' ∧
      ∀ i : ℕ, buflen ≤ i → buf' i = buf i) ∨
      ∃ st', text.foldlM (putChar buflen) st = .ok st' ∧ Written buf buflen (cs ++ text) st' := by
  induction text generalizing cs st with
  | nil => exact .inr ⟨st, rfl, (List.append_nil cs).symm ▸ h⟩
  | cons c text ih =>
    rw [List.foldlM_cons, List.length_cons]
    obtain ⟨hfull, hput⟩ | ⟨hroom, st₁, hput, hst₁⟩ := putChar_spec h c
    · rw [hput]
      refine .inl ⟨by push_cast; omega, st.buf, rfl, fun i hi => h.outside i ?_⟩
      by_cases hnil : cs = []
      · rw [hnil]
        exact Nat.zero_le i
      · have hin := h.inside hnil
        omega
    · rw [hput]
      obtain ⟨hfull, buf', hrun, hout⟩ | ⟨st', hrun, hst'⟩ := ih hst₁
      · rw [List.length_append, List.length_singleton] at hfull
        exact .inl ⟨by push_cast at hfull ⊢; omega, buf', hrun, hout⟩
      · rw [List.append_assoc, List.singleton_append] at hst'
        exact .inr ⟨st', hrun, hst'⟩

/-- The digits of a byte -/
def byteText (ap : UInt8) : List UInt8 := (invDigits 3 ap.toNat).reverse

/-- The characters of an address, with a dot behind every number -/
def dottedText (octets : List UInt8) : List UInt8 := octets.flatMap fun ap => byteText ap ++ [0x2e]

theorem putBytes_eq (octets : List UInt8) (st : Printer) :
    octets.foldlM (putByte buflen) st = (dottedText octets).foldlM (putChar buflen) st := by
  induction octets generalizing st with
  | nil => rfl
  | cons ap octets ih =>
    rw [List.foldlM_cons, dottedText, List.flatMap_cons, List.foldlM_append]
    exact congrArg _ (funext ih)

/-- The memory from the start of the buffer on is the string with its NUL. -/
def Holds (buf : ℕ → UInt8) (text : List UInt8) : Prop :=
  (∀ i (h : i < text.length), buf i = text[i]) ∧ buf text.length = 0 ∧ 0 ∉ text

theorem Written.terminated (h : Written buf buflen (text ++ [0x2e]) st) (hnul : 0 ∉ text) :
    Holds (Function.update st.buf (st.len - 1) 0) text ∧ text.length < buflen ∧
      ∀ i : ℕ, buflen ≤ i → Function.update st.buf (st.len - 1) 0 i = buf i := by
  have hlen : st.len - 1 = text.length := by
    rw [h.len, List.length_append]
    rfl
  have hin := h.inside (by simp)
  rw [List.length_append, List.length_singleton] at hin
  push_cast at hin
  rw [hlen]
  refine ⟨⟨fun i hi => ?_, Function.update_self _ _ _, hnul⟩, by omega, fun i hi => ?_⟩
  · have hlt : i < (text ++ [0x2e]).length := by
      rw [List.length_append]
      omega
    rw [Function.update_of_ne (Nat.ne_of_lt hi), h.chars i hlt, List.getElem_append_left hi]
  · rw [Function.update_of_ne (by omega)]
    refine h.outside i ?_
    rw [List.length_append, List.length_singleton]
    omega

/-! ### A byte in decimal digits -/

theorem invDigits_eq {k n : ℕ} (hpos : 0 < n) (hlt : n < 10 ^ k) :
    invDigits k n = (Nat.digits 10 n).map fun d => .ofNat (0x30 + d) := by
  induction k generalizing n with
  | zero => omega
  | succ k ih =>
    rw [invDigits, Nat.digits_def' (by decide) hpos, List.map_cons]
    by_cases hzero : n / 10 = 0
    · rw [if_pos hzero, hzero, Nat.digits_zero, List.map_nil]
    · rw [if_neg hzero, ih (Nat.pos_of_ne_zero hzero) (by rw [pow_succ] at hlt; omega)]

theorem decimalDigit {d : ℕ} (h : d < 10) : isdigit (.ofNat (0x30 + d)) ∧ digit (.ofNat (0x30 + d)) = d := by
  have hnat : (UInt8.ofNat (0x30 + d)).toNat = 0x30 + d := by
    rw [UInt8.toNat_ofNat']
    omega
  have hdigit : isdigit (.ofNat (0x30 + d)) = true := by
    simp only [isdigit, inRange, decide_eq_true_eq, UInt8.le_iff_toNat_le, hnat]
    exact ⟨Nat.le_add_right _ _, Nat.add_le_add_left (Nat.le_of_lt_succ h) _⟩
  refine ⟨hdigit, ?_⟩
  rw [digit, if_pos hdigit, hnat]
  omega

theorem number_reverse (b : ℕ) (ds : List ℕ) : number b ds.reverse = Nat.ofDigits b ds := by
  rw [number, List.foldl_reverse, Nat.ofDigits_eq_foldr]
  congr 1
  funext d n
  rw [Nat.mul_comm]
  exact Nat.add_comm _ _

/-- The digits of a byte are a decimal number. -/
theorem byteText_numeral (ap : UInt8) : ∃ b ds, Numeral (byteText ap) b ds ∧ Proper (b, ds) ∧
    number b ds = ap.toNat := by
  by_cases hzero : ap.toNat = 0
  · refine ⟨8, [], ?_, ⟨fun _ d hd => absurd hd List.not_mem_nil, fun (h : 8 = 16) => absurd h (by decide)⟩,
      hzero.symm⟩
    have htext : byteText ap = [0x30] := by
      rw [byteText, hzero]
      rfl
    rw [htext]
    exact .octal fun d hd => absurd hd List.not_mem_nil
  · have hpos := Nat.pos_of_ne_zero hzero
    have hlt : ap.toNat < 10 ^ 3 := ap.toNat_lt.trans (by decide)
    have htext : byteText ap = (Nat.digits 10 ap.toNat).reverse.map fun d => .ofNat (0x30 + d) := by
      rw [byteText, invDigits_eq hpos hlt, List.map_reverse]
    have hdigits : ∀ d ∈ (Nat.digits 10 ap.toNat).reverse, d < 10 := fun d hd =>
      Nat.digits_lt_base (by decide) (List.mem_reverse.mp hd)
    have hvalue : (byteText ap).map digit = (Nat.digits 10 ap.toNat).reverse := by
      rw [htext, List.map_map]
      refine (List.map_congr_left fun d hd => ?_).trans (List.map_id _)
      exact (decimalDigit (hdigits d hd)).2
    have hall : ∀ c ∈ byteText ap, isdigit c := by
      intro c hc
      rw [htext] at hc
      obtain ⟨d, hd, rfl⟩ := List.mem_map.mp hc
      exact (decimalDigit (hdigits d hd)).1
    have hne : Nat.digits 10 ap.toNat ≠ [] := Nat.digits_ne_nil_iff_ne_zero.mpr hzero
    have htop : (Nat.digits 10 ap.toNat).reverse = (Nat.digits 10 ap.toNat).getLast hne ::
        (Nat.digits 10 ap.toNat).dropLast.reverse := by
      rw [← List.reverse_concat, List.dropLast_concat_getLast hne]
    have htopne := Nat.getLast_digit_ne_zero 10 hzero
    have hnumber : number 10 ((byteText ap).map digit) = ap.toNat := by
      rw [hvalue, number_reverse, Nat.ofDigits_digits]
    rw [htop, List.map_cons] at htext
    have htoplt := hdigits _ (htop ▸ List.mem_cons_self)
    have hfirst : UInt8.ofNat (0x30 + (Nat.digits 10 ap.toNat).getLast hne) ≠ 0x30 := by
      intro heq
      have hdigit := (decimalDigit htoplt).2
      rw [heq] at hdigit
      exact htopne hdigit.symm
    rw [htext] at hall hnumber ⊢
    obtain ⟨hc, hcs⟩ := List.forall_mem_cons.mp hall
    exact ⟨10, _, .decimal hc hfirst hcs, ⟨fun (h : 10 = 8) => absurd h (by decide),
      fun (h : 10 = 16) => absurd h (by decide)⟩, hnumber⟩

theorem byteText_length (ap : UInt8) : (byteText ap).length ≤ 3 := by
  have hlen : ∀ k n, (invDigits k n).length ≤ k := by
    intro k
    induction k with
    | zero => exact fun n => Nat.le_refl 0
    | succ k ih =>
      intro n
      rw [invDigits, List.length_cons]
      split
      · exact Nat.succ_le_succ (Nat.zero_le k)
      · exact Nat.succ_le_succ (ih _)
  rw [byteText, List.length_reverse]
  exact hlen 3 _

theorem zero_not_mem_byteText (ap : UInt8) : 0 ∉ byteText ap := by
  obtain ⟨b, ds, h, -⟩ := byteText_numeral ap
  exact fun hmem => absurd (h.isNumeral 0 hmem) (by decide)

/-! ### The round trip -/

/-- The four numbers with dots between them -/
def addrText (a : IpAddr) : List UInt8 :=
  [0x2e].intercalate ((octets a).map byteText)

theorem dottedText_octets (a : IpAddr) : dottedText (octets a) = addrText a ++ [0x2e] := by
  simp [dottedText, addrText, octets, List.intercalate]

theorem dottedText_length (l : List UInt8) : (dottedText l).length ≤ 4 * l.length := by
  induction l with
  | nil => exact Nat.le_refl 0
  | cons ap l ih =>
    have hlen := byteText_length ap
    rw [dottedText] at ih ⊢
    rw [List.flatMap_cons, List.length_append, List.length_append, List.length_singleton, List.length_cons]
    omega

theorem octets_toNat (a : IpAddr) : (octets a).map UInt8.toNat =
    [a.toNat / 2 ^ 24 % 256, a.toNat / 2 ^ 16 % 256, a.toNat / 2 ^ 8 % 256, a.toNat / 2 ^ 0 % 256] := by
  simp only [octets, List.map_cons, List.map_nil, UInt8.toNat_ofNat', Nat.reducePow, Nat.mod_mod]

/-- The four numbers are the address. -/
theorem addrText_denotes (a : IpAddr) : Denotes (addrText a) a := by
  have hnumbers : ∀ l : List UInt8, List.Forall₂ CNumber (l.map byteText) (l.map UInt8.toNat) := by
    intro l
    induction l with
    | nil => exact .nil
    | cons ap l ih =>
      obtain ⟨b, ds, h, hproper, hvalue⟩ := byteText_numeral ap
      exact .cons (hvalue ▸ h.cNumber hproper) ih
  refine ⟨_, _, [], hnumbers (octets a), (List.append_nil _).symm, fun c hc => absurd hc (Option.not_mem_none c),
    ?_, ?_⟩
  · rw [octets_toNat]
    exact ⟨Nat.mod_lt _ (by decide), Nat.mod_lt _ (by decide), Nat.mod_lt _ (by decide),
      Nat.mod_lt _ (by decide)⟩
  · have hlt := a.isLt
    rw [octets_toNat]
    simp only [place, Nat.reduceSub, Nat.reducePow] at hlt ⊢
    omega

theorem addrText_length (a : IpAddr) : (addrText a).length ≤ 15 := by
  have hlen := dottedText_length (octets a)
  have hfour : (octets a).length = 4 := rfl
  rw [dottedText_octets, List.length_append, List.length_singleton] at hlen
  omega

theorem zero_not_mem_addrText (a : IpAddr) : 0 ∉ addrText a := by
  intro hmem
  have hdotted : 0 ∈ dottedText (octets a) := by
    rw [dottedText_octets]
    exact List.mem_append_left _ hmem
  obtain ⟨ap, -, hap⟩ := List.mem_flatMap.mp hdotted
  rcases List.mem_append.mp hap with hap | hap
  · exact zero_not_mem_byteText ap hap
  · exact absurd (List.mem_singleton.mp hap) (by decide)

/-- The string is written if there is room for it and a dot; nothing is written behind the buffer. -/
theorem ipaddrNtoaR_spec (a : IpAddr) (buf : ℕ → UInt8) (buflen : ℤ) :
    ∃ null buf', ipaddrNtoaR a buf buflen = (null, buf') ∧ (∀ i : ℕ, buflen ≤ i → buf' i = buf i) ∧
      (null = true → buflen ≤ (addrText a).length) ∧
      (null = false → Holds buf' (addrText a) ∧ (addrText a).length < buflen) := by
  have hstart : Written buf buflen [] ⟨buf, 0⟩ :=
    ⟨rfl, fun i hi => absurd hi (Nat.not_lt_zero i), fun i _ => rfl, fun hne => absurd rfl hne⟩
  rw [ipaddrNtoaR, putBytes_eq, dottedText_octets]
  obtain ⟨hfull, buf', hrun, hout⟩ | ⟨st, hrun, hst⟩ := putChars_spec hstart (addrText a ++ [0x2e])
  · rw [hrun]
    refine ⟨true, buf', rfl, hout, fun _ => ?_, fun hno => absurd hno (by decide)⟩
    rw [List.length_append, List.length_singleton] at hfull
    push_cast at hfull
    simp only [List.length_nil] at hfull
    omega
  · obtain ⟨hholds, hlen, hout⟩ := hst.terminated (zero_not_mem_addrText a)
    rw [hrun]
    exact ⟨false, _, rfl, hout, fun hno => absurd hno (by decide), fun _ => ⟨hholds, hlen⟩⟩

/-- A string is read as the address that it is if and only if it is plain; what is printed into 16 characters is
read as the address again; and every buffer is kept. -/
theorem text_codec_iff (s : List UInt8) (a : IpAddr) (buf : ℕ → UInt8) (buflen : ℤ) :
    ((∀ b, ipaddrAton s = some b ↔ Denotes s b) ↔ Plain s) ∧
    (∃ text buf', ipaddrNtoaR a buf 16 = (false, buf') ∧ Holds buf' text ∧ ipaddrAton text = some a) ∧
    ∃ null buf', ipaddrNtoaR a buf buflen = (null, buf') ∧ (∀ i : ℕ, buflen ≤ i → buf' i = buf i) ∧
      (null = false → ∃ text, Holds buf' text ∧ text.length < buflen) := by
  refine ⟨ipaddrAton_iff s, ?_, ?_⟩
  · obtain ⟨null, buf', hprint, -, hfull, hwritten⟩ := ipaddrNtoaR_spec a buf 16
    have hlen := addrText_length a
    cases null with
    | true =>
      have hle := hfull rfl
      omega
    | false =>
      have hread := ipaddrAton_of_denotes (addrText_denotes a)
      exact ⟨addrText a, buf', hprint, (hwritten rfl).1, hread⟩
  · obtain ⟨null, buf', hprint, hout, -, hwritten⟩ := ipaddrNtoaR_spec a buf buflen
    exact ⟨null, buf', hprint, hout, fun hnull => ⟨addrText a, hwritten hnull⟩⟩

theorem not_denotes (h : Dotted s ns) (hno : ¬ ((∀ n ∈ ns, Proper n) ∧ Fits 4 (ns.map valueOf))) :
    ¬ Denotes s a := by
  intro ha
  obtain ⟨ns', hns', hproper, hfits, -⟩ := denotes_iff.mp ha
  obtain rfl := h.unique hns'
  exact hno ⟨hproper, hfits⟩

/-- "08", "0x", "256.1" and "4294967296" -/
theorem ipaddrAton_lenient :
    (ipaddrAton [0x30, 0x38] = some 8 ∧ ¬ Denotes [0x30, 0x38] 8) ∧
    (ipaddrAton [0x30, 0x78] = some 0 ∧ ¬ Denotes [0x30, 0x78] 0) ∧
    (ipaddrAton [0x32, 0x35, 0x36, 0x2e, 0x31] = some 1 ∧ ¬ Denotes [0x32, 0x35, 0x36, 0x2e, 0x31] 1) ∧
    (ipaddrAton [0x34, 0x32, 0x39, 0x34, 0x39, 0x36, 0x37, 0x32, 0x39, 0x36] = some 0 ∧
      ¬ Denotes [0x34, 0x32, 0x39, 0x34, 0x39, 0x36, 0x37, 0x32, 0x39, 0x36] 0) := by
  have hend : ∀ c ∈ ([] : List UInt8).head?, isspace c := fun c hc => absurd hc (Option.not_mem_none c)
  have hoctal : Dotted ([0x30, 0x38] ++ []) [(8, [8])] :=
    .last (.octal (List.all_eq_true.mp (by decide))) hend
  have hhex : Dotted ([0x30, 0x78] ++ []) [(16, [])] :=
    .last (.hex (.inl rfl) (List.all_eq_true.mp (by decide))) hend
  have hfront : Dotted ([0x32, 0x35, 0x36] ++ 0x2e :: ([0x31] ++ [])) [(10, [2, 5, 6]), (10, [1])] :=
    .dot (.decimal (by decide) (by decide) (List.all_eq_true.mp (by decide)))
      (.last (.decimal (by decide) (by decide) (List.all_eq_true.mp (by decide))) hend)
  have hlast : Dotted ([0x34, 0x32, 0x39, 0x34, 0x39, 0x36, 0x37, 0x32, 0x39, 0x36] ++ [])
      [(10, [4, 2, 9, 4, 9, 6, 7, 2, 9, 6])] :=
    .last (.decimal (by decide) (by decide) (List.all_eq_true.mp (by decide))) hend
  refine ⟨⟨by decide, not_denotes hoctal ?_⟩, ⟨by decide, not_denotes hhex ?_⟩,
    ⟨by decide, not_denotes hfront ?_⟩, by decide, not_denotes hlast ?_⟩
  · rintro ⟨hproper, -⟩
    have hlt := (hproper _ List.mem_cons_self).1 rfl 8 List.mem_cons_self
    omega
  · rintro ⟨hproper, -⟩
    exact (hproper _ List.mem_cons_self).2 rfl rfl
  · rintro ⟨-, hfits, -⟩
    exact absurd hfits (by decide)
  · rintro ⟨-, hfits⟩
    have hlt : valueOf (10, [4, 2, 9, 4, 9, 6, 7, 2, 9, 6]) < 256 ^ 4 := hfits
    exact absurd hlt (by decide)

end QuietLwip.Ip
