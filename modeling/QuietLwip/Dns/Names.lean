import Mathlib.Data.List.Basic
import Mathlib.Tactic.Common

/-!
# Encoded names

`dns_compare_name` and `dns_parse_name`. A pointer into the received message is the list of the bytes
from there on, and a pointer into a stored name the bytes from there on, its NUL among them; a read
behind the last of these bytes has no value. The three relations say what the two loops walk over.
-/

namespace QuietLwip.Dns

/-- `(n & 0xc0) == 0xc0`: the byte starts a compression pointer. -/
def isPointer (n : UInt8) : Bool := n &&& 0xc0 == 0xc0

/-- `dns_parse_name` with `n` bytes of a label to go. -/
def parseLabel : ℕ → List UInt8 → Option (List UInt8)
  | _, [] => none
  | n + 1, _ :: query => parseLabel n query
  -- `*query != 0`, and the byte is the length of the next label
  | 0, n :: query =>
    if n = 0 then some query
    else if isPointer n then some (query.drop 1)
    else parseLabel n.toNat query

/-- `dns_parse_name`. -/
def dnsParseName : List UInt8 → Option (List UInt8)
  | [] => none
  | n :: query => if isPointer n then some (query.drop 1) else parseLabel n.toNat query

/-- `dns_compare_name` with `n` bytes of a label to go. -/
def compareLabel : ℕ → List UInt8 → List UInt8 → Option ℕ
  | _, _, [] => none
  | _ + 1, [], _ => none
  | n + 1, q :: query, r :: response => if q ≠ r then some 1 else compareLabel n query response
  -- `++query`, whatever stands behind the label
  | 0, query, n :: response =>
    if n = 0 then some 0
    else if isPointer n then some 0
    else compareLabel n.toNat (query.drop 1) response

/-- `dns_compare_name`: 0 when the names are equal, 1 when they differ. -/
def dnsCompareName (query : List UInt8) : List UInt8 → Option ℕ
  | [] => none
  | n :: response => if isPointer n then some 0 else compareLabel n.toNat query response

/-! ### What the loops walk over -/

/-- A name, and the bytes behind it. -/
inductive Skips : List UInt8 → List UInt8 → Prop
  | pointer {n : UInt8} {rest : List UInt8} (hn : isPointer n) : Skips (n :: rest) (rest.drop 1)
  | last {n : UInt8} {label rest : List UInt8} (hn : ¬ isPointer n)
    (hlabel : label.length = n.toNat) : Skips (n :: (label ++ 0 :: rest)) rest
  | label {n m : UInt8} {label rest rest' : List UInt8} (hn : ¬ isPointer n)
    (hlabel : label.length = n.toNat) (hm : m ≠ 0) (h : Skips (m :: rest) rest') :
    Skips (n :: (label ++ m :: rest)) rest'

/-- Each label of the response is what stands in the query at its place, up to the end of the name or
a compression pointer. -/
inductive Matches : List UInt8 → List UInt8 → Prop
  | pointer {n : UInt8} {query response : List UInt8} (hn : isPointer n) :
    Matches query (n :: response)
  | last {n : UInt8} {label query response : List UInt8} (hn : ¬ isPointer n)
    (hlabel : label.length = n.toNat) : Matches (label ++ query) (n :: (label ++ 0 :: response))
  | label {n m : UInt8} {label query response : List UInt8} (hn : ¬ isPointer n)
    (hlabel : label.length = n.toNat) (hm : m ≠ 0) (h : Matches (query.drop 1) (m :: response)) :
    Matches (label ++ query) (n :: (label ++ m :: response))

/-- The labels match up to one that differs. -/
inductive Differs : List UInt8 → List UInt8 → Prop
  | byte {n q r : UInt8} {label query response : List UInt8} (hn : ¬ isPointer n)
    (hlabel : label.length < n.toNat) (hne : q ≠ r) :
    Differs (label ++ q :: query) (n :: (label ++ r :: response))
  | label {n m : UInt8} {label query response : List UInt8} (hn : ¬ isPointer n)
    (hlabel : label.length = n.toNat) (hm : m ≠ 0) (h : Differs (query.drop 1) (m :: response)) :
    Differs (label ++ query) (n :: (label ++ m :: response))

/-! ### What a question says -/

/-- `'.'` -/
def dot : UInt8 := 46

/-- The labels without compression, each behind its length, and the root. -/
def encodeName (labels : List (List UInt8)) : List UInt8 :=
  labels.flatMap (fun label => UInt8.ofNat label.length :: label) ++ [0]

/-- The bytes start with the encoded name. -/
def Question (name bytes rest : List UInt8) : Prop :=
  ∃ labels, (∀ label ∈ labels, label ≠ [] ∧ label.length < 192) ∧
    bytes = encodeName labels ++ rest ∧ [dot].intercalate labels = name

/-- The labels match, and yet the question is not for the name: it is compressed, or it is the root,
or it ends before the name does, or a byte of the name between two labels is no dot. -/
inductive Strays : List UInt8 → List UInt8 → Prop
  | pointer {n : UInt8} {query response : List UInt8} (hn : isPointer n) :
    Strays query (n :: response)
  | root {query response : List UInt8} (hquery : query ≠ [0]) (h : Matches query (0 :: response)) :
    Strays query (0 :: response)
  | short {n : UInt8} {label query response : List UInt8} (hn : ¬ isPointer n)
    (hlabel : label.length = n.toNat) (hquery : query ≠ [0]) :
    Strays (label ++ query) (n :: (label ++ 0 :: response))
  | separator {n m : UInt8} {label query response : List UInt8} (hn : ¬ isPointer n) (hpos : n ≠ 0)
    (hlabel : label.length = n.toNat) (hm : m ≠ 0) (hdot : query.head? ≠ some dot)
    (h : Matches (query.drop 1) (m :: response)) :
    Strays (label ++ query) (n :: (label ++ m :: response))
  | label {n m : UInt8} {label query response : List UInt8} (hn : ¬ isPointer n) (hpos : n ≠ 0)
    (hlabel : label.length = n.toNat) (hm : m ≠ 0) (h : Strays query (m :: response)) :
    Strays (label ++ dot :: query) (n :: (label ++ m :: response))

/-! ### The walk of `dns_parse_name` -/

section parse

variable {n : UInt8} {query rest : List UInt8}

theorem parseLabel_append (label : List UInt8) :
    parseLabel label.length (label ++ query) = parseLabel 0 query := by
  induction label with
  | nil => rfl
  | cons b label ih => exact ih

theorem parseLabel_zero (hn : n ≠ 0) : parseLabel 0 (n :: query) = dnsParseName (n :: query) := by
  rw [parseLabel, if_neg hn, dnsParseName]

theorem dnsParseName_of_skips (h : Skips query rest) : dnsParseName query = some rest := by
  induction h with
  | pointer hn => exact if_pos hn
  | last hn hlabel =>
    rw [dnsParseName, if_neg hn, ← hlabel, parseLabel_append]
    rfl
  | label hn hlabel hm h ih =>
    rw [dnsParseName, if_neg hn, ← hlabel, parseLabel_append, parseLabel_zero hm]
    exact ih

/-- The rest of a label of which `k` bytes are to go. -/
theorem parseLabel_some {k : ℕ} (h : parseLabel k query = some rest) :
    ∃ label m tail, label.length = k ∧ query = label ++ m :: tail ∧
      (m = 0 ∧ rest = tail ∨ m ≠ 0 ∧ Skips (m :: tail) rest) := by
  induction query generalizing k with
  | nil => cases k <;> cases h
  | cons n query ih =>
    cases k with
    | zero =>
      refine ⟨[], n, query, rfl, rfl, ?_⟩
      by_cases hn : n = 0
      · rw [parseLabel, if_pos hn] at h
        exact .inl ⟨hn, (Option.some.inj h).symm⟩
      · refine .inr ⟨hn, ?_⟩
        rw [parseLabel, if_neg hn] at h
        by_cases hptr : isPointer n
        · rw [if_pos hptr] at h
          cases h
          exact .pointer hptr
        · rw [if_neg hptr] at h
          obtain ⟨label, m, tail, hlen, rfl, hm⟩ := ih h
          obtain ⟨rfl, rfl⟩ | ⟨hm, hskips⟩ := hm
          · exact .last hptr hlen
          · exact .label hptr hlen hm hskips
    | succ k =>
      obtain ⟨label, m, tail, hlen, rfl, hm⟩ := ih (k := k) h
      exact ⟨n :: label, m, tail, congrArg (· + 1) hlen, rfl, hm⟩

theorem skips_of_dnsParseName (h : dnsParseName query = some rest) : Skips query rest := by
  cases query with
  | nil => cases h
  | cons n query =>
    rw [dnsParseName] at h
    by_cases hptr : isPointer n
    · rw [if_pos hptr] at h
      cases h
      exact .pointer hptr
    · rw [if_neg hptr] at h
      obtain ⟨label, m, tail, hlen, rfl, hm⟩ := parseLabel_some h
      obtain ⟨rfl, rfl⟩ | ⟨hm, hskips⟩ := hm
      · exact .last hptr hlen
      · exact .label hptr hlen hm hskips

theorem dnsParseName_eq_some : dnsParseName query = some rest ↔ Skips query rest :=
  ⟨skips_of_dnsParseName, dnsParseName_of_skips⟩

/-- More bytes behind the message make no difference, but for a compression pointer that is cut off
after its first byte. -/
theorem Skips.append (h : Skips query rest) (behind : List UInt8) :
    ∃ rest', Skips (query ++ behind) rest' ∧ (rest ≠ [] → rest' = rest ++ behind) := by
  induction h with
  | @pointer n rest hn =>
    refine ⟨(rest ++ behind).drop 1, .pointer hn, fun hne => ?_⟩
    cases rest with
    | nil => exact absurd rfl hne
    | cons b rest => rfl
  | @last n label rest hn hlabel =>
    refine ⟨rest ++ behind, ?_, fun _ => rfl⟩
    rw [List.cons_append, List.append_assoc]
    exact .last hn hlabel
  | @label n m label rest rest' hn hlabel hm h ih =>
    obtain ⟨rest'', hskips, hrest⟩ := ih
    refine ⟨rest'', ?_, hrest⟩
    rw [List.cons_append, List.append_assoc]
    exact .label hn hlabel hm hskips

end parse

/-! ### The walk of `dns_compare_name` -/

section compare

variable {n : UInt8} {query response : List UInt8}

theorem compareLabel_append (label : List UInt8) :
    compareLabel label.length (label ++ query) (label ++ response) =
      compareLabel 0 query response := by
  induction label with
  | nil => rfl
  | cons b label ih => simpa [compareLabel] using ih

theorem compareLabel_zero (hn : n ≠ 0) :
    compareLabel 0 query (n :: response) = dnsCompareName (query.drop 1) (n :: response) := by
  rw [compareLabel, if_neg hn, dnsCompareName]

theorem compareLabel_zero_nul : compareLabel 0 query (0 :: response) = some 0 := by
  rw [compareLabel, if_pos rfl]

theorem dnsCompareName_of_matches (h : Matches query response) :
    dnsCompareName query response = some 0 := by
  induction h with
  | pointer hn => exact if_pos hn
  | last hn hlabel =>
    rw [dnsCompareName, if_neg hn, ← hlabel, compareLabel_append]
    exact compareLabel_zero_nul
  | label hn hlabel hm h ih =>
    rw [dnsCompareName, if_neg hn, ← hlabel, compareLabel_append,
      compareLabel_zero hm]
    exact ih

theorem compareLabel_byte {k : ℕ} {q r : UInt8} (label : List UInt8) (hlabel : label.length < k)
    (hne : q ≠ r) : compareLabel k (label ++ q :: query) (label ++ r :: response) = some 1 := by
  induction label generalizing k with
  | nil =>
    obtain ⟨k, rfl⟩ := Nat.exists_eq_succ_of_ne_zero (Nat.ne_of_gt hlabel)
    exact if_pos hne
  | cons b label ih =>
    obtain ⟨k, rfl⟩ := Nat.exists_eq_succ_of_ne_zero (Nat.ne_of_gt (Nat.zero_lt_of_lt hlabel))
    have hrest := ih (k := k) (Nat.lt_of_succ_lt_succ hlabel)
    simpa [compareLabel] using hrest

theorem dnsCompareName_of_differs (h : Differs query response) :
    dnsCompareName query response = some 1 := by
  induction h with
  | byte hn hlabel hne =>
    rw [dnsCompareName, if_neg hn]
    exact compareLabel_byte _ hlabel hne
  | label hn hlabel hm h ih =>
    rw [dnsCompareName, if_neg hn, ← hlabel, compareLabel_append,
      compareLabel_zero hm]
    exact ih

/-- What the rest of a label of which `k` bytes are to go looks like when no read is out of place. -/
theorem compareLabel_some {k v : ℕ} (h : compareLabel k query response = some v) :
    (∃ label q r query' tail, label.length < k ∧ q ≠ r ∧ query = label ++ q :: query' ∧
      response = label ++ r :: tail ∧ v = 1) ∨
    ∃ label m query' tail, label.length = k ∧ query = label ++ query' ∧ response = label ++ m :: tail ∧
      (m = 0 ∧ v = 0 ∨ m ≠ 0 ∧ (v = 0 ∧ Matches (query'.drop 1) (m :: tail) ∨
        v = 1 ∧ Differs (query'.drop 1) (m :: tail))) := by
  induction response generalizing k query with
  | nil => cases k <;> cases query <;> cases h
  | cons r response ih =>
    cases k with
    | zero =>
      refine .inr ⟨[], r, query, response, rfl, rfl, rfl, ?_⟩
      by_cases hr : r = 0
      · rw [compareLabel, if_pos hr] at h
        exact .inl ⟨hr, (Option.some.inj h).symm⟩
      · refine .inr ⟨hr, ?_⟩
        rw [compareLabel, if_neg hr] at h
        by_cases hptr : isPointer r
        · rw [if_pos hptr] at h
          exact .inl ⟨(Option.some.inj h).symm, .pointer hptr⟩
        · rw [if_neg hptr] at h
          obtain ⟨label, q, s, query', tail, hlen, hne, hquery, rfl, rfl⟩ |
            ⟨label, m, query', tail, hlen, hquery, rfl, hend⟩ := ih h
          · rw [hquery]
            exact .inr ⟨rfl, .byte hptr hlen hne⟩
          · rw [hquery]
            obtain ⟨rfl, rfl⟩ | ⟨hm, ⟨rfl, hmatch⟩ | ⟨rfl, hdiff⟩⟩ := hend
            · exact .inl ⟨rfl, .last hptr hlen⟩
            · exact .inl ⟨rfl, .label hptr hlen hm hmatch⟩
            · exact .inr ⟨rfl, .label hptr hlen hm hdiff⟩
    | succ k =>
      cases query with
      | nil => cases h
      | cons q query =>
        rw [compareLabel] at h
        by_cases hne : q ≠ r
        · rw [if_pos hne] at h
          exact .inl ⟨[], q, r, query, response, Nat.succ_pos k, hne, rfl, rfl,
            (Option.some.inj h).symm⟩
        · rw [if_neg hne] at h
          obtain rfl := not_not.mp hne
          obtain ⟨label, a, s, query', tail, hlen, hne, rfl, rfl, hv⟩ |
            ⟨label, m, query', tail, hlen, rfl, rfl, hend⟩ := ih h
          · exact .inl ⟨q :: label, a, s, query', tail, Nat.succ_lt_succ hlen, hne, rfl, rfl, hv⟩
          · exact .inr ⟨q :: label, m, query', tail, congrArg (· + 1) hlen, rfl, rfl, hend⟩

theorem dnsCompareName_cases {v : ℕ} (h : dnsCompareName query response = some v) :
    v = 0 ∧ Matches query response ∨ v = 1 ∧ Differs query response := by
  cases response with
  | nil => cases h
  | cons n response =>
    rw [dnsCompareName] at h
    by_cases hptr : isPointer n
    · rw [if_pos hptr] at h
      exact .inl ⟨(Option.some.inj h).symm, .pointer hptr⟩
    · rw [if_neg hptr] at h
      obtain ⟨label, q, r, query', tail, hlen, hne, rfl, rfl, hv⟩ |
        ⟨label, m, query', tail, hlen, rfl, rfl, hend⟩ := compareLabel_some h
      · exact .inr ⟨hv, .byte hptr hlen hne⟩
      · obtain ⟨rfl, hv⟩ | ⟨hm, ⟨hv, hmatch⟩ | ⟨hv, hdiff⟩⟩ := hend
        · exact .inl ⟨hv, .last hptr hlen⟩
        · exact .inl ⟨hv, .label hptr hlen hm hmatch⟩
        · exact .inr ⟨hv, .label hptr hlen hm hdiff⟩

theorem dnsCompareName_eq_zero : dnsCompareName query response = some 0 ↔ Matches query response := by
  refine ⟨fun h => ?_, dnsCompareName_of_matches⟩
  obtain ⟨-, hmatch⟩ | ⟨hv, -⟩ := dnsCompareName_cases h
  · exact hmatch
  · cases hv

/-- The comparison stays in the message and in the name. -/
theorem dnsCompareName_isSome :
    (dnsCompareName query response).isSome ↔ Matches query response ∨ Differs query response := by
  rw [Option.isSome_iff_exists]
  constructor
  · rintro ⟨v, hv⟩
    exact (dnsCompareName_cases hv).imp And.right And.right
  · rintro (h | h)
    · exact ⟨0, dnsCompareName_of_matches h⟩
    · exact ⟨1, dnsCompareName_of_differs h⟩

/-- Behind the name's last byte only a compression pointer still matches. -/
theorem Matches.pointer_of_nil (h : Matches [] (n :: response)) (hn : n ≠ 0) : isPointer n := by
  generalize hquery : ([] : List UInt8) = query at h
  generalize hbytes : n :: response = bytes at h
  cases h with
  | pointer hptr =>
    cases hbytes
    exact hptr
  | last hptr hlabel | label hptr hlabel =>
    cases hbytes
    obtain ⟨rfl, -⟩ := List.nil_eq_append_iff.mp hquery
    exact absurd (UInt8.toNat_inj.mp hlabel.symm) hn

/-- More bytes behind the name and behind the message make no difference. -/
theorem Matches.append (h : Matches query response) (behind behind' : List UInt8) :
    Matches (query ++ behind) (response ++ behind') := by
  induction h with
  | pointer hn => exact .pointer hn
  | last hn hlabel =>
    simp only [List.append_assoc, List.cons_append]
    exact .last hn hlabel
  | @label n m label query response hn hlabel hm h ih =>
    simp only [List.append_assoc, List.cons_append]
    apply Matches.label hn hlabel hm
    cases query with
    | nil => exact .pointer (h.pointer_of_nil hm)
    | cons q query => exact ih

theorem Differs.ne_nil (h : Differs query response) : query ≠ [] := by
  induction h with
  | byte => simp
  | label hn hlabel hm h ih =>
    rintro hnil
    obtain ⟨-, rfl⟩ := List.append_eq_nil_iff.mp hnil
    exact ih rfl

theorem Differs.append (h : Differs query response) (behind behind' : List UInt8) :
    Differs (query ++ behind) (response ++ behind') := by
  induction h with
  | byte hn hlabel hne =>
    simp only [List.append_assoc, List.cons_append]
    exact .byte hn hlabel hne
  | @label n m label query response hn hlabel hm h ih =>
    simp only [List.append_assoc, List.cons_append]
    apply Differs.label hn hlabel hm
    cases query with
    | nil => exact absurd rfl h.ne_nil
    | cons q query => exact ih

end compare

/-! ### Questions that match -/

section question

variable {name query bytes rest : List UInt8}

/-- `Question`, label by label. -/
inductive Spells : List UInt8 → List UInt8 → List UInt8 → Prop
  | root {rest : List UInt8} : Spells [] (0 :: rest) rest
  | last {n : UInt8} {label rest : List UInt8} (hn : ¬ isPointer n) (hpos : n ≠ 0)
    (hlabel : label.length = n.toNat) : Spells label (n :: (label ++ 0 :: rest)) rest
  | label {n m : UInt8} {label name bytes rest : List UInt8} (hn : ¬ isPointer n) (hpos : n ≠ 0)
    (hlabel : label.length = n.toNat) (hm : m ≠ 0) (h : Spells name (m :: bytes) rest) :
    Spells (label ++ dot :: name) (n :: (label ++ m :: bytes)) rest

theorem isPointer_iff (n : UInt8) : isPointer n ↔ 192 ≤ n.toNat := by
  obtain ⟨⟨k⟩⟩ := n
  revert k
  decide +kernel

/-- A label that can stand behind its length byte. -/
theorem lengthByte {label : List UInt8} (h : label ≠ [] ∧ label.length < 192) :
    ¬ isPointer (.ofNat label.length) ∧ UInt8.ofNat label.length ≠ 0 ∧
      label.length = (UInt8.ofNat label.length).toNat := by
  have hlen : (UInt8.ofNat label.length).toNat = label.length :=
    UInt8.toNat_ofNat_of_lt' (Nat.lt_trans h.2 (by decide))
  have hpos := List.length_pos_of_ne_nil h.1
  refine ⟨?_, ?_, hlen.symm⟩
  · rw [isPointer_iff]
    omega
  · intro hzero
    rw [hzero] at hlen
    exact Nat.ne_of_gt hpos hlen.symm

theorem label_ok {n : UInt8} {label : List UInt8} (hn : ¬ isPointer n) (hpos : n ≠ 0)
    (hlabel : label.length = n.toNat) :
    (label ≠ [] ∧ label.length < 192) ∧ UInt8.ofNat label.length = n := by
  rw [isPointer_iff] at hn
  refine ⟨⟨?_, by omega⟩, by rw [hlabel, UInt8.ofNat_toNat]⟩
  rintro rfl
  exact hpos (UInt8.toNat_inj.mp hlabel.symm)

theorem encodeName_cons (label : List UInt8) (labels : List (List UInt8)) :
    encodeName (label :: labels) = .ofNat label.length :: (label ++ encodeName labels) := by
  simp [encodeName]

theorem Spells.question (h : Spells name bytes rest) : Question name bytes rest := by
  induction h with
  | root => exact ⟨[], by simp, rfl, rfl⟩
  | @last n label rest hn hpos hlabel =>
    obtain ⟨hok, hlen⟩ := label_ok hn hpos hlabel
    refine ⟨[label], by simpa using hok, ?_, by simp⟩
    rw [encodeName_cons, hlen]
    simp [encodeName]
  | @label n m label name bytes rest hn hpos hlabel hm h ih =>
    obtain ⟨hok, hlen⟩ := label_ok hn hpos hlabel
    obtain ⟨labels, hlabels, hbytes, hname⟩ := ih
    refine ⟨label :: labels, List.forall_mem_cons.mpr ⟨hok, hlabels⟩, ?_, ?_⟩
    · rw [encodeName_cons, hlen, hbytes]
      simp
    · have hne : labels ≠ [] := by
        rintro rfl
        cases hbytes
        exact hm rfl
      rw [List.intercalate_cons_of_ne_nil hne, hname]
      simp

theorem Question.spells (h : Question name bytes rest) : Spells name bytes rest := by
  obtain ⟨labels, hlabels, rfl, rfl⟩ := h
  induction labels with
  | nil => exact .root
  | cons label labels ih =>
    obtain ⟨hok, hlabels⟩ := List.forall_mem_cons.mp hlabels
    obtain ⟨hn, hpos, hlen⟩ := lengthByte hok
    have hrest := ih hlabels
    cases labels with
    | nil =>
      rw [List.intercalate_singleton, encodeName_cons]
      have hlast : Spells label (.ofNat label.length :: (label ++ 0 :: rest)) rest :=
        .last hn hpos hlen
      simpa [encodeName] using hlast
    | cons next labels =>
      obtain ⟨-, hm, -⟩ := lengthByte (List.forall_mem_cons.mp hlabels).1
      rw [List.intercalate_cons_cons, encodeName_cons, List.append_assoc]
      rw [encodeName_cons] at hrest ⊢
      simpa using Spells.label hn hpos hlen hm hrest

theorem Strays.matches (h : Strays query bytes) : Matches query bytes := by
  induction h with
  | pointer hn => exact .pointer hn
  | root hquery h => exact h
  | short hn hlabel hquery => exact .last hn hlabel
  | separator hn hpos hlabel hm hdot h => exact .label hn hlabel hm h
  | label hn hpos hlabel hm h ih => exact .label hn hlabel hm ih

theorem Strays.cases_cons {n : UInt8} (h : Strays query (n :: bytes)) :
    isPointer n ∨ n = 0 ∧ query ≠ [0] ∨
      ∃ label m query' tail, label.length = n.toNat ∧ query = label ++ query' ∧
        bytes = label ++ m :: tail ∧
        (m = 0 ∧ query' ≠ [0] ∨ m ≠ 0 ∧ n ≠ 0 ∧
          (query'.head? ≠ some dot ∨ Strays (query'.drop 1) (m :: tail))) := by
  generalize hbytes : n :: bytes = whole at h
  cases h with
  | pointer hn =>
    cases hbytes
    exact .inl hn
  | root hquery h =>
    cases hbytes
    exact .inr (.inl ⟨rfl, hquery⟩)
  | short hn hlabel hquery =>
    cases hbytes
    exact .inr (.inr ⟨_, _, _, _, hlabel, rfl, rfl, .inl ⟨rfl, hquery⟩⟩)
  | separator hn hpos hlabel hm hdot h =>
    cases hbytes
    exact .inr (.inr ⟨_, _, _, _, hlabel, rfl, rfl, .inr ⟨hm, hpos, .inl hdot⟩⟩)
  | label hn hpos hlabel hm h =>
    cases hbytes
    exact .inr (.inr ⟨_, _, _, _, hlabel, rfl, rfl, .inr ⟨hm, hpos, .inr h⟩⟩)

theorem Spells.not_strays (h : Spells name bytes rest) : ¬ Strays (name ++ [0]) bytes := by
  induction h with
  | root =>
    intro hs
    obtain hptr | ⟨-, hne⟩ | ⟨label, m, query', tail, hlen, hquery, rfl, hend⟩ := hs.cases_cons
    · exact absurd hptr (by decide)
    · exact hne rfl
    · obtain rfl := List.eq_nil_of_length_eq_zero hlen
      obtain ⟨-, hne⟩ | ⟨-, hpos, -⟩ := hend
      · exact hne hquery.symm
      · exact hpos rfl
  | last hn hpos hlabel =>
    intro hs
    obtain hptr | ⟨hzero, -⟩ | ⟨label, m, query', tail, hlen, hquery, hbytes, hend⟩ := hs.cases_cons
    · exact hn hptr
    · exact hpos hzero
    · obtain ⟨rfl, hrest⟩ := List.append_inj hbytes (hlabel.trans hlen.symm)
      cases hrest
      obtain ⟨-, hne⟩ | ⟨hm, -⟩ := hend
      · exact hne (List.append_cancel_left hquery).symm
      · exact hm rfl
  | @label n m label name bytes rest hn hpos hlabel hm h ih =>
    intro hs
    obtain hptr | ⟨hzero, -⟩ | ⟨label', m', query', tail, hlen, hquery, hbytes, hend⟩ :=
      hs.cases_cons
    · exact hn hptr
    · exact hpos hzero
    · obtain ⟨rfl, hrest⟩ := List.append_inj hbytes (hlabel.trans hlen.symm)
      cases hrest
      rw [List.append_assoc] at hquery
      obtain rfl := List.append_cancel_left hquery
      obtain ⟨hzero, -⟩ | ⟨-, -, hdot | hstrays⟩ := hend
      · exact hm hzero
      · exact hdot rfl
      · exact ih hstrays

theorem Spells.ne_nil {m : UInt8} (h : Spells name (m :: bytes) rest) (hm : m ≠ 0) : name ≠ [] := by
  generalize hbytes : m :: bytes = whole at h
  cases h with
  | root =>
    cases hbytes
    exact absurd rfl hm
  | last hn hpos hlabel =>
    rintro rfl
    exact hpos (UInt8.toNat_inj.mp hlabel.symm)
  | label => simp

/-- `dns_parse_name` ends where the name does, if there is a label. -/
theorem Spells.skips (h : Spells name bytes rest) (hname : name ≠ []) : Skips bytes rest := by
  induction h with
  | root => exact absurd rfl hname
  | last hn hpos hlabel => exact .last hn hlabel
  | label hn hpos hlabel hm h ih =>
    exact .label hn hlabel hm (ih (h.ne_nil hm))

/-- What stands in a name, its NUL included, behind a label that it starts with. -/
theorem append_nul_eq {label : List UInt8} (hname : 0 ∉ name) (h : name ++ [0] = label ++ query) :
    query = [] ∨ ∃ name', 0 ∉ name' ∧ name = label ++ name' ∧ query = name' ++ [0] := by
  obtain ⟨tail, rfl, hq⟩ | ⟨tail, rfl, hq⟩ := List.append_eq_append_iff.mp h
  · cases tail with
    | nil => exact .inr ⟨[], by simp, by simp, hq.symm⟩
    | cons b tail =>
      left
      cases tail with
      | nil => exact (List.cons_eq_cons.mp hq).2.symm
      | cons c tail => cases hq
  · exact .inr ⟨tail, fun h => hname (List.mem_append_right _ h), rfl, hq⟩

theorem Matches.spells (h : Matches (name ++ [0]) bytes) (hstrays : ¬ Strays (name ++ [0]) bytes)
    (hname : 0 ∉ name) : ∃ rest, Spells name bytes rest := by
  generalize hquery : name ++ [0] = query at h hstrays
  induction h generalizing name with
  | pointer hn => exact absurd (.pointer hn) hstrays
  | @last n label query response hn hlabel =>
    obtain rfl | ⟨name', -, rfl, rfl⟩ := append_nul_eq hname hquery
    · exact absurd (.short hn hlabel (by simp)) hstrays
    · cases name' with
      | nil =>
        rw [List.append_nil]
        by_cases hpos : n = 0
        · subst hpos
          obtain rfl := List.eq_nil_of_length_eq_zero hlabel
          exact ⟨_, .root⟩
        · exact ⟨response, .last hn hpos hlabel⟩
      | cons b name' => exact absurd (.short hn hlabel (by simp)) hstrays
  | @label n m label query response hn hlabel hm h ih =>
    by_cases hpos : n = 0
    · subst hpos
      obtain rfl := List.eq_nil_of_length_eq_zero hlabel
      by_cases hq : query = [0]
      · subst hq
        obtain rfl : name = [] := by simpa using hquery
        exact ⟨_, .root⟩
      · exact absurd (.root hq (.label hn rfl hm h)) hstrays
    · by_cases hdot : query.head? = some dot
      · obtain rfl | ⟨name', hname', rfl, rfl⟩ := append_nul_eq hname hquery
        · cases hdot
        · cases name' with
          | nil => cases hdot
          | cons b name' =>
            cases hdot
            have hnot : ¬ Strays (name' ++ [0]) (m :: response) :=
              fun hs => hstrays (.label hn hpos hlabel hm hs)
            obtain ⟨rest, hspells⟩ := ih (fun h => hname' (List.mem_cons_of_mem _ h)) rfl hnot
            exact ⟨rest, .label hn hpos hlabel hm hspells⟩
      · exact absurd (.separator hn hpos hlabel hm hdot h) hstrays

/-- Exactly the questions that stray are taken for the name's without being it. -/
theorem dnsCompareName_question (hname : 0 ∉ name) :
    (dnsCompareName (name ++ [0]) bytes = some 0 → ∃ rest, Question name bytes rest) ↔
      ¬ Strays (name ++ [0]) bytes := by
  rw [dnsCompareName_eq_zero]
  constructor
  · intro h hstrays
    obtain ⟨rest, hquestion⟩ := h hstrays.matches
    exact hquestion.spells.not_strays hstrays
  · intro hstrays h
    obtain ⟨rest, hspells⟩ := h.spells hstrays hname
    exact ⟨rest, hspells.question⟩

end question

end QuietLwip.Dns
