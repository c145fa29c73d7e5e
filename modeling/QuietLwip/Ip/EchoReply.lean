import Mathlib.Data.List.GetD
import QuietLwip.Ip.Output

/-!
# Echo replies

`icmp_input` makes a reply of a request by stores through two pointers, to the IP header and to the
ICMP header behind it. The addresses, the TTL and the checksum go where a header of 20 bytes has
them, and its checksum is that of 20 bytes, whatever the length in the header is. The checksum of
the message is not computed again: the type goes from 8 to 0, and the checksum makes up for it.
-/

namespace QuietLwip.Ip

open Buffers OnesComplement

/-! ### The stores -/

/-- The bytes `l` are stored from `i` on. -/
def store (mem : List UInt8) (i : ℕ) (l : List UInt8) : List UInt8 :=
  mem.take i ++ (l ++ mem.drop (i + l.length))

/-- The `u16_t` at `i`, as the machine has it. -/
def load (mem : List UInt8) (i : ℕ) : ℕ := (mem.getD i 0).toNat + 256 * (mem.getD (i + 1) 0).toNat

/-- The checksum of a reply, from that of the request; `8` is `ICMP_ECHO`. -/
def adjustChksum (chksum : ℕ) : ℕ :=
  if chksum ≥ htons (0xffff - 8 * 256) then (chksum + (htons (8 * 256) + 1)) % 2 ^ 16
  else (chksum + htons (8 * 256)) % 2 ^ 16

/-- The memory with a request becomes that with its reply; `iphdr` and `iecho` are the places of the
two headers. -/
def makeReply (odd : Bool) (iphdr iecho : ℕ) (src dest : IpAddr) (mem : List UInt8) : List UInt8 :=
  let mem := store mem (iphdr + 12) (addrBytes dest)
  let mem := store mem (iphdr + 16) (addrBytes src)
  -- `ICMP_ER`
  let mem := store mem iecho [0]
  let mem := store mem (iecho + 2) (memWord (adjustChksum (load mem (iecho + 2))))
  -- `ICMP_TTL`
  let mem := store mem (iphdr + 8) [255]
  let mem := store mem (iphdr + 10) (memWord 0)
  store mem (iphdr + 10) (memWord (inetChksum odd ((mem.drop iphdr).take 20)))

/-! ### What a reply is -/

/-- The packet `l'` is the reply to `l`, an echo request with a header of `hlen` bytes: a packet with
the same header length, the addresses swapped, the type `ICMP_ER`, the rest of the message from the
identifier on the same, and both checksums right. -/
structure IsReply (hlen : ℕ) (l l' : List UInt8) : Prop where
  length : l'.length = l.length
  least : 20 ≤ l'.length
  first : l'.getD 0 0 = l.getD 0 0
  addrs : (l'.drop 12).take 8 = (l.drop 16).take 4 ++ (l.drop 12).take 4
  type : l'.getD hlen 0 = 0
  same : l'.drop (hlen + 4) = l.drop (hlen + 4)
  message : Verifies (l'.drop hlen)
  header : Verifies (l'.take hlen)

/-- The words of the options add nothing to the sum of the header, and the message has a byte that is
not zero next to its type and its checksum. -/
structure PlainRequest (hlen : ℕ) (l : List UInt8) : Prop where
  least : 20 ≤ hlen
  options : 65535 ∣ netSum ((l.take hlen).drop 20)
  message : ¬ (l.getD (hlen + 1) 0 = 0 ∧ ∀ b ∈ l.drop (hlen + 4), b = 0)

/-- A header of four bytes, with a message on the place of the rest of it in which the stores find what
they write. -/
structure OverlaidRequest (hlen : ℕ) (l : List UInt8) : Prop where
  four : hlen = 4
  length : 20 ≤ l.length
  ttl : l.getD 8 0 = 255
  chksum : (l.drop 10).take 2 ≠ [255, 255]
  addrs : (l.drop 16).take 4 = (l.drop 12).take 4
  rest : 65535 ∣ netSum (l.drop 20)
  header : Verifies (l.take 4)

variable {l l' rest opts pre m post : List UInt8} {odd : Bool} {src dest : IpAddr} {hlen i c : ℕ}
  {code c₀ c₁ : UInt8}

/-! ### Stores in a part of the memory -/

theorem store_length (h : i + l.length ≤ m.length) : (store m i l).length = m.length := by
  rw [store, List.length_append, List.length_append, List.length_take, List.length_drop]
  omega

theorem store_middle (pre post : List UInt8) (h : i + l.length ≤ m.length) :
    store (pre ++ (m ++ post)) (pre.length + i) l = pre ++ (store m i l ++ post) := by
  rw [store, store, Nat.add_assoc, List.take_length_add_append, List.drop_length_add_append,
    List.take_append_of_le_length (by omega), List.drop_append_of_le_length h]
  simp only [List.append_assoc]

theorem getD_middle (pre post : List UInt8) (h : i < m.length) :
    (pre ++ (m ++ post)).getD (pre.length + i) 0 = m.getD i 0 := by
  rw [List.getD_append_right _ _ _ _ (by omega), Nat.add_sub_cancel_left, List.getD_append _ _ _ _ h]

theorem load_middle (pre post : List UInt8) (h : i + 2 ≤ m.length) :
    load (pre ++ (m ++ post)) (pre.length + i) = load m i := by
  rw [load, load, Nat.add_assoc, getD_middle pre post (by omega), getD_middle pre post (by omega)]

theorem drop_middle (pre post : List UInt8) (h : i ≤ m.length) :
    ((pre ++ (m ++ post)).drop pre.length).take i = m.take i := by
  rw [List.drop_left, List.take_append_of_le_length h]

theorem makeReply_length {iphdr iecho : ℕ} (hiphdr : iphdr + 20 ≤ m.length) (hiecho : iecho + 8 ≤ m.length) :
    (makeReply odd iphdr iecho src dest m).length = m.length := by
  have haddr : ∀ a, (addrBytes a).length = 4 := fun _ => rfl
  have hstore : ∀ {m' i l}, m'.length = m.length → i + l.length ≤ m.length →
      (store m' i l).length = m.length := fun hm h => (store_length (hm ▸ h)).trans hm
  refine hstore (hstore (hstore (hstore (hstore (hstore (hstore rfl ?_) ?_) ?_) ?_) ?_) ?_) ?_
  all_goals simp only [haddr, memWord_length, List.length_singleton]
  all_goals omega

/-- What lies around the packet is kept, and does not matter. -/
theorem makeReply_middle (odd : Bool) (src dest : IpAddr) (pre post : List UInt8) (h20 : 20 ≤ m.length)
    (hlen8 : hlen + 8 ≤ m.length) :
    makeReply odd pre.length (pre.length + hlen) src dest (pre ++ (m ++ post)) =
      pre ++ (makeReply odd 0 hlen src dest m ++ post) := by
  have haddr : ∀ a, (addrBytes a).length = 4 := fun _ => rfl
  have hword : ∀ x, (memWord x).length = 2 := memWord_length
  simp only [makeReply, Nat.zero_add, Nat.add_assoc, List.drop_zero]
  have h1 : (store m 12 (addrBytes dest)).length = m.length := store_length (by rw [haddr]; omega)
  rw [store_middle pre post (by rw [haddr]; omega)]
  generalize store m 12 (addrBytes dest) = m₁ at h1 ⊢
  have h2 : (store m₁ 16 (addrBytes src)).length = m.length :=
    (store_length (by rw [haddr]; omega)).trans h1
  rw [store_middle pre post (by rw [haddr]; omega)]
  generalize store m₁ 16 (addrBytes src) = m₂ at h2 ⊢
  have h3 : (store m₂ hlen [0]).length = m.length :=
    (store_length (by rw [List.length_singleton]; omega)).trans h2
  rw [store_middle pre post (by rw [List.length_singleton]; omega)]
  generalize store m₂ hlen [0] = m₃ at h3 ⊢
  rw [load_middle pre post (by omega)]
  generalize adjustChksum (load m₃ (hlen + 2)) = x
  have h4 : (store m₃ (hlen + 2) (memWord x)).length = m.length :=
    (store_length (by rw [hword]; omega)).trans h3
  rw [store_middle pre post (by rw [hword]; omega)]
  generalize store m₃ (hlen + 2) (memWord x) = m₄ at h4 ⊢
  have h5 : (store m₄ 8 [255]).length = m.length :=
    (store_length (by rw [List.length_singleton]; omega)).trans h4
  rw [store_middle pre post (by rw [List.length_singleton]; omega)]
  generalize store m₄ 8 [255] = m₅ at h5 ⊢
  have h6 : (store m₅ 10 (memWord 0)).length = m.length :=
    (store_length (by rw [hword]; omega)).trans h5
  rw [store_middle pre post (by rw [hword]; omega)]
  generalize store m₅ 10 (memWord 0) = m₆ at h6 ⊢
  rw [drop_middle pre post (by omega), store_middle pre post (by rw [hword]; omega)]

/-! ### The checksum of the message -/

theorem value_eq_zero : value l = 0 ↔ ∀ b ∈ l, b = 0 := by
  induction l with
  | nil => simp
  | cons b l ih =>
    have hb : b.toNat = 0 ↔ b = 0 := ⟨fun h => UInt8.toNat_inj.mp h, fun h => by rw [h]; rfl⟩
    rw [value_cons, Nat.add_eq_zero_iff, Nat.mul_eq_zero, or_iff_right (by decide), ih, hb,
      List.forall_mem_cons]

/-- A message with its type, code and checksum in front. -/
theorem value_message (type code : UInt8) (hc : c < 65536) (rest : List UInt8) :
    value (type :: code :: (memWord c ++ rest)) =
      type.toNat + 256 * code.toNat + 65536 * c + 65536 * 65536 * value rest := by
  have happ : value (memWord c ++ rest) = c + 65536 * value rest := by
    rw [value_append, value_memWord hc, memWord_length]
    rfl
  rw [value_cons, value_cons, happ]
  omega

/-- The sum with its carry; where it would be `0xffff` it is 0. -/
theorem adjustChksum_spec (hc : c < 65536) : adjustChksum c < 65536 ∧
    (adjustChksum c = 0 ↔ c = 0xfff7) ∧ ∃ carry, adjustChksum c + 65535 * carry = c + 8 := by
  have hadjust : adjustChksum c = if c ≥ 0xfff7 then (c + 9) % 65536 else (c + 8) % 65536 := rfl
  rw [hadjust]
  split
  · exact ⟨by omega, by omega, 1, by omega⟩
  · exact ⟨by omega, by omega, 0, by omega⟩

/-- The adjusted checksum verifies, unless there is nothing else to add up: the checksum `0xffff` would
be right there, and it has become 0. -/
theorem verifies_adjustChksum (hc : c < 65536) (h : Verifies (8 :: code :: (memWord c ++ rest))) :
    Verifies (0 :: code :: (memWord (adjustChksum c) ++ rest)) ↔
      ¬ (code = 0 ∧ ∀ b ∈ rest, b = 0) := by
  obtain ⟨hlt, hzero, carry, hcarry⟩ := adjustChksum_spec hc
  have hcode : code.toNat = 0 ↔ code = 0 := ⟨fun h => UInt8.toNat_inj.mp h, fun h => by rw [h]; rfl⟩
  rw [verifies_iff, value_message _ _ hc, residue_eq_top] at h
  rw [verifies_iff, value_message _ _ hlt, residue_eq_top, ← value_eq_zero, ← hcode]
  obtain ⟨-, n, hn⟩ := h
  change 8 + _ + _ + _ = _ at hn
  change 0 + _ + _ + _ ≠ 0 ∧ 65535 ∣ 0 + _ + _ + _ ↔ _
  have hlow := code.toNat_lt
  have hdvd : 65535 ∣ 0 + 256 * code.toNat + 65536 * adjustChksum c + 65536 * 65536 * value rest :=
    ⟨n + 8 - 65536 * carry, by omega⟩
  refine ⟨fun hne ⟨hk, hv⟩ => hne.1 ?_, fun hne => ⟨?_, hdvd⟩⟩
  · have hall : c = 0xfff7 := by omega
    rw [hk, hv, hzero.mpr hall]
  · omega

/-! ### The header -/

theorem exists_word (h : 4 ≤ l.length) : ∃ a b c d r, l = a :: b :: c :: d :: r := by
  match l, h with
  | a :: b :: c :: d :: r, _ => exact ⟨a, b, c, d, r, rfl⟩
  | [], h | [_], h | [_, _], h | [_, _, _], h =>
    simp only [List.length_cons, List.length_nil] at h
    omega

theorem exists_header (h : 20 ≤ l.length) : ∃ f₀ f₁ f₂ f₃ f₄ f₅ f₆ f₇ ttl proto k₀ k₁ s₀ s₁ s₂ s₃ d₀ d₁
    d₂ d₃ back, l = [f₀, f₁, f₂, f₃, f₄, f₅, f₆, f₇, ttl, proto, k₀, k₁, s₀, s₁, s₂, s₃, d₀, d₁, d₂, d₃] ++
      back := by
  obtain ⟨f₀, f₁, f₂, f₃, l₁, rfl⟩ := exists_word (show 4 ≤ l.length by omega)
  simp only [List.length_cons] at h
  obtain ⟨f₄, f₅, f₆, f₇, l₂, rfl⟩ := exists_word (show 4 ≤ l₁.length by omega)
  simp only [List.length_cons] at h
  obtain ⟨ttl, proto, k₀, k₁, l₃, rfl⟩ := exists_word (show 4 ≤ l₂.length by omega)
  simp only [List.length_cons] at h
  obtain ⟨s₀, s₁, s₂, s₃, l₄, rfl⟩ := exists_word (show 4 ≤ l₃.length by omega)
  simp only [List.length_cons] at h
  obtain ⟨d₀, d₁, d₂, d₃, back, rfl⟩ := exists_word (show 4 ≤ l₄.length by omega)
  exact ⟨f₀, f₁, f₂, f₃, f₄, f₅, f₆, f₇, ttl, proto, k₀, k₁, s₀, s₁, s₂, s₃, d₀, d₁, d₂, d₃, back, rfl⟩

theorem dvd_netSum (l : List UInt8) : 65535 ∣ netSum l ↔ 65535 ∣ value l := by
  rw [(netSum_modEq l).dvd_iff (dvd_refl 65535)]
  exact Nat.Coprime.dvd_mul_left (by decide)

/-- Behind a header that verifies, options that add nothing. -/
theorem verifies_append (opts : List UInt8) (hlen : l.length % 2 = 0) (h : Verifies l) :
    Verifies (l ++ opts) ↔ 65535 ∣ netSum opts := by
  rw [verifies_iff, residue_eq_top] at h
  rw [verifies_iff, residue_value_append hlen, residue_eq_top, dvd_netSum, Nat.dvd_add_right h.2]
  exact and_iff_right fun hzero => h.1 (Nat.add_eq_zero_iff.mp hzero).1

theorem store_behind (head opts rest : List UInt8) (h : i + l.length ≤ m.length) :
    store (head ++ (opts ++ (m ++ rest))) (head.length + opts.length + i) l =
      head ++ (opts ++ (store m i l ++ rest)) := by
  have hstore := store_middle (head ++ opts) rest h
  rwa [List.length_append, List.append_assoc, List.append_assoc] at hstore

theorem load_behind (head opts rest : List UInt8) (h : i + 2 ≤ m.length) :
    load (head ++ (opts ++ (m ++ rest))) (head.length + opts.length + i) = load m i := by
  have hload := load_middle (head ++ opts) rest h
  rwa [List.length_append, List.append_assoc] at hload

theorem getD_drop (l : List UInt8) (n i : ℕ) : (l.drop n).getD i 0 = l.getD (n + i) 0 := by
  rw [List.getD_eq_getElem?_getD, List.getElem?_drop, List.getD_eq_getElem?_getD]

theorem take_behind (head opts rest : List UInt8) (h : head.length = 20) :
    (head ++ (opts ++ rest)).take (20 + opts.length) = head ++ opts := by
  rw [← List.append_assoc]
  exact List.take_left' (by rw [List.length_append, h])

theorem drop_behind (head opts rest : List UInt8) (h : head.length = 20) (i : ℕ) :
    (head ++ (opts ++ rest)).drop (20 + opts.length + i) = rest.drop i := by
  rw [← List.append_assoc, ← h, ← List.length_append, List.drop_length_add_append]

theorem word_lt (a b : UInt8) : a.toNat + 256 * b.toNat < 65536 := by
  have := a.toNat_lt
  have := b.toNat_lt
  omega

theorem memWord_bytes (a b : UInt8) : memWord (a.toNat + 256 * b.toNat) = [a, b] := by
  have ha := a.toNat_lt
  have hlow : (a.toNat + 256 * b.toNat) % 256 = a.toNat := by omega
  have hhigh : (a.toNat + 256 * b.toNat) / 256 = b.toNat := by omega
  rw [memWord, hlow, hhigh, UInt8.ofNat_toNat, UInt8.ofNat_toNat]

section Long

variable (f₀ f₁ f₂ f₃ f₄ f₅ f₆ f₇ ttl proto k₀ k₁ s₀ s₁ s₂ s₃ d₀ d₁ d₂ d₃ : UInt8)

theorem makeReply_long (odd : Bool) (hsrc : addrBytes src = [s₀, s₁, s₂, s₃])
    (hdest : addrBytes dest = [d₀, d₁, d₂, d₃]) (opts rest : List UInt8) (code c₀ c₁ : UInt8) :
    makeReply odd 0 (20 + opts.length) src dest
      ([f₀, f₁, f₂, f₃, f₄, f₅, f₆, f₇, ttl, proto, k₀, k₁, s₀, s₁, s₂, s₃, d₀, d₁, d₂, d₃] ++
        (opts ++ 8 :: code :: c₀ :: c₁ :: rest)) =
      ([f₀, f₁, f₂, f₃, f₄, f₅, f₆, f₇, 255, proto] ++
        (memWord (inetChksum odd ([f₀, f₁, f₂, f₃, f₄, f₅, f₆, f₇, 255, proto] ++
          (memWord 0 ++ [d₀, d₁, d₂, d₃, s₀, s₁, s₂, s₃]))) ++ [d₀, d₁, d₂, d₃, s₀, s₁, s₂, s₃])) ++
        (opts ++ 0 :: code :: (memWord (adjustChksum (c₀.toNat + 256 * c₁.toNat)) ++ rest)) := by
  -- the header between the stores to it
  let head (t p₀ p₁ : UInt8) (addrs : List UInt8) : List UInt8 :=
    [f₀, f₁, f₂, f₃, f₄, f₅, f₆, f₇, t, proto, p₀, p₁] ++ addrs
  let addrs : List UInt8 := [d₀, d₁, d₂, d₃, s₀, s₁, s₂, s₃]
  have hfirst : store (store ([f₀, f₁, f₂, f₃, f₄, f₅, f₆, f₇, ttl, proto, k₀, k₁, s₀, s₁, s₂, s₃, d₀, d₁,
      d₂, d₃] ++ (opts ++ 8 :: code :: c₀ :: c₁ :: rest)) (0 + 12) [d₀, d₁, d₂, d₃]) (0 + 16)
        [s₀, s₁, s₂, s₃] = head ttl k₀ k₁ addrs ++ (opts ++ ([8, code, c₀, c₁] ++ rest)) := rfl
  have htype : store (head ttl k₀ k₁ addrs ++ (opts ++ ([8, code, c₀, c₁] ++ rest))) (20 + opts.length)
      [0] = head ttl k₀ k₁ addrs ++ (opts ++ ([0, code, c₀, c₁] ++ rest)) :=
    store_behind (head ttl k₀ k₁ addrs) opts rest (i := 0) (m := [8, code, c₀, c₁]) (by simp)
  have hload : load (head ttl k₀ k₁ addrs ++ (opts ++ ([0, code, c₀, c₁] ++ rest)))
      (20 + opts.length + 2) = c₀.toNat + 256 * c₁.toNat :=
    load_behind (head ttl k₀ k₁ addrs) opts rest (i := 2) (m := [0, code, c₀, c₁]) (by simp)
  have hchksum (x : ℕ) : store (head ttl k₀ k₁ addrs ++ (opts ++ ([0, code, c₀, c₁] ++ rest)))
      (20 + opts.length + 2) (memWord x) =
        head ttl k₀ k₁ addrs ++ (opts ++ (([0, code] ++ memWord x) ++ rest)) :=
    store_behind (head ttl k₀ k₁ addrs) opts rest (i := 2) (m := [0, code, c₀, c₁]) (by simp)
  simp only [makeReply, hsrc, hdest]
  rw [hfirst, htype, hload, hchksum]
  rfl

/-- Behind a header of 20 bytes and more. -/
theorem isReply_long (odd : Bool) (hsrc : addrBytes src = [s₀, s₁, s₂, s₃])
    (hdest : addrBytes dest = [d₀, d₁, d₂, d₃]) (opts rest : List UInt8) (code c₀ c₁ : UInt8) (hver : Verifies (8 :: code :: c₀ :: c₁ :: rest))
    (hl : [f₀, f₁, f₂, f₃, f₄, f₅, f₆, f₇, ttl, proto, k₀, k₁, s₀, s₁, s₂, s₃, d₀, d₁, d₂, d₃] ++
      (opts ++ 8 :: code :: c₀ :: c₁ :: rest) = l) :
    IsReply (20 + opts.length) l (makeReply odd 0 (20 + opts.length) src dest l) ↔
      65535 ∣ netSum opts ∧ ¬ (code = 0 ∧ ∀ b ∈ rest, b = 0) := by
  have hmessage : Verifies (0 :: code :: (memWord (adjustChksum (c₀.toNat + 256 * c₁.toNat)) ++ rest)) ↔
      ¬ (code = 0 ∧ ∀ b ∈ rest, b = 0) := by
    refine verifies_adjustChksum (word_lt c₀ c₁) ?_
    rw [memWord_bytes]
    exact hver
  have hheader := verifies_inetChksum odd [d₀, d₁, d₂, d₃, s₀, s₁, s₂, s₃]
    (by simp : [f₀, f₁, f₂, f₃, f₄, f₅, f₆, f₇, 255, proto].length % 2 = 0) (by simp)
  have hopts := verifies_append opts (by simp) hheader
  have hreply := makeReply_long f₀ f₁ f₂ f₃ f₄ f₅ f₆ f₇ ttl proto k₀ k₁ s₀ s₁ s₂ s₃ d₀ d₁ d₂ d₃
    odd hsrc hdest opts rest code c₀ c₁
  rw [hl] at hreply
  rw [hreply]
  generalize inetChksum odd _ = x at hopts ⊢
  generalize adjustChksum _ = y at hmessage ⊢
  obtain ⟨head, hhead⟩ : ∃ head, [f₀, f₁, f₂, f₃, f₄, f₅, f₆, f₇, ttl, proto, k₀, k₁, s₀, s₁, s₂, s₃, d₀,
    d₁, d₂, d₃] = head := ⟨_, rfl⟩
  obtain ⟨head', hhead'⟩ : ∃ head', [f₀, f₁, f₂, f₃, f₄, f₅, f₆, f₇, 255, proto] ++
    (memWord x ++ [d₀, d₁, d₂, d₃, s₀, s₁, s₂, s₃]) = head' := ⟨_, rfl⟩
  have hlen : head.length = 20 := by rw [← hhead]; rfl
  have hlen' : head'.length = 20 := by rw [← hhead']; rfl
  have hmsg := drop_behind head' opts (0 :: code :: (memWord y ++ rest)) hlen'
  have hmsg0 := hmsg 0
  rw [Nat.add_zero, List.drop_zero] at hmsg0
  have hhdr := take_behind head' opts (0 :: code :: (memWord y ++ rest)) hlen'
  rw [hhead] at hl
  rw [hhead'] at hopts ⊢
  have hleast : 20 ≤ (head' ++ (opts ++ 0 :: code :: (memWord y ++ rest))).length := by
    rw [List.length_append]
    omega
  refine ⟨fun h => ⟨?_, ?_⟩, fun ⟨hzero, hne⟩ => ⟨?_, hleast, ?_, ?_, ?_, ?_, ?_, ?_⟩⟩
  · rw [← hopts, ← hhdr]
    exact h.header
  · rw [← hmessage, ← hmsg0]
    exact h.message
  · rw [← hl]
    simp only [List.length_append, hlen, hlen', List.length_cons, memWord_length]
    omega
  · rw [← hl, ← hhead, ← hhead']
    rfl
  · rw [← hl, ← hhead, ← hhead']
    rfl
  · rw [← Nat.add_zero (20 + opts.length), ← getD_drop, hmsg0]
    rfl
  · rw [hmsg 4, ← hl, drop_behind head opts _ hlen 4]
    rfl
  · rw [hmsg0]
    exact hmessage.mpr hne
  · rw [hhdr]
    exact hopts.mpr hzero

end Long

/-- With a header of 20 bytes and more the reply is right for the requests that are plain. -/
theorem isReply_iff_plain (hleast : 20 ≤ hlen) (hlen8 : hlen + 8 ≤ l.length) (htype : l.getD hlen 0 = 8)
    (hver : Verifies (l.drop hlen)) (hsrc : addrBytes src = (l.drop 12).take 4)
    (hdest : addrBytes dest = (l.drop 16).take 4) :
    IsReply hlen l (makeReply odd 0 hlen src dest l) ↔ PlainRequest hlen l := by
  obtain ⟨f₀, f₁, f₂, f₃, f₄, f₅, f₆, f₇, ttl, proto, k₀, k₁, s₀, s₁, s₂, s₃, d₀, d₁, d₂, d₃, back, hl⟩ :=
    exists_header (show 20 ≤ l.length by omega)
  have hback : l.drop 20 = back := by rw [hl]; rfl
  have hall : l.length = 20 + back.length := by rw [hl, List.length_append]; rfl
  obtain ⟨n, rfl⟩ : ∃ n, hlen = 20 + n := ⟨hlen - 20, by omega⟩
  obtain ⟨type, code, c₀, c₁, rest, hmsg⟩ := exists_word (show 4 ≤ (back.drop n).length by
    rw [List.length_drop]; omega)
  obtain ⟨opts, hopts⟩ : ∃ opts, back.take n = opts := ⟨_, rfl⟩
  have hn : opts.length = n := by
    rw [← hopts, List.length_take]
    omega
  have hmessage : l.drop (20 + n) = type :: code :: c₀ :: c₁ :: rest := by
    rw [← List.drop_drop, hback, hmsg]
  have htype8 : type = 8 := by
    have hread := getD_drop l (20 + n) 0
    rw [hmessage, Nat.add_zero, htype] at hread
    exact hread
  have hcode : l.getD (20 + n + 1) 0 = code := by rw [← getD_drop, hmessage]; rfl
  have hrest : l.drop (20 + n + 4) = rest := by rw [← List.drop_drop, hmessage]; rfl
  have hoptions : (l.take (20 + n)).drop 20 = opts := by
    rw [List.drop_take, Nat.add_sub_cancel_left, hback, hopts]
  subst htype8
  have hsplit : back = opts ++ 8 :: code :: c₀ :: c₁ :: rest := by
    rw [← hopts, ← hmsg, List.take_append_drop]
  rw [hsplit] at hl
  rw [hmessage] at hver
  have hiff := isReply_long f₀ f₁ f₂ f₃ f₄ f₅ f₆ f₇ ttl proto k₀ k₁ s₀ s₁ s₂ s₃ d₀ d₁ d₂ d₃
    odd (by rw [hsrc, hl]; rfl) (by rw [hdest, hl]; rfl) opts rest code c₀ c₁ hver hl.symm
  rw [hn] at hiff
  rw [hiff]
  constructor
  · rintro ⟨hzero, hne⟩
    refine ⟨Nat.le_add_right 20 n, ?_, ?_⟩
    · rw [hoptions]
      exact hzero
    · rw [hcode, hrest]
      exact hne
  · rintro ⟨-, hzero, hne⟩
    rw [hoptions] at hzero
    rw [hcode, hrest] at hne
    exact ⟨hzero, hne⟩

/-! ### Headers that are too short -/

/-- Of two parts that verify together, both add nothing or none does. -/
theorem dvd_of_verifies (hlen : l.length % 2 = 0) (h : Verifies (l ++ rest)) :
    65535 ∣ netSum l ↔ 65535 ∣ netSum rest := by
  rw [verifies_iff, residue_value_append hlen, residue_eq_top] at h
  rw [dvd_netSum, dvd_netSum]
  exact ⟨fun hl => (Nat.dvd_add_right hl).mp h.2, fun hr => (Nat.dvd_add_left hr).mp h.2⟩

/-- The checksum is the only one that verifies, next to `0xffff` in the place of 0. -/
theorem inetChksum_unique (odd : Bool) (pre post : List UInt8) (k₀ k₁ : UInt8) (hpre : pre.length % 2 = 0)
    (hlen : (pre ++ (memWord 0 ++ post)).length < 2 ^ 16) (hne : value (pre ++ (memWord 0 ++ post)) ≠ 0) :
    memWord (inetChksum odd (pre ++ (memWord 0 ++ post))) = [k₀, k₁] ↔
      Verifies (pre ++ ([k₀, k₁] ++ post)) ∧ [k₀, k₁] ≠ [255, 255] := by
  obtain ⟨x, hx⟩ : ∃ x, inetChksum odd (pre ++ (memWord 0 ++ post)) = x := ⟨_, rfl⟩
  have hver := verifies_inetChksum odd post hpre hlen
  rw [hx] at hver ⊢
  rw [inetChksum_eq hlen] at hx
  have hzero := residue_eq_zero (x := value (pre ++ (memWord 0 ++ post)))
  have hxlt : x < 0xffff := by omega
  obtain ⟨k, hk⟩ : ∃ k, k₀.toNat + 256 * k₁.toNat = k := ⟨_, rfl⟩
  have hklt : k < 65536 := hk ▸ word_lt k₀ k₁
  have hbytes : memWord k = [k₀, k₁] := by rw [← hk, memWord_bytes]
  have hones : memWord 0xffff = [255, 255] := by decide
  have hinj : ∀ m < 65536, ∀ n < 65536, memWord m = memWord n → m = n := by
    intro m hm n hn h
    rw [← value_memWord hm, h, value_memWord hn]
  rw [← hbytes, ← hones]
  constructor
  · intro h
    have hxk := hinj x (by omega) k hklt h
    rw [← hxk]
    refine ⟨hver, fun hall => ?_⟩
    have htop := hinj x (by omega) 0xffff (by decide) hall
    omega
  · rintro ⟨hk', hnot⟩
    have hktop : k ≠ 0xffff := fun h => hnot (by rw [h])
    have hsum := residue_value_memWord post hpre hklt 0
    rw [Nat.add_zero, Nat.add_zero, (verifies_iff _).mp hk', ← residue_add] at hsum
    obtain ⟨-, n, hn⟩ := residue_eq_top.mp hsum.symm
    have hle := residue_le (value (pre ++ (memWord 0 ++ post)))
    have hxk : x = k := by omega
    rw [hxk]

/-- Where the first bytes verify, and a message from them on does, the checksum of the first part is there
when the rest of the message adds nothing. -/
theorem inetChksum_overlaid (odd : Bool) {front part back : List UInt8} (k₀ k₁ : UInt8)
    (hfront : front.length % 2 = 0) (hpart : part.length % 2 = 0) (hback : back.length % 2 = 0)
    (hlen : (front ++ part ++ (memWord 0 ++ back)).length < 2 ^ 16)
    (hne : value (front ++ part ++ (memWord 0 ++ back)) ≠ 0) (hver : Verifies front)
    (hmessage : Verifies (part ++ ([k₀, k₁] ++ back) ++ rest)) :
    memWord (inetChksum odd (front ++ part ++ (memWord 0 ++ back))) = [k₀, k₁] ↔
      65535 ∣ netSum rest ∧ [k₀, k₁] ≠ [255, 255] := by
  have heven : (part ++ ([k₀, k₁] ++ back)).length % 2 = 0 := by
    simp only [List.length_append, List.length_cons, List.length_nil]
    omega
  have hpre : (front ++ part).length % 2 = 0 := by
    rw [List.length_append]
    omega
  rw [inetChksum_unique odd _ back k₀ k₁ hpre hlen hne, List.append_assoc, verifies_append _ hfront hver,
    dvd_of_verifies heven hmessage]

section Short

variable (f₀ f₁ f₂ f₃ code c₀ c₁ ttl proto k₀ k₁ s₀ s₁ s₂ s₃ d₀ d₁ d₂ d₃ : UInt8)

/-- The message of a reply behind four bytes, up to the place of the checksum of the header. -/
def overlaidPart (code c₀ c₁ proto : UInt8) : List UInt8 :=
  [0, code] ++ (memWord (adjustChksum (c₀.toNat + 256 * c₁.toNat)) ++ [255, proto])

theorem makeReply_four (odd : Bool) (hsrc : addrBytes src = [s₀, s₁, s₂, s₃])
    (hdest : addrBytes dest = [d₀, d₁, d₂, d₃]) (rest : List UInt8) :
    makeReply odd 0 4 src dest
      ([f₀, f₁, f₂, f₃, 8, code, c₀, c₁, ttl, proto, k₀, k₁, s₀, s₁, s₂, s₃, d₀, d₁, d₂, d₃] ++ rest) =
      [f₀, f₁, f₂, f₃] ++ overlaidPart code c₀ c₁ proto ++
        (memWord (inetChksum odd ([f₀, f₁, f₂, f₃] ++ overlaidPart code c₀ c₁ proto ++
          (memWord 0 ++ [d₀, d₁, d₂, d₃, s₀, s₁, s₂, s₃]))) ++ ([d₀, d₁, d₂, d₃, s₀, s₁, s₂, s₃] ++ rest)) := by
  simp only [makeReply, hsrc, hdest]
  rfl

/-- The message of the reply verifies where it is that of the request but for type and checksum. -/
theorem verifies_overlaid (haddr : [d₀, d₁, d₂, d₃] = [s₀, s₁, s₂, s₃])
    (hver : Verifies ([8, code, c₀, c₁, 255, proto, k₀, k₁, s₀, s₁, s₂, s₃, d₀, d₁, d₂, d₃] ++ rest)) :
    Verifies (overlaidPart code c₀ c₁ proto ++ ([k₀, k₁] ++ [d₀, d₁, d₂, d₃, s₀, s₁, s₂, s₃]) ++ rest) := by
  have hver' : Verifies (8 :: code :: (memWord (c₀.toNat + 256 * c₁.toNat) ++ ([255, proto, k₀, k₁] ++
      ([s₀, s₁, s₂, s₃] ++ ([d₀, d₁, d₂, d₃] ++ rest))))) := by
    rw [memWord_bytes]
    exact hver
  have hpatch := (verifies_adjustChksum (word_lt c₀ c₁) hver').mpr fun h =>
    absurd (h.2 255 (by simp)) (by decide)
  obtain ⟨rfl, rfl, rfl, rfl⟩ : d₀ = s₀ ∧ d₁ = s₁ ∧ d₂ = s₂ ∧ d₃ = s₃ := by simpa using haddr
  exact hpatch

end Short

/-- A header of four bytes: the reply is right when the stores find what they write. -/
theorem isReply_iff_overlaid (hlen8 : 20 ≤ l.length) (htype : l.getD 4 0 = 8)
    (hver : Verifies (l.drop 4)) (hsrc : addrBytes src = (l.drop 12).take 4)
    (hdest : addrBytes dest = (l.drop 16).take 4) :
    IsReply 4 l (makeReply odd 0 4 src dest l) ↔ OverlaidRequest 4 l := by
  obtain ⟨f₀, f₁, f₂, f₃, type, code, c₀, c₁, ttl, proto, k₀, k₁, s₀, s₁, s₂, s₃, d₀, d₁, d₂, d₃, rest,
    rfl⟩ := exists_header hlen8
  change addrBytes src = [s₀, s₁, s₂, s₃] at hsrc
  change addrBytes dest = [d₀, d₁, d₂, d₃] at hdest
  change type = 8 at htype
  subst htype
  rw [makeReply_four f₀ f₁ f₂ f₃ code c₀ c₁ ttl proto k₀ k₁ s₀ s₁ s₂ s₃ d₀ d₁ d₂ d₃ odd hsrc hdest rest]
  have hpartLen : (overlaidPart code c₀ c₁ proto).length = 6 := rfl
  have hnot0 : value ([f₀, f₁, f₂, f₃] ++ overlaidPart code c₀ c₁ proto ++
      (memWord 0 ++ [d₀, d₁, d₂, d₃, s₀, s₁, s₂, s₃])) ≠ 0 := fun hzero =>
    absurd (value_eq_zero.mp hzero 255 (by simp [overlaidPart])) (by decide)
  have hchksum (hf : Verifies [f₀, f₁, f₂, f₃]) (httl : ttl = 255)
      (haddr : [d₀, d₁, d₂, d₃] = [s₀, s₁, s₂, s₃]) :=
    inetChksum_overlaid odd k₀ k₁ (by simp) (by simp [hpartLen]) (by simp)
      (by simp [hpartLen]) hnot0 hf (verifies_overlaid code c₀ c₁ proto k₀ k₁ s₀ s₁ s₂ s₃ d₀ d₁ d₂ d₃ haddr
        (httl ▸ hver))
  constructor
  · intro h
    have hsame := h.same
    have httl : ttl = 255 := (List.cons.inj hsame).1.symm
    have hk := congrArg (fun l => (l.drop 2).take 2) hsame
    have haddr : [d₀, d₁, d₂, d₃] = [s₀, s₁, s₂, s₃] := congrArg (fun l => (l.drop 4).take 4) hsame
    have hf : Verifies [f₀, f₁, f₂, f₃] := h.header
    obtain ⟨hrest, hnot⟩ := (hchksum hf httl haddr).mp hk
    exact ⟨rfl, hlen8, httl, hnot, haddr, hrest, hf⟩
  · rintro ⟨-, -, httl, hnot, haddr, hrest, hf⟩
    rw [(hchksum hf httl haddr).mpr ⟨hrest, hnot⟩]
    change ttl = 255 at httl
    change [d₀, d₁, d₂, d₃] = [s₀, s₁, s₂, s₃] at haddr
    refine ⟨?_, ?_, rfl, rfl, rfl, ?_, ?_, hf⟩
    · simp only [List.length_append, List.length_cons, List.length_nil, hpartLen]
      omega
    · simp only [List.length_append, List.length_cons, List.length_nil, hpartLen]
      omega
    · rw [httl]
      change [255, proto, k₀, k₁] ++ ([d₀, d₁, d₂, d₃] ++ ([s₀, s₁, s₂, s₃] ++ rest)) =
        [255, proto, k₀, k₁] ++ ([s₀, s₁, s₂, s₃] ++ ([d₀, d₁, d₂, d₃] ++ rest))
      rw [haddr]
    · exact verifies_overlaid code c₀ c₁ proto k₀ k₁ s₀ s₁ s₂ s₃ d₀ d₁ d₂ d₃ haddr (httl ▸ hver)

/-- The TTL is stored to the place of the type. -/
theorem not_isReply_eight (hlen8 : 20 ≤ l.length) : ¬ IsReply 8 l (makeReply odd 0 8 src dest l) := by
  intro h
  obtain ⟨f₀, f₁, f₂, f₃, f₄, f₅, f₆, f₇, type, code, c₀, c₁, s₀, s₁, s₂, s₃, d₀, d₁, d₂, d₃, rest, rfl⟩ :=
    exists_header hlen8
  have htype : (255 : UInt8) = 0 := h.type
  exact absurd htype (by decide)

/-- The type is stored to the source address. -/
theorem not_isReply_twelve (hlen8 : 20 ≤ l.length) (htype : l.getD 12 0 = 8)
    (hsrc : addrBytes src = (l.drop 12).take 4) (hdest : addrBytes dest = (l.drop 16).take 4) :
    ¬ IsReply 12 l (makeReply odd 0 12 src dest l) := by
  intro h
  obtain ⟨f₀, f₁, f₂, f₃, f₄, f₅, f₆, f₇, ttl, proto, k₀, k₁, s₀, s₁, s₂, s₃, d₀, d₁, d₂, d₃, rest, rfl⟩ :=
    exists_header hlen8
  change addrBytes src = [s₀, s₁, s₂, s₃] at hsrc
  change addrBytes dest = [d₀, d₁, d₂, d₃] at hdest
  change s₀ = 8 at htype
  have hsame := h.same
  have haddrs := h.addrs
  simp only [makeReply, hsrc, hdest] at hsame haddrs
  have hid : s₀ = d₀ := (List.cons.inj hsame).1
  have hzero : 0 = d₀ := (List.cons.inj haddrs).1
  rw [htype, ← hzero] at hid
  exact absurd hid (by decide)

/-- The checksum is stored to the destination address. -/
theorem not_isReply_sixteen (hlen8 : 24 ≤ l.length)
    (hsrc : addrBytes src = (l.drop 12).take 4) (hdest : addrBytes dest = (l.drop 16).take 4) :
    ¬ IsReply 16 l (makeReply odd 0 16 src dest l) := by
  intro h
  obtain ⟨f₀, f₁, f₂, f₃, f₄, f₅, f₆, f₇, ttl, proto, k₀, k₁, s₀, s₁, s₂, s₃, d₀, d₁, d₂, d₃, rest, rfl⟩ :=
    exists_header (show 20 ≤ l.length by omega)
  change addrBytes src = [s₀, s₁, s₂, s₃] at hsrc
  change addrBytes dest = [d₀, d₁, d₂, d₃] at hdest
  have haddrs := h.addrs
  simp only [makeReply, hsrc, hdest] at haddrs
  have hword : memWord (adjustChksum (s₂.toNat + 256 * s₃.toNat)) = [s₂, s₃] := congrArg (List.drop 6) haddrs
  have hlt := word_lt s₂ s₃
  obtain ⟨hadjust, -, carry, hcarry⟩ := adjustChksum_spec hlt
  have hval := congrArg value hword
  rw [← memWord_bytes, value_memWord hadjust, value_memWord hlt] at hval
  omega

/-- For every request, whatever the length in its header is: where the reply comes out right. -/
theorem isReply_iff (hhlen : hlen = (l.getD 0 0).toNat % 16 * 4) (h20 : 20 ≤ l.length)
    (hlen8 : hlen + 8 ≤ l.length) (htype : l.getD hlen 0 = 8) (hver : Verifies (l.drop hlen))
    (hsrc : addrBytes src = (l.drop 12).take 4) (hdest : addrBytes dest = (l.drop 16).take 4) :
    IsReply hlen l (makeReply odd 0 hlen src dest l) ↔ PlainRequest hlen l ∨ OverlaidRequest hlen l := by
  by_cases hleast : 20 ≤ hlen
  · rw [isReply_iff_plain hleast hlen8 htype hver hsrc hdest]
    exact (or_iff_left fun h => by have := h.four; omega).symm
  · have hplain : ¬ PlainRequest hlen l := fun h => hleast h.least
    rw [or_iff_right hplain]
    have hcases : hlen = 0 ∨ hlen = 4 ∨ hlen = 8 ∨ hlen = 12 ∨ hlen = 16 := by omega
    obtain rfl | rfl | rfl | rfl | rfl := hcases
    · -- the first byte would be the type, and the length in it is 8
      rw [htype] at hhlen
      exact absurd hhlen (by decide)
    · exact isReply_iff_overlaid h20 htype hver hsrc hdest
    · exact iff_of_false (not_isReply_eight h20) fun h => by cases h.four
    · exact iff_of_false (not_isReply_twelve h20 htype hsrc hdest) fun h => by cases h.four
    · exact iff_of_false (not_isReply_sixteen hlen8 hsrc hdest) fun h => by cases h.four

end QuietLwip.Ip
