import QuietLwip.Buffers.Chains

/-!
# Headers in front of a chain

What is written through the payload pointer of the first pbuf, where the room for it comes from, and
the two kinds of pbuf that a datagram of the socket layer is made of: one that refers to the data of
the application and one with memory for the headers.
-/

namespace QuietLwip.Buffers

open QuietLwip.Word

/-- The bytes `l` are written from the payload pointer on. -/
def Pbuf.write (p : Pbuf) (l : List UInt8) (h : l.length ≤ p.len) : Pbuf where
  addr := p.addr
  mem := p.mem.take p.payload ++ (l ++ p.mem.drop (p.payload + l.length))
  payload := p.payload
  totLen := p.totLen
  len := p.len
  type := p.type
  flags := p.flags
  ref := p.ref
  inMem := by
    have hmem := p.inMem
    simp only [List.length_append, List.length_take, List.length_drop]
    omega
  lenLt := p.lenLt
  totLt := p.totLt
  refLt := p.refLt

/-- A header is written to the first pbuf, with the assertion that the pbuf can hold it. -/
def writeHead (l : List UInt8) : List Pbuf → Option (List Pbuf)
  | [] => none
  | p :: ps => if h : l.length ≤ p.len then some (p.write l h :: ps) else none

/-- The memory behind the struct of a `PBUF_RAM` pbuf, with whatever bytes it holds. -/
structure RamBlock (size : ℕ) where
  addr : ℕ
  mem : List UInt8
  memLen : mem.length = size

/-- The pbuf over a block, with the room for the headers of the lower layers in front. -/
def ramPbuf (layer : PbufLayer) (length : ℕ) (hlen : length < 2 ^ 16)
    (b : RamBlock (layerOffset layer + length)) : Pbuf where
  addr := b.addr
  mem := b.mem
  payload := layerOffset layer
  totLen := length
  len := length
  type := .ram
  flags := 0
  ref := 1
  inMem := b.memLen.ge
  lenLt := hlen
  totLt := hlen
  refLt := oneRef_lt

/-- `pbuf_alloc(layer, length, PBUF_RAM)`; `block` is the answer of `mem_malloc`. -/
def pbufAllocRam (layer : PbufLayer) (length : ℕ) (hlen : length < 2 ^ 16)
    (block : Option (RamBlock (layerOffset layer + length))) : Option Pbuf :=
  block.map (ramPbuf layer length hlen)

/-- A `PBUF_REF` over the data. -/
def dataPbuf (data : List UInt8) (hlen : data.length < 2 ^ 16) (addr : ℕ) : Pbuf where
  addr := addr
  mem := data
  payload := 0
  totLen := data.length
  len := data.length
  type := .ref
  flags := 0
  ref := 1
  inMem := wholeData_inMem data
  lenLt := hlen
  totLt := hlen
  refLt := oneRef_lt

/-- The pbuf of `netbuf_ref`; `elem` is the answer of `memp_malloc`. -/
def netbufRef (data : List UInt8) (hlen : data.length < 2 ^ 16) (elem : Option ℕ) : Option Pbuf :=
  elem.map (dataPbuf data hlen)

variable {p q : Pbuf} {ps c c' : List Pbuf} {l : List UInt8} {k : ℕ}

theorem Pbuf.write_data (p : Pbuf) (l : List UInt8) (h : l.length ≤ p.len) :
    (p.write l h).data = l ++ p.data.drop l.length := by
  have hmem := p.inMem
  have hfront : (p.mem.take p.payload).length = p.payload := by
    rw [List.length_take]
    omega
  have hdrop : (p.write l h).mem.drop p.payload = l ++ p.mem.drop (p.payload + l.length) :=
    List.drop_left' hfront
  change ((p.write l h).mem.drop p.payload).take p.len = _
  rw [hdrop, List.take_append, List.take_of_length_le h, Pbuf.data, List.drop_take, List.drop_drop]

/-- Writing leaves the lengths and replaces the bytes in front. -/
theorem writeHead_eq (h : writeHead l (p :: ps) = some c) : ∃ q, c = q :: ps ∧ l.length ≤ p.len ∧
    q.totLen = p.totLen ∧ q.len = p.len ∧ q.type = p.type ∧ q.payload = p.payload ∧ q.ref = p.ref ∧
    q.data = l ++ p.data.drop l.length := by
  rw [writeHead] at h
  split at h
  · rename_i hle
    cases h
    exact ⟨p.write l hle, rfl, hle, rfl, rfl, rfl, rfl, rfl, p.write_data l hle⟩
  · cases h

theorem writeHead_isSome (ps : List Pbuf) (h : l.length ≤ p.len) :
    ∃ c, writeHead l (p :: ps) = some c := by
  rw [writeHead, dif_pos h]
  exact ⟨_, rfl⟩

theorem writeHead_spec (hwf : WellFormed c) (h : writeHead l c = some c') :
    WellFormed c' ∧ totLen c' = totLen c ∧ bytes c' = l ++ (bytes c).drop l.length := by
  cases c with
  | nil => cases h
  | cons p ps =>
    obtain ⟨q, rfl, hle, htot, hlen, -, -, -, hdata⟩ := writeHead_eq h
    refine ⟨⟨?_, hwf.2⟩, htot, ?_⟩
    · rw [htot, hlen]
      exact hwf.1
    · rw [bytes_cons, bytes_cons, hdata, List.append_assoc,
        List.drop_append_of_le_length (by rw [Pbuf.data_length]; exact hle)]

/-- The pbuf `q` is `p` with the `k` bytes in front of it. -/
structure Shown (k : ℕ) (p q : Pbuf) : Prop where
  type : p.type = .ram ∨ p.type = .pool
  room : k ≤ p.payload
  totLen : q.totLen = u16 (p.totLen + k)
  len : q.len = u16 (p.len + k)
  mem : q.mem = p.mem
  payload : q.payload = p.payload - k
  ref : q.ref = p.ref

theorem Pbuf.moveHeader_shown (h : k ≤ p.payload) (htype : p.type = .ram ∨ p.type = .pool) :
    Shown k p (p.moveHeader k (by omega) (by omega)) := by
  refine ⟨htype, h, rfl, rfl, rfl, ?_, rfl⟩
  simp only [Pbuf.moveHeader]
  omega

/-- `pbuf_header` shows a header where there is room for it, and otherwise changes nothing. -/
theorem pbufHeader_front (p : Pbuf) (ps : List Pbuf) (hk : 0 < k) :
    (∃ q, pbufHeader (p :: ps) k = some (0, q :: ps) ∧ Shown k p q) ∨
      pbufHeader (p :: ps) k = some (1, p :: ps) ∧ ¬ (p.type = .ram ∧ k ≤ p.payload) := by
  rw [pbufHeader, if_neg (by omega), dif_neg (by omega)]
  cases htype : p.type with
  | ram | pool =>
    by_cases hroom : (k : ℤ) ≤ p.payload
    · exact .inl ⟨_, dif_pos hroom, Pbuf.moveHeader_shown (by omega) (by simp [htype])⟩
    · exact .inr ⟨dif_neg hroom, fun h => hroom (by omega)⟩
  | rom | ref => exact .inr ⟨rfl, fun h => by cases h.1⟩

theorem pbufHeader_shown (hk : 0 < k) (h : pbufHeader (p :: ps) k = some (0, c)) :
    ∃ q, c = q :: ps ∧ Shown k p q := by
  obtain ⟨q, hshow, hshown⟩ | ⟨hfail, -⟩ := pbufHeader_front p ps hk
  · cases hshow.symm.trans h
    exact ⟨q, rfl, hshown⟩
  · cases hfail.symm.trans h

theorem pbufHeader_shows (ps : List Pbuf) (hk : 0 < k) (h : k ≤ p.payload) (htype : p.type = .ram) :
    ∃ q, pbufHeader (p :: ps) k = some (0, q :: ps) ∧ Shown k p q := by
  obtain hshow | ⟨-, hroom⟩ := pbufHeader_front p ps hk
  · exact hshow
  · exact absurd ⟨htype, h⟩ hroom

/-- While the length fits in 16 bits. -/
theorem Shown.spec (h : Shown k p q) (hwf : WellFormed (p :: ps)) (hfits : p.totLen + k < 2 ^ 16) :
    WellFormed (q :: ps) ∧ q.totLen = p.totLen + k ∧ q.len = p.len + k ∧
      (bytes (q :: ps)).drop k = bytes (p :: ps) := by
  obtain ⟨hsum, hps⟩ := hwf
  have htot : q.totLen = p.totLen + k := by
    rw [h.totLen]
    simp only [u16, wrapU]
    omega
  have hlen : q.len = p.len + k := by
    rw [h.len]
    simp only [u16, wrapU]
    omega
  have hdata : q.data.drop k = p.data := by
    have hback : p.payload - k + k = p.payload := Nat.sub_add_cancel h.room
    rw [Pbuf.data, h.mem, h.payload, hlen, List.drop_take, List.drop_drop, hback,
      Nat.add_sub_cancel]
    rfl
  have hle : k ≤ q.data.length := by
    rw [Pbuf.data_length]
    omega
  refine ⟨⟨by omega, hps⟩, htot, hlen, ?_⟩
  rw [bytes_cons, bytes_cons, List.drop_append_of_le_length hle, hdata]

/-! ### A pbuf in front of a chain -/

theorem pbufChain_one (hq : q.totLen = q.len) (p : Pbuf) (ps : List Pbuf) :
    pbufChain [q] (p :: ps) =
      some (q.setTotLen (q.totLen + p.totLen) :: p.setRef (p.ref + 1) :: ps) := by
  rw [pbufChain, pbufRef, pbufCat, catLoop, if_pos hq]
  rfl

end QuietLwip.Buffers
