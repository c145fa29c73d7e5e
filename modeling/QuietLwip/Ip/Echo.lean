import QuietLwip.Buffers.Copy
import QuietLwip.Ip.EchoReply
import QuietLwip.Ip.Icmp

/-!
# Echo requests

`icmp_input` of `icmp.c`, down to `ip_output_if` with `IP_HDRINCL`. A request is answered in its own
pbufs where there is room for the headers of the lower layers in front of the message, and in a copy
otherwise. Both ways free what was received and what was allocated; what is sent, and whether the
process goes on at all, depends on the packet.
-/

namespace QuietLwip.Ip

open Word Buffers OnesComplement

/-- What `icmp_input` does with pbufs, in order. -/
inductive IcmpAction where
  | alloc (r : Pbuf)
  | send (sent : Sent)
  | free (c : List Pbuf)

/-- `ip_output_if` with `IP_HDRINCL`. -/
def ipOutputIfHdrincl (netif : Netif) (c : List Pbuf) : Option Sent :=
  match c with
  | [] => none
  | p :: _ =>
    -- `LWIP_ASSERT("p->ref == 1", p->ref == 1)`
    if p.ref ≠ 1 then none
    else some (if netif.mtu ≠ 0 ∧ totLen c > netif.mtu then .frag c else .output c)

/-- The pbuf with other bytes in its memory. -/
def withMem (p : Pbuf) (mem : List UInt8) (h : mem.length = p.mem.length) : Pbuf :=
  { p with
    mem
    inMem := h ▸ p.inMem }

/-- The stores that make a reply of a request, with the ICMP header at the payload pointer; `none` where
they leave the memory of the pbuf. -/
def storeReply (odd : Bool) (iphdr : ℕ) (src dest : IpAddr) (p : Pbuf) : Option Pbuf :=
  if h : iphdr + 20 ≤ p.mem.length ∧ p.payload + 8 ≤ p.mem.length then
    some (withMem p (makeReply odd iphdr p.payload src dest p.mem) (makeReply_length h.1 h.2))
  else none

/-- The end of `icmp_input`, from the stores on. -/
def sendReply (env : Env) (src dest : IpAddr) (odd : Bool) (iphdr hlen : ℕ) :
    List Pbuf → Option (List IcmpAction)
  | [] => none
  | p :: ps => (storeReply odd iphdr src dest p).bind fun p =>
    (pbufHeader (p :: ps) hlen).bind fun (failed, c) =>
      -- `LWIP_ASSERT("Can't move over header in packet", 0)`
      if failed ≠ 0 then none
      else (ipOutputIfHdrincl env.inp c).map fun sent => [.send sent, .free c]

/-- The part of `icmp_input` for a request without room in front. A step that fails is an assertion,
but for the allocation. -/
def copyRequest (env : Env) (malloc : ∀ size, Option (RamBlock size)) (src dest : IpAddr) (hlen : ℕ)
    (c : List Pbuf) : Option (List IcmpAction) :=
  (pbufHeader c hlen).bind fun (failed, c) =>
    if failed ≠ 0 then none
    else
      match pbufAllocRam .link (totLen c) (totLen_lt c) (malloc _) with
      | none => some [.free c]
      | some r =>
        if r.len < hlen + 8 then none
        else (pbufCopy [r] c).bind fun copied =>
          match copied with
          | [] => none
          | q :: qs => (pbufHeader (q :: qs) (-hlen)).bind fun (failed, d) =>
            if failed ≠ 0 then none
            else (sendReply env src dest (env.odd q) q.payload hlen d).map fun acts =>
              .alloc r :: .free c :: acts

/-- `PBUF_IP_HLEN + PBUF_LINK_HLEN`. -/
def lowerHlen : ℕ := PBUF_IP_HLEN + PBUF_LINK_HLEN

/-- The part of `icmp_input` for a request that is to be answered; `odd` and `iphdr` are about the place
of its IP header. -/
def answerRequest (env : Env) (malloc : ∀ size, Option (RamBlock size)) (src dest : IpAddr) (odd : Bool)
    (iphdr hlen : ℕ) (c : List Pbuf) : Option (List IcmpAction) :=
  (pbufHeader c lowerHlen).bind fun (failed, c) =>
    if failed ≠ 0 then copyRequest env malloc src dest hlen c
    else (pbufHeader c (-lowerHlen)).bind fun (failed, c) =>
      if failed ≠ 0 then none else sendReply env src dest odd iphdr hlen c

/-- `icmp_input`, for a packet between these addresses. -/
def icmpInput (env : Env) (malloc : ∀ size, Option (RamBlock size)) (outside : ℕ → UInt8)
    (src dest : IpAddr) (c : List Pbuf) : Option (List IcmpAction) :=
  match c with
  | [] => none
  | p :: _ =>
    let hlen := iphdrHlen outside p
    (pbufHeader c (-hlen)).bind fun (failed, c) =>
      match c with
      | [] => none
      | q :: _ =>
        if failed ≠ 0 ∨ q.totLen < 4 then some [.free c]
        else if peek outside q 0 = 8 then
          -- `ICMP_ECHO`
          if dest.isMulticast || dest.isBroadcast env.inp then some [.free c]
          else if q.totLen < 8 then some [.free c]
          else if inetChksumPbuf env.odd c ≠ 0 then some [.free c]
          else answerRequest env malloc src dest (env.odd p) p.payload hlen c
        -- `ICMP_ER`, and the types that are not supported
        else some [.free c]

/-! ### What is asked of it -/

/-- A packet that is to be answered: a complete echo request to a unicast address, with a checksum that
verifies. -/
structure EchoRequest (env : Env) (outside : ℕ → UInt8) (p : Pbuf) (ps : List Pbuf) : Prop where
  complete : iphdrHlen outside p + 8 ≤ p.totLen
  type : (bytes (p :: ps)).getD (iphdrHlen outside p) 0 = 8
  unicast : ((iphDest outside p).isMulticast || (iphDest outside p).isBroadcast env.inp) = false
  chksum : Verifies ((bytes (p :: ps)).drop (iphdrHlen outside p))

/-- In front of the message there is room for the headers of the lower layers. -/
def HasRoom (outside : ℕ → UInt8) (p : Pbuf) : Prop :=
  (p.type = .ram ∨ p.type = .pool) ∧ lowerHlen ≤ p.payload + iphdrHlen outside p

/-- The size of the block for a copy. -/
def copySize (p : Pbuf) : ℕ := layerOffset .link + p.totLen

/-- There is memory for the copy, or no copy is needed. -/
def MemorySuffices (malloc : ∀ size, Option (RamBlock size)) (outside : ℕ → UInt8) (p : Pbuf) : Prop :=
  HasRoom outside p ∨ (malloc (copySize p)).isSome

def IcmpAction.sent : IcmpAction → Option Sent
  | .send sent => some sent
  | _ => none

def IcmpAction.freed : IcmpAction → Option (List ℕ)
  | .free c => some (c.map Pbuf.addr)
  | _ => none

def IcmpAction.allocated : IcmpAction → Option (List ℕ)
  | .alloc r => some [r.addr]
  | _ => none

/-- What `icmp_input` does with a packet is right: the packet is freed once, and so is what was
allocated; a request is answered with its reply when memory suffices, and nothing else is sent. -/
structure Handled (env : Env) (malloc : ∀ size, Option (RamBlock size)) (outside : ℕ → UInt8) (p : Pbuf)
    (ps : List Pbuf) (acts : List IcmpAction) : Prop where
  freed : acts.filterMap IcmpAction.freed =
    (p :: ps).map Pbuf.addr :: acts.filterMap IcmpAction.allocated
  answered : EchoRequest env outside p ps → MemorySuffices malloc outside p →
    ∃ sent, acts.filterMap IcmpAction.sent = [sent] ∧
      IsReply (iphdrHlen outside p) (bytes (p :: ps)) (bytes sent.chain)
  silent : ¬ (EchoRequest env outside p ps ∧ MemorySuffices malloc outside p) →
    acts.filterMap IcmpAction.sent = []

/-- `icmp_input` returns, and what it has done is right. -/
def EchoHandled (env : Env) (malloc : ∀ size, Option (RamBlock size)) (outside : ℕ → UInt8) (p : Pbuf)
    (ps : List Pbuf) : Prop :=
  ∃ acts, icmpInput env malloc outside (iphSrc outside p) (iphDest outside p) (p :: ps) = some acts ∧
    Handled env malloc outside p ps acts

/-- The IP header and the ICMP header are in the first pbuf, as far as the packet has them. -/
def HeadersFirst (outside : ℕ → UInt8) (p : Pbuf) : Prop :=
  min (max 20 (iphdrHlen outside p + 8)) p.totLen ≤ p.len

instance (outside : ℕ → UInt8) (p : Pbuf) : Decidable (HeadersFirst outside p) :=
  inferInstanceAs (Decidable (_ ≤ _))

/-- No assertion fails for the request: the lengths fit in 16 bits where the payload pointer goes back and
forth, the pbuf that is sent has one reference, and the packet that is copied is not a queue. -/
structure Asserted (malloc : ∀ size, Option (RamBlock size)) (outside : ℕ → UInt8) (p : Pbuf)
    (ps : List Pbuf) : Prop where
  type : p.type = .ram ∨ p.type = .pool
  inPlace : lowerHlen ≤ p.payload + iphdrHlen outside p →
    p.len + lowerHlen < 2 ^ 16 + iphdrHlen outside p ∧ p.ref = 1
  copied : p.payload + iphdrHlen outside p < lowerHlen → (malloc (copySize p)).isSome →
    OnePacket (p :: ps)

/-- The packet is as long as its header, and an echo request fails no assertion and is one that the stores
make a reply of. -/
structure EchoSafe (env : Env) (malloc : ∀ size, Option (RamBlock size)) (outside : ℕ → UInt8) (p : Pbuf)
    (ps : List Pbuf) : Prop where
  length : iphdrHlen outside p ≤ p.totLen
  asserted : EchoRequest env outside p ps → Asserted malloc outside p ps
  request : EchoRequest env outside p ps → MemorySuffices malloc outside p →
    PlainRequest (iphdrHlen outside p) (bytes (p :: ps)) ∨
      OverlaidRequest (iphdrHlen outside p) (bytes (p :: ps))

variable {env : Env} {malloc : ∀ size, Option (RamBlock size)} {outside : ℕ → UInt8} {src dest : IpAddr}
  {odd : Bool} {p q : Pbuf} {ps : List Pbuf} {hlen i k : ℕ}

/-! ### Reading the first pbuf -/

theorem peek_eq_bytes (outside : ℕ → UInt8) (ps : List Pbuf) (h : i < p.len) :
    peek outside p i = (bytes (p :: ps)).getD i 0 := by
  rw [peek_eq_data h, bytes_cons, List.getD_append _ _ _ _ (by rwa [Pbuf.data_length])]

theorem addrBytes_peekAddr (outside : ℕ → UInt8) (p : Pbuf) (i : ℕ) : addrBytes (peekAddr outside p i) =
    [peek outside p i, peek outside p (i + 1), peek outside p (i + 2), peek outside p (i + 3)] := by
  have hword : ∀ i, netWord (peekWord outside p i) = [peek outside p i, peek outside p (i + 1)] := by
    intro i
    have hlow := (peek outside p (i + 1)).toNat_lt
    have hhi : peekWord outside p i / 256 = (peek outside p i).toNat := by
      rw [peekWord]
      omega
    have hlo : peekWord outside p i % 256 = (peek outside p (i + 1)).toNat := by
      rw [peekWord]
      omega
    rw [netWord, hhi, hlo, UInt8.ofNat_toNat, UInt8.ofNat_toNat]
  have hlt : ∀ i, peekWord outside p i < 65536 := by
    intro i
    have h1 := (peek outside p i).toNat_lt
    have h2 := (peek outside p (i + 1)).toNat_lt
    rw [peekWord]
    omega
  have h1 := hlt i
  have h2 := hlt (i + 2)
  have hnat : (peekAddr outside p i).toNat = 65536 * peekWord outside p i + peekWord outside p (i + 2) := by
    rw [peekAddr, BitVec.toNat_ofNat, Nat.mod_eq_of_lt (by omega)]
  have hhigh : (peekAddr outside p i).toNat / 65536 = peekWord outside p i := by omega
  have hlow : (peekAddr outside p i).toNat % 65536 = peekWord outside p (i + 2) := by omega
  rw [addrBytes, hhigh, hlow, hword, hword]
  rfl

/-- An address in the first pbuf is one of the packet. -/
theorem addrBytes_eq_bytes (outside : ℕ → UInt8) (ps : List Pbuf) (h : i + 4 ≤ p.len) :
    addrBytes (peekAddr outside p i) = ((bytes (p :: ps)).drop i).take 4 := by
  have hdata := p.data_length
  obtain ⟨a, b, c, d, r, hword⟩ := exists_word (show 4 ≤ ((bytes (p :: ps)).drop i).length by
    rw [List.length_drop, bytes_cons, List.length_append]
    omega)
  have hread : ∀ k < 4, peek outside p (i + k) = (a :: b :: c :: d :: r).getD k 0 := by
    intro k hk
    rw [peek_eq_bytes outside ps (by omega), ← getD_drop, hword]
  have h0 := hread 0 (by decide)
  rw [Nat.add_zero] at h0
  rw [addrBytes_peekAddr, hword, h0, hread 1 (by decide), hread 2 (by decide), hread 3 (by decide)]
  rfl

/-! ### The reply in the pbufs of the request -/

theorem mem_split (p : Pbuf) :
    p.mem = p.mem.take p.payload ++ (p.data ++ p.mem.drop (p.payload + p.len)) := by
  rw [Pbuf.data, ← List.drop_drop, List.take_append_drop, List.take_append_drop]

/-- The stores to the first pbuf, with the message at `hlen`, are stores to the bytes of the packet. -/
theorem bytes_makeReply {p' : Pbuf} (odd : Bool) (src dest : IpAddr) (ps : List Pbuf) (h20 : 20 ≤ p.len)
    (hlen8 : hlen + 8 ≤ p.len) (hpayload : p'.payload = p.payload) (hplen : p'.len = p.len)
    (hmem : p'.mem = makeReply odd p.payload (p.payload + hlen) src dest p.mem) :
    bytes (p' :: ps) = makeReply odd 0 hlen src dest (bytes (p :: ps)) := by
  have hdata : p.data.length = p.len := p.data_length
  have hpmem := p.inMem
  have hfront : (p.mem.take p.payload).length = p.payload := by
    rw [List.length_take]
    omega
  have hreplyLen : (makeReply odd 0 hlen src dest p.data).length = p.len := by
    rw [makeReply_length (by omega) (by omega), hdata]
  have hmem' := makeReply_middle odd src dest (p.mem.take p.payload) (p.mem.drop (p.payload + p.len))
    (show 20 ≤ p.data.length by omega) (show hlen + 8 ≤ p.data.length by omega)
  rw [hfront, ← mem_split, ← hmem] at hmem'
  have hdata' : p'.data = makeReply odd 0 hlen src dest p.data := by
    rw [Pbuf.data, hmem', hpayload, hplen, List.drop_left' hfront, List.take_left' hreplyLen]
  have hbytes := makeReply_middle odd src dest [] (bytes ps)
    (show 20 ≤ p.data.length by omega) (show hlen + 8 ≤ p.data.length by omega)
  rw [List.length_nil, Nat.zero_add, List.nil_append, List.nil_append] at hbytes
  rw [bytes_cons, bytes_cons, hdata', hbytes]

theorem Hidden.withMem {mem : List UInt8} (h : Hidden k p q) (hp : mem.length = p.mem.length)
    (hq : mem.length = q.mem.length) : Hidden k (Ip.withMem p mem hp) (Ip.withMem q mem hq) :=
  ⟨h.addr, rfl, h.payload, h.totLen, h.len, h.type, h.flags, h.ref⟩

/-- What comes of a request at the end, as `p` is its first pbuf and `q` the same pbuf with its header
hidden. -/
theorem sendReply_cases (env : Env) (src dest : IpAddr) (odd : Bool) (ps : List Pbuf)
    (hidden : Hidden hlen p q) (htype : p.type = .ram ∨ p.type = .pool) (hlen8 : hlen + 8 ≤ p.len) :
    (sendReply env src dest odd p.payload hlen (q :: ps) = none ∧
        ¬ (p.ref = 1 ∧ p.payload + 20 ≤ p.mem.length)) ∨
      p.ref = 1 ∧ ∃ p' sent, sendReply env src dest odd p.payload hlen (q :: ps) =
          some [.send sent, .free (p' :: ps)] ∧ sent.chain = p' :: ps ∧ p'.addr = p.addr ∧
        p'.len = p.len ∧
        (20 ≤ p.len → bytes (p' :: ps) = makeReply odd 0 hlen src dest (bytes (p :: ps))) := by
  have hmem := p.inMem
  have hqmem := hidden.mem
  have hqpayload := hidden.payload
  rw [sendReply]
  by_cases hroom : p.payload + 20 ≤ p.mem.length
  case neg =>
    rw [storeReply, dif_neg fun h => hroom (by rw [← hqmem]; exact h.1)]
    exact .inl ⟨rfl, fun h => hroom h.2⟩
  have hin : p.payload + 20 ≤ q.mem.length ∧ q.payload + 8 ≤ q.mem.length := by
    rw [hqmem, hqpayload]
    exact ⟨hroom, by omega⟩
  obtain ⟨mem, hreply⟩ : ∃ mem, makeReply odd p.payload q.payload src dest q.mem = mem := ⟨_, rfl⟩
  have hq : mem.length = q.mem.length := by rw [← hreply, makeReply_length hin.1 hin.2]
  have hp : mem.length = p.mem.length := by rw [hq, hqmem]
  have hstore : storeReply odd p.payload src dest q = some (withMem q mem hq) := by
    subst hreply
    rw [storeReply, dif_pos hin]
  rw [hstore, Option.bind_some, (hidden.withMem hp hq).restore htype, Option.bind_some]
  dsimp only
  rw [if_neg (not_not_intro rfl), ipOutputIfHdrincl]
  by_cases hone : p.ref = 1
  case neg =>
    have hone' : (withMem p mem hp).ref ≠ 1 := hone
    simp only [if_pos hone']
    exact .inl ⟨rfl, fun h => hone h.1⟩
  have hone' : ¬ (withMem p mem hp).ref ≠ 1 := not_not_intro hone
  simp only [if_neg hone']
  refine .inr ⟨hone, withMem p mem hp, _, rfl, ?_, rfl, rfl, fun h20 => ?_⟩
  · split <;> rfl
  · refine bytes_makeReply odd src dest ps h20 hlen8 rfl rfl ?_
    rw [← hqpayload, ← hqmem, hreply]
    rfl

/-! ### The ways to a reply -/

/-- The payload pointer goes back and forth, unless the length wraps. -/
theorem pbufHeader_forth (ps : List Pbuf) (hk : 0 < k) (htype : q.type = .ram ∨ q.type = .pool)
    (hroom : k ≤ q.payload) : ∃ s, pbufHeader (q :: ps) k = some (0, s :: ps) ∧
      pbufHeader (s :: ps) (-k) = if q.len + k < 2 ^ 16 then some (0, q :: ps) else none := by
  have hlt := q.lenLt
  have htlt := q.totLt
  have hlo : (k : ℤ) ≤ q.payload := by omega
  refine ⟨q.moveHeader k hlo (by omega), ?_, ?_⟩
  · rw [pbufHeader, if_neg (by omega), dif_neg (by omega)]
    obtain htype | htype := htype
    all_goals simp only [htype, dif_pos hlo]
  · rw [pbufHeader, if_neg (by omega), dif_pos (by omega)]
    by_cases hfits : q.len + k < 2 ^ 16
    · have hlen : - -(k : ℤ) ≤ (q.moveHeader k hlo (by omega)).len := by
        simp only [Pbuf.moveHeader, u16, wrapU]
        omega
      rw [dif_pos hlen, if_pos hfits]
      have hback : (q.moveHeader k hlo (by omega)).moveHeader (-k) (by omega) hlen = q := by
        refine Pbuf.ext rfl rfl ?_ ?_ ?_ rfl rfl rfl
        · simp only [Pbuf.moveHeader]
          omega
        · simp only [Pbuf.moveHeader, u16, wrapU]
          omega
        · simp only [Pbuf.moveHeader, u16, wrapU]
          omega
      rw [hback]
    · have hlen : ¬ - -(k : ℤ) ≤ (q.moveHeader k hlo (by omega)).len := by
        simp only [Pbuf.moveHeader, u16, wrapU]
        omega
      rw [dif_neg hlen, if_neg hfits]

/-- A header that is not in the memory in front of the payload is not shown. -/
theorem pbufHeader_refused (ps : List Pbuf) (hk : 0 < k)
    (h : ¬ ((q.type = .ram ∨ q.type = .pool) ∧ k ≤ q.payload)) :
    pbufHeader (q :: ps) k = some (1, q :: ps) := by
  by_cases hexternal : q.type = .rom ∨ q.type = .ref
  · exact pbufHeader_external hk hexternal
  rw [pbufHeader, if_neg (by omega), dif_neg (by omega)]
  cases htype : q.type with
  | ram => exact dif_neg fun hroom => h ⟨.inl htype, by omega⟩
  | pool => exact dif_neg fun hroom => h ⟨.inr htype, by omega⟩
  | rom => exact absurd (.inl htype) hexternal
  | ref => exact absurd (.inr htype) hexternal

/-- What is freed, allocated and sent for a request. -/
structure Outcome (env : Env) (src dest : IpAddr) (hlen : ℕ) (p : Pbuf) (ps : List Pbuf) (memory : Prop)
    (acts : List IcmpAction) : Prop where
  freed : acts.filterMap IcmpAction.freed =
    (p :: ps).map Pbuf.addr :: acts.filterMap IcmpAction.allocated
  sent : memory → ∃ sent odd, acts.filterMap IcmpAction.sent = [sent] ∧
    (bytes sent.chain).length = (bytes (p :: ps)).length ∧
      (20 ≤ p.totLen → bytes sent.chain = makeReply odd 0 hlen src dest (bytes (p :: ps)))
  silent : ¬ memory → acts.filterMap IcmpAction.sent = []

/-- A request that is copied. -/
theorem copyRequest_cases (env : Env) (malloc : ∀ size, Option (RamBlock size)) (src dest : IpAddr)
    (hwf : WellFormed (p :: ps)) (hidden : Hidden hlen p q) (htype : p.type = .ram ∨ p.type = .pool)
    (hlen8 : hlen + 8 ≤ p.totLen) :
    (copyRequest env malloc src dest hlen (q :: ps) = none ∧ (malloc (copySize p)).isSome ∧
        ¬ (OnePacket (p :: ps) ∧ 20 ≤ p.totLen)) ∨
      ((malloc (copySize p)).isSome → OnePacket (p :: ps)) ∧
        ∃ acts, copyRequest env malloc src dest hlen (q :: ps) = some acts ∧
          Outcome env src dest hlen p ps (malloc (copySize p)).isSome acts := by
  have hsize : copySize p = layerOffset .link + totLen (p :: ps) := rfl
  rw [copyRequest, hidden.restore htype, Option.bind_some, hsize]
  dsimp only
  rw [if_neg (not_not_intro rfl)]
  cases malloc (layerOffset .link + totLen (p :: ps)) with
  | none =>
    exact .inr ⟨fun h => absurd h Bool.false_ne_true, [.free (p :: ps)], rfl, rfl,
      fun h => absurd h Bool.false_ne_true, fun _ => rfl⟩
  | some b =>
    obtain ⟨r, hr⟩ : ∃ r, ramPbuf .link (totLen (p :: ps)) (totLen_lt _) b = r := ⟨_, rfl⟩
    have hrlen : r.len = totLen (p :: ps) := by rw [← hr]; rfl
    have halloc : pbufAllocRam .link (totLen (p :: ps)) (totLen_lt _) (some b) = some r := by
      rw [← hr]
      rfl
    have hpos : 0 < totLen (p :: ps) := by
      change 0 < p.totLen
      omega
    rw [halloc]
    dsimp only
    rw [if_neg (by rw [hrlen]; exact hlen8.not_gt)]
    obtain ⟨hnone, hqueue⟩ | ⟨hone, r', hcopy, hshape, hbytes⟩ :=
      pbufCopy_one (r := r) (by rw [← hr]; rfl) hrlen hwf hpos
    · rw [hnone]
      exact .inl ⟨rfl, rfl, fun h => hqueue h.1⟩
    rw [hcopy, Option.bind_some]
    dsimp only
    have hr' : r'.addr = r.addr ∧ r'.payload = r.payload ∧ r'.type = r.type ∧ r'.ref = r.ref :=
      ⟨congrArg (·.1.1) hshape, congrArg (·.1.2.1) hshape, congrArg (·.2.1.1) hshape,
        congrArg (·.2.1.2.2) hshape⟩
    obtain ⟨hlen', htot'⟩ := len_of_shape hshape
    have hlenr' : r'.len = p.totLen := hlen'.trans hrlen
    obtain ⟨d, hd, hidden'⟩ := pbufHeader_hidden (k := hlen) (p := r') [] (by omega) (by
      rw [hlen', htot', ← hr]
      exact le_refl _)
    rw [hd, Option.bind_some]
    dsimp only
    rw [if_neg (not_not_intro rfl)]
    have hmem := r'.inMem
    have href : r'.ref = 1 := by rw [hr'.2.2.2, ← hr]; rfl
    have htyper : r'.type = .ram := by rw [hr'.2.2.1, ← hr]; rfl
    obtain ⟨hnone, hfail⟩ | ⟨-, p', sent, hsend, hchain, haddr, hplen, hreply⟩ :=
      sendReply_cases env src dest (env.odd r') [] hidden' (.inl htyper) (by omega)
    · rw [hnone]
      exact .inl ⟨rfl, rfl, fun h => hfail ⟨href, by omega⟩⟩
    · rw [hsend]
      refine .inr ⟨fun _ => hone, _, rfl, ?_, fun _ => ⟨sent, env.odd r', rfl, ?_, fun h20 => ?_⟩,
        fun h => absurd rfl h⟩
      · change [(p :: ps).map Pbuf.addr, [p'.addr]] = [(p :: ps).map Pbuf.addr, [r.addr]]
        rw [haddr, hr'.1]
      · rw [hchain, ← hbytes, bytes_cons, bytes_cons, List.length_append, List.length_append,
          Pbuf.data_length, Pbuf.data_length, hplen]
      · rw [hchain, hreply (by omega), hbytes]

/-- A request that is answered in place. -/
theorem answerRequest_inPlace (env : Env) (malloc : ∀ size, Option (RamBlock size)) (src dest : IpAddr)
    (odd : Bool) (hidden : Hidden hlen p q) (htype : p.type = .ram ∨ p.type = .pool)
    (hroom : lowerHlen ≤ p.payload + hlen) (hlen8 : hlen + 8 ≤ p.len) (h20 : min 20 p.totLen ≤ p.len) :
    (answerRequest env malloc src dest odd p.payload hlen (q :: ps) = none ∧
        ¬ (p.len + lowerHlen < 2 ^ 16 + hlen ∧ p.ref = 1 ∧ 20 ≤ p.totLen)) ∨
      (p.len + lowerHlen < 2 ^ 16 + hlen ∧ p.ref = 1) ∧ ∃ acts,
        answerRequest env malloc src dest odd p.payload hlen (q :: ps) = some acts ∧
          Outcome env src dest hlen p ps True acts := by
  have hpayload := hidden.payload
  have hqtype := hidden.type
  have hqlen := hidden.len
  have hpmem := p.inMem
  obtain ⟨s, hforth, hback⟩ :=
    pbufHeader_forth (q := q) (k := lowerHlen) ps (by decide) (hqtype ▸ htype) (hpayload ▸ hroom)
  rw [answerRequest, hforth, Option.bind_some]
  dsimp only
  rw [if_neg (not_not_intro rfl), hback]
  by_cases hfits : q.len + lowerHlen < 2 ^ 16
  case neg =>
    rw [if_neg hfits]
    exact .inl ⟨rfl, fun h => hfits (by have := h.1; omega)⟩
  rw [if_pos hfits, Option.bind_some]
  dsimp only
  rw [if_neg (not_not_intro rfl)]
  obtain ⟨hnone, hfail⟩ | ⟨href, p', sent, hsend, hchain, haddr, hplen, hreply⟩ :=
    sendReply_cases env src dest odd ps hidden htype hlen8
  · rw [hnone]
    exact .inl ⟨rfl, fun h => hfail ⟨h.2.1, by have := h.2.2; omega⟩⟩
  · rw [hsend]
    refine .inr ⟨⟨by omega, href⟩, _, rfl, ?_, fun _ => ⟨sent, odd, rfl, ?_, fun h20 => ?_⟩,
      fun h => absurd trivial h⟩
    · change [p'.addr :: ps.map Pbuf.addr] = [p.addr :: ps.map Pbuf.addr]
      rw [haddr]
    · rw [hchain, bytes_cons, bytes_cons, List.length_append, List.length_append, Pbuf.data_length,
        Pbuf.data_length, hplen]
    · rw [hchain, hreply (by omega)]

theorem Outcome.congr {m m' : Prop} {acts : List IcmpAction} (h : Outcome env src dest hlen p ps m acts)
    (hm : m' ↔ m) : Outcome env src dest hlen p ps m' acts :=
  ⟨h.freed, fun h' => h.sent (hm.mp h'), fun h' => h.silent fun h'' => h' (hm.mpr h'')⟩

/-- A request that is to be answered. -/
theorem answerRequest_cases (env : Env) (malloc : ∀ size, Option (RamBlock size)) (outside : ℕ → UInt8)
    (src dest : IpAddr) (odd : Bool) (hwf : WellFormed (p :: ps)) (hlen0 : 0 < iphdrHlen outside p)
    (hidden : Hidden (iphdrHlen outside p) p q) (hlen8 : iphdrHlen outside p + 8 ≤ p.totLen)
    (hheads : HeadersFirst outside p) :
    (answerRequest env malloc src dest odd p.payload (iphdrHlen outside p) (q :: ps) = none ∧
        ¬ (Asserted malloc outside p ps ∧ (MemorySuffices malloc outside p → 20 ≤ p.totLen))) ∨
      Asserted malloc outside p ps ∧ ∃ acts,
        answerRequest env malloc src dest odd p.payload (iphdrHlen outside p) (q :: ps) = some acts ∧
          Outcome env src dest (iphdrHlen outside p) p ps (MemorySuffices malloc outside p) acts := by
  have hpayload := hidden.payload
  have hqtype := hidden.type
  rw [HeadersFirst] at hheads
  have hpos : 0 < lowerHlen := by decide
  by_cases htype : p.type = .ram ∨ p.type = .pool
  case neg =>
    have hrefused := pbufHeader_refused (q := q) ps hpos fun h => htype (hqtype ▸ h.1)
    have hrefused' := pbufHeader_refused (q := q) ps hlen0 fun h => htype (hqtype ▸ h.1)
    rw [answerRequest, hrefused, Option.bind_some]
    dsimp only
    rw [if_pos Nat.one_ne_zero, copyRequest, hrefused']
    exact .inl ⟨rfl, fun h => htype h.1.type⟩
  by_cases hroom : lowerHlen ≤ p.payload + iphdrHlen outside p
  · have hmem : MemorySuffices malloc outside p := .inl ⟨htype, hroom⟩
    obtain ⟨hnone, hfail⟩ | ⟨hplace, acts, hacts, houtcome⟩ :=
      answerRequest_inPlace env malloc src dest odd hidden htype hroom (by omega) (by omega)
    · refine .inl ⟨hnone, fun h => hfail ?_⟩
      obtain ⟨hfits, href⟩ := h.1.inPlace hroom
      exact ⟨hfits, href, h.2 hmem⟩
    · exact .inr ⟨⟨htype, fun _ => hplace, fun h => absurd hroom h.not_ge⟩, acts, hacts,
        houtcome.congr (iff_true_intro hmem)⟩
  · have hmem : MemorySuffices malloc outside p ↔ (malloc (copySize p)).isSome :=
      or_iff_right fun h => hroom h.2
    have hrefused := pbufHeader_refused (q := q) ps hpos fun h => hroom (hpayload ▸ h.2)
    rw [answerRequest, hrefused, Option.bind_some]
    dsimp only
    rw [if_pos Nat.one_ne_zero]
    obtain ⟨hnone, hblock, hfail⟩ | ⟨hone, acts, hacts, houtcome⟩ :=
      copyRequest_cases env malloc src dest hwf hidden htype hlen8
    · exact .inl ⟨hnone, fun h => hfail ⟨h.1.copied (not_le.mp hroom) hblock, h.2 (hmem.mpr hblock)⟩⟩
    · exact .inr ⟨⟨htype, fun h => absurd h hroom, fun _ => hone⟩, acts, hacts, houtcome.congr hmem⟩

/-! ### The tests of `icmp_input` -/

theorem inetChksumPbuf_eq_zero (odd : Pbuf → Bool) (c : List Pbuf) :
    inetChksumPbuf odd c = 0 ↔ Verifies (bytes c) := by
  have hle := residue_le (value (bytes c))
  rw [inetChksumPbuf_eq, verifies_iff]
  omega

/-- What is no request is freed. -/
theorem icmpInput_cases (env : Env) (malloc : ∀ size, Option (RamBlock size)) (outside : ℕ → UInt8)
    (src : IpAddr) (hwf : WellFormed (p :: ps)) (hheads : HeadersFirst outside p)
    (hlen : iphdrHlen outside p ≤ p.totLen) : ∃ q, Hidden (iphdrHlen outside p) p q ∧
      (EchoRequest env outside p ps → icmpInput env malloc outside src (iphDest outside p) (p :: ps) =
        answerRequest env malloc src (iphDest outside p) (env.odd p) p.payload (iphdrHlen outside p)
          (q :: ps)) ∧
      (¬ EchoRequest env outside p ps →
        icmpInput env malloc outside src (iphDest outside p) (p :: ps) = some [.free (q :: ps)]) := by
  rw [HeadersFirst] at hheads
  have hle : p.len ≤ p.totLen := by
    rw [hwf.1]
    omega
  obtain ⟨q, hq, hidden⟩ := pbufHeader_hidden (k := iphdrHlen outside p) ps (by omega) hle
  obtain ⟨-, -, hbytes⟩ := pbufHeader_hide hwf hq
  have hqtot := hidden.totLen
  refine ⟨q, hidden, ?_⟩
  rw [icmpInput]
  dsimp only
  rw [hq, Option.bind_some]
  dsimp only
  by_cases hshort : q.totLen < 4
  · rw [if_pos (.inr hshort)]
    exact ⟨fun h => absurd h.complete (by omega), fun _ => rfl⟩
  rw [if_neg (by simp [hshort]), hidden.peek 0, Nat.add_zero, peek_eq_bytes outside ps (by omega)]
  by_cases htype : (bytes (p :: ps)).getD (iphdrHlen outside p) 0 = 8
  case neg =>
    rw [if_neg htype]
    exact ⟨fun h => absurd h.type htype, fun _ => rfl⟩
  rw [if_pos htype]
  cases hcast : (iphDest outside p).isMulticast || (iphDest outside p).isBroadcast env.inp with
  | true =>
    rw [if_pos rfl]
    exact ⟨fun h => absurd (h.unicast.symm.trans hcast) Bool.false_ne_true, fun _ => rfl⟩
  | false =>
    rw [if_neg Bool.false_ne_true]
    by_cases hcomplete : q.totLen < 8
    · rw [if_pos hcomplete]
      exact ⟨fun h => absurd h.complete (by omega), fun _ => rfl⟩
    rw [if_neg hcomplete]
    have hchksum := inetChksumPbuf_eq_zero env.odd (q :: ps)
    rw [hbytes] at hchksum
    by_cases hzero : inetChksumPbuf env.odd (q :: ps) = 0
    · rw [if_neg (not_not_intro hzero)]
      exact ⟨fun _ => rfl, fun h => absurd ⟨by omega, htype, hcast, hchksum.mp hzero⟩ h⟩
    · rw [if_pos hzero]
      exact ⟨fun h => absurd (hchksum.mpr h.chksum) hzero, fun _ => rfl⟩

/-! ### When an echo request is handled -/

/-- The first byte tells the length of the header, and a header without a byte would begin with the
type. -/
theorem EchoRequest.hlen_eq (h : EchoRequest env outside p ps) (hheads : HeadersFirst outside p) :
    iphdrHlen outside p = ((bytes (p :: ps)).getD 0 0).toNat % 16 * 4 ∧ 0 < iphdrHlen outside p := by
  have hcomplete := h.complete
  rw [HeadersFirst] at hheads
  have hfirst : peek outside p 0 = (bytes (p :: ps)).getD 0 0 := peek_eq_bytes outside ps (by omega)
  have heq : iphdrHlen outside p = ((bytes (p :: ps)).getD 0 0).toNat % 16 * 4 := by
    rw [iphdrHlen, hfirst]
  refine ⟨heq, Nat.pos_of_ne_zero fun hzero => ?_⟩
  have htype := h.type
  rw [hzero] at htype heq
  rw [htype] at heq
  exact absurd heq (by decide)

/-- The reply to a request is right exactly for the two kinds of requests. -/
theorem EchoRequest.isReply_iff (h : EchoRequest env outside p ps) (hwf : WellFormed (p :: ps))
    (hheads : HeadersFirst outside p) {l' : List UInt8} (hlength : l'.length = (bytes (p :: ps)).length)
    (hreply : 20 ≤ p.totLen → l' = makeReply odd 0 (iphdrHlen outside p) (iphSrc outside p)
      (iphDest outside p) (bytes (p :: ps))) :
    IsReply (iphdrHlen outside p) (bytes (p :: ps)) l' ↔
      PlainRequest (iphdrHlen outside p) (bytes (p :: ps)) ∨
        OverlaidRequest (iphdrHlen outside p) (bytes (p :: ps)) := by
  have htot : (bytes (p :: ps)).length = p.totLen := hwf.bytes_length
  have hcomplete := h.complete
  by_cases h20 : 20 ≤ p.totLen
  · rw [hreply h20]
    rw [HeadersFirst] at hheads
    exact Ip.isReply_iff (h.hlen_eq hheads).1 (by omega) (by omega) h.type h.chksum
      (addrBytes_eq_bytes outside ps (by omega)) (addrBytes_eq_bytes outside ps (by omega))
  · refine iff_of_false (fun hr => ?_) ?_
    · have := hr.least
      omega
    · rintro (hplain | hover)
      · have := hplain.least
        omega
      · have := hover.length
        omega

/-- What comes of a request. -/
theorem EchoRequest.cases (h : EchoRequest env outside p ps) (malloc : ∀ size, Option (RamBlock size))
    (hwf : WellFormed (p :: ps)) (hheads : HeadersFirst outside p) :
    (icmpInput env malloc outside (iphSrc outside p) (iphDest outside p) (p :: ps) = none ∧
        ¬ (Asserted malloc outside p ps ∧ (MemorySuffices malloc outside p → 20 ≤ p.totLen))) ∨
      Asserted malloc outside p ps ∧ ∃ acts,
        icmpInput env malloc outside (iphSrc outside p) (iphDest outside p) (p :: ps) = some acts ∧
          Outcome env (iphSrc outside p) (iphDest outside p) (iphdrHlen outside p) p ps
            (MemorySuffices malloc outside p) acts := by
  have hcomplete := h.complete
  obtain ⟨q, hidden, hyes, -⟩ :=
    icmpInput_cases env malloc outside (iphSrc outside p) hwf hheads (by omega)
  rw [hyes h]
  exact answerRequest_cases env malloc outside _ _ _ hwf (h.hlen_eq hheads).2 hidden hcomplete hheads

theorem EchoSafe.handled (h : EchoSafe env malloc outside p ps) (hwf : WellFormed (p :: ps))
    (hheads : HeadersFirst outside p) : EchoHandled env malloc outside p ps := by
  by_cases hecho : EchoRequest env outside p ps
  · obtain ⟨-, hfail⟩ | ⟨-, acts, hacts, houtcome⟩ := hecho.cases malloc hwf hheads
    · refine absurd ⟨h.asserted hecho, fun hmem => ?_⟩ hfail
      have htot : (bytes (p :: ps)).length = p.totLen := hwf.bytes_length
      obtain hplain | hover := h.request hecho hmem
      · exact hplain.least.trans h.length
      · exact hover.length.trans_eq htot
    · refine ⟨acts, hacts, houtcome.freed, fun _ hmem => ?_, fun hnot => houtcome.silent fun hmem =>
        hnot ⟨hecho, hmem⟩⟩
      obtain ⟨sent, odd, hsent, hlength, hreply⟩ := houtcome.sent hmem
      exact ⟨sent, hsent, (hecho.isReply_iff hwf hheads hlength hreply).mpr (h.request hecho hmem)⟩
  · obtain ⟨q, hidden, -, hno⟩ :=
      icmpInput_cases env malloc outside (iphSrc outside p) hwf hheads h.length
    refine ⟨_, hno hecho, ?_, fun h => absurd h hecho, fun _ => rfl⟩
    change [q.addr :: ps.map Pbuf.addr] = [p.addr :: ps.map Pbuf.addr]
    rw [hidden.addr]

theorem EchoHandled.safe (h : EchoHandled env malloc outside p ps) (hwf : WellFormed (p :: ps))
    (hheads : HeadersFirst outside p) : EchoSafe env malloc outside p ps := by
  obtain ⟨acts, hacts, hhandled⟩ := h
  have hlen : iphdrHlen outside p ≤ p.totLen := by
    by_contra hlen
    have hle : p.len ≤ p.totLen := by
      rw [hwf.1]
      omega
    rw [icmpInput] at hacts
    dsimp only at hacts
    rw [pbufHeader_short (by omega)] at hacts
    cases hacts
  refine ⟨hlen, fun hecho => ?_, fun hecho hmem => ?_⟩
  · obtain ⟨hnone, -⟩ | ⟨hasserted, -⟩ := hecho.cases malloc hwf hheads
    · cases hnone.symm.trans hacts
    · exact hasserted
  · obtain ⟨hnone, -⟩ | ⟨-, acts', hacts', houtcome⟩ := hecho.cases malloc hwf hheads
    · cases hnone.symm.trans hacts
    · cases hacts'.symm.trans hacts
      obtain ⟨sent, odd, hsent, hlength, hreply⟩ := houtcome.sent hmem
      obtain ⟨sent', hsent', hisReply⟩ := hhandled.answered hecho hmem
      cases hsent.symm.trans hsent'
      exact (hecho.isReply_iff hwf hheads hlength hreply).mp hisReply

/-- For every packet with its headers in the first pbuf: `icmp_input` frees what it has to, and answers
the echo requests with their replies and nothing else, exactly when the packet is as long as its header
and an echo request fails no assertion, has options that add nothing to the sum of its header and has
more in its message than zeros. -/
theorem icmp_echo_iff (env : Env) (malloc : ∀ size, Option (RamBlock size)) (outside : ℕ → UInt8) (p : Pbuf)
    (ps : List Pbuf) (hwf : WellFormed (p :: ps)) (hheads : HeadersFirst outside p) :
    EchoHandled env malloc outside p ps ↔ EchoSafe env malloc outside p ps :=
  ⟨fun h => h.safe hwf hheads, fun h => h.handled hwf hheads⟩

theorem pingPbuf_inMem (l : List UInt8) : 34 + l.length ≤ (List.replicate 34 0 ++ l).length := by
  rw [List.length_append, List.length_replicate]

/-- A packet in one pbuf, with room for the headers in front. -/
def pingPbuf (l : List UInt8) (hl : l.length < 2 ^ 16) : Pbuf :=
  ⟨0, List.replicate 34 0 ++ l, 34, l.length, l.length, .pool, 0, 1, pingPbuf_inMem l, hl, hl, oneRef_lt⟩

/-- A request from 10.0.0.2 to 10.0.0.1. -/
def ping : List UInt8 :=
  [0x45, 0, 0, 28, 0, 0, 0, 0, 0x40, 1, 0x66, 0xdf, 10, 0, 0, 2, 10, 0, 0, 1, 8, 0, 0xf7, 0xfd, 0, 1, 0, 1]

theorem ping_lt : ping.length < 2 ^ 16 := by decide

/-- The request is answered. -/
theorem icmp_echo_ping : EchoRequest quietEnv (fun _ => 0) (pingPbuf ping ping_lt) [] ∧
    EchoHandled quietEnv (fun _ => none) (fun _ => 0) (pingPbuf ping ping_lt) [] := by
  refine ⟨⟨by decide, by decide, by decide, by decide, by decide⟩, ?_⟩
  apply (icmp_echo_iff quietEnv _ _ (pingPbuf ping ping_lt) [] ⟨rfl, trivial⟩ (by decide)).mpr
  refine ⟨by decide, ?_, ?_⟩
  · exact fun _ => ⟨.inr rfl, fun _ => by decide, fun h => absurd h (by decide)⟩
  · exact fun _ _ => .inl ⟨by decide, by decide, by decide⟩

/-- The request with three options of one byte and the end of the options. -/
def pingOptions : List UInt8 :=
  [0x46, 0, 0, 32, 0, 0, 0, 0, 0x40, 1, 0x63, 0xda, 10, 0, 0, 2, 10, 0, 0, 1, 1, 1, 1, 0,
    8, 0, 0xf7, 0xfd, 0, 1, 0, 1]

theorem pingOptions_lt : pingOptions.length < 2 ^ 16 := by decide

/-- The checksum of the header is that of its first 20 bytes. -/
theorem icmp_echo_options : ¬ ∀ env malloc outside c acts p ps, ipInput env outside c = some acts →
    .icmpInput (p :: ps) ∈ acts → WellFormed (p :: ps) → HeadersFirst outside p →
    EchoHandled env malloc outside p ps := by
  intro hall
  have hwf : WellFormed [pingPbuf pingOptions pingOptions_lt] := ⟨rfl, trivial⟩
  have hheads : HeadersFirst (fun _ => 0) (pingPbuf pingOptions pingOptions_lt) := by decide
  have hinput : ipInput quietEnv (fun _ => 0) [pingPbuf pingOptions pingOptions_lt] =
      some [.rawInput [pingPbuf pingOptions pingOptions_lt],
        .icmpInput [pingPbuf pingOptions pingOptions_lt]] := rfl
  have hsafe := (hall quietEnv (fun _ => none) _ _ _ _ [] hinput (by simp) hwf hheads).safe hwf hheads
  have hecho : EchoRequest quietEnv (fun _ => 0) (pingPbuf pingOptions pingOptions_lt) [] :=
    ⟨by decide, by decide, by decide, by decide, by decide⟩
  obtain hplain | hover := hsafe.request hecho (.inl ⟨.inr rfl, by decide⟩)
  · exact absurd hplain.options (by decide)
  · exact absurd hover.four (by decide)

end QuietLwip.Ip
