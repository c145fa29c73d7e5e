import QuietLwip.Ip.Validation

/-!
# Destination unreachable messages

`icmp_send_response` of `icmp.c` copies the header and the first bytes of a packet into an ICMP
message: always 28 bytes from the payload pointer of the first pbuf on. As long as these are bytes
of the packet the message depends on the packet alone; otherwise it shows what else the memory
holds.
-/

namespace QuietLwip.Ip

open Word Buffers OnesComplement

/-- An ICMP message on its way to `dest`. -/
structure IcmpMsg where
  dest : IpAddr
  bytes : List UInt8
  deriving DecidableEq

/-- `IP_HLEN + ICMP_DEST_UNREACH_DATASIZE`. -/
def quotedLen : ℕ := 28

/-- The bytes that `icmp_send_response` copies. -/
def quoted (outside : ℕ → UInt8) (p : Pbuf) : List UInt8 :=
  (List.range quotedLen).map (peek outside p)

/-- The message with this type, code and checksum. -/
def icmpBytes (type code : UInt8) (chksum : ℕ) (data : List UInt8) : List UInt8 :=
  [type, code, UInt8.ofNat (chksum % 256), UInt8.ofNat (chksum / 256), 0, 0, 0, 0] ++ data

/-- `icmp_send_response`, for a message in a fresh pbuf whose payload begins at an address that is
`odd` or not. -/
def icmpSendResponse (alloc odd : Bool) (outside : ℕ → UInt8) (type code : UInt8) (p : Pbuf) :
    Option IcmpMsg :=
  if alloc then
    let data := quoted outside p
    let chksum := inetChksum odd (icmpBytes type code 0 data)
    some ⟨iphSrc outside p, icmpBytes type code chksum data⟩
  else none

/-- `icmp_dest_unreach`, with the type `ICMP_DUR`. -/
def icmpDestUnreach (env : Env) (outside : ℕ → UInt8) (code : UInt8) : List Pbuf → Option IcmpMsg
  | [] => none
  | p :: _ => icmpSendResponse env.alloc false outside 3 code p

/-- The messages that `udp_input` sends, with the code `ICMP_DUR_PORT`. -/
def UdpAction.messages (env : Env) (outside : ℕ → UInt8) : UdpAction → List IcmpMsg
  | .destUnreach c => (icmpDestUnreach env outside 3 c).toList
  | _ => []

/-- The messages that are sent, by `ip_input` with the code `ICMP_DUR_PROTO`, for a packet between
these addresses. -/
def Action.messages (env : Env) (outside : ℕ → UInt8) (src dest : IpAddr) : Action → List IcmpMsg
  | .destUnreach c => (icmpDestUnreach env outside 2 c).toList
  | .udpInput c =>
    ((Ip.udpInput env outside src dest c).getD []).flatMap (UdpAction.messages env outside)
  | _ => []

/-- The messages that are sent for a packet that `ip_input` has accepted. -/
def unreachMessages (env : Env) (outside : ℕ → UInt8) (src dest : IpAddr) (c : List Pbuf) :
    List IcmpMsg :=
  (ipDeliver env outside dest c).flatMap (Action.messages env outside src dest)

/-! ### When a message is sent -/

variable {env : Env} {outside outside' : ℕ → UInt8} {src dest : IpAddr} {p p' q : Pbuf}
  {ps ps' c c' : List Pbuf} {i k m : ℕ}

/-- Where `udp_input` finds that no pcb is bound to the port of a packet for this interface. -/
def portUnreach (env : Env) (outside : ℕ → UInt8) (src dest : IpAddr) (p : Pbuf) (ps : List Pbuf) :
    Prop :=
  let hlen := iphdrHlen outside p
  let e : Udp.Endpoints :=
    { src := peekWord outside p hlen, dest := peekWord outside p (hlen + 2), srcIp := src,
      destIp := dest, inp := env.inp }
  hlen + 8 ≤ p.totLen ∧ hlen + 8 ≤ p.len ∧ (env.udp.demux e).map Prod.snd = some none ∧
    env.inp.ipAddr = dest ∧ (!dest.isBroadcast env.inp && !dest.isMulticast) = true ∧
    (peekWord outside p (hlen + 6) = 0 ∨
      residue (value ((bytes (p :: ps)).drop hlen) +
        (addrSum src + addrSum dest + htons 17 + htons (p.totLen - hlen))) = 0xffff)

/-- The pbuf `q` is `p` without its first `k` bytes. -/
structure Hidden (k : ℕ) (p q : Pbuf) : Prop where
  addr : q.addr = p.addr
  mem : q.mem = p.mem
  payload : q.payload = p.payload + k
  totLen : q.totLen + k = p.totLen
  len : q.len + k = p.len
  type : q.type = p.type
  flags : q.flags = p.flags
  ref : q.ref = p.ref

theorem Hidden.trans {r : Pbuf} (h : Hidden k p q) (h' : Hidden m q r) : Hidden (k + m) p r where
  addr := h'.addr.trans h.addr
  mem := h'.mem.trans h.mem
  payload := by rw [h'.payload, h.payload, Nat.add_assoc]
  totLen := by rw [← h.totLen, ← h'.totLen, Nat.add_comm k, Nat.add_assoc]
  len := by rw [← h.len, ← h'.len, Nat.add_comm k, Nat.add_assoc]
  type := h'.type.trans h.type
  flags := h'.flags.trans h.flags
  ref := h'.ref.trans h.ref

theorem Hidden.peek (h : Hidden k p q) (i : ℕ) : peek outside q i = peek outside p (k + i) := by
  rw [Ip.peek, Ip.peek, h.mem, h.payload, Nat.add_assoc]

theorem Hidden.peekWord (h : Hidden k p q) (i : ℕ) :
    peekWord outside q i = peekWord outside p (k + i) := by
  rw [Ip.peekWord, Ip.peekWord, h.peek, h.peek, Nat.add_assoc]

/-- `pbuf_header` hides what the first pbuf has. -/
theorem pbufHeader_hidden (ps : List Pbuf) (hk : k ≤ p.len) (hle : p.len ≤ p.totLen) :
    ∃ q, pbufHeader (p :: ps) (-k) = some (0, q :: ps) ∧ Hidden k p q := by
  have hlt := p.lenLt
  have htlt := p.totLt
  by_cases h0 : k = 0
  · subst h0
    exact ⟨p, rfl, ⟨rfl, rfl, rfl, rfl, rfl, rfl, rfl, rfl⟩⟩
  · refine ⟨p.moveHeader (-k) (by omega) (by omega), ?_, ⟨rfl, rfl, ?_, ?_, ?_, rfl, rfl, rfl⟩⟩
    · rw [pbufHeader, if_neg (by omega), dif_pos (by omega), dif_pos (by omega)]
    · simp only [Pbuf.moveHeader]
      omega
    · simp only [Pbuf.moveHeader, u16, wrapU]
      omega
    · simp only [Pbuf.moveHeader, u16, wrapU]
      omega

theorem pbufHeader_short (hk : p.len < k) : pbufHeader (p :: ps) (-k) = none := by
  rw [pbufHeader, if_neg (by omega), dif_pos (by omega), dif_neg (by omega)]

/-- `pbuf_header` brings back what was hidden. -/
theorem Hidden.restore (h : Hidden k p q) (htype : p.type = .ram ∨ p.type = .pool) :
    pbufHeader (q :: ps) k = some (0, p :: ps) := by
  have hlt := p.lenLt
  have htlt := p.totLt
  obtain ⟨haddr, hmem, hpayload, htot, hlen, hty, hflags, href⟩ := h
  by_cases h0 : k = 0
  · subst h0
    have heq : q = p := Pbuf.ext haddr hmem hpayload htot hlen hty hflags href
    rw [heq]
    rfl
  · have hlo : (k : ℤ) ≤ q.payload := by omega
    have hback : q.moveHeader k hlo (by omega) = p := by
      refine Pbuf.ext haddr hmem ?_ ?_ ?_ hty hflags href
      · simp only [Pbuf.moveHeader]
        omega
      · simp only [Pbuf.moveHeader, u16, wrapU]
        omega
      · simp only [Pbuf.moveHeader, u16, wrapU]
        omega
    rw [pbufHeader, if_neg (by omega), dif_neg (by omega)]
    obtain htype | htype := htype
    all_goals simp only [hty, htype, dif_pos hlo, hback]

/-- The messages of `udp_input`. -/
theorem udpInput_messages (env : Env) (outside : ℕ → UInt8) (src dest : IpAddr)
    (hwf : WellFormed (p :: ps)) (htype : p.type = .ram ∨ p.type = .pool) :
    ((udpInput env outside src dest (p :: ps)).getD []).flatMap (UdpAction.messages env outside) = [] ∧
        ¬ portUnreach env outside src dest p ps ∨
      ((udpInput env outside src dest (p :: ps)).getD []).flatMap (UdpAction.messages env outside) =
        (icmpDestUnreach env outside 3 (p :: ps)).toList ∧ portUnreach env outside src dest p ps := by
  have hle : p.len ≤ p.totLen := by
    rw [hwf.1]
    omega
  rw [udpInput]
  dsimp only
  by_cases hshort : p.totLen < iphdrHlen outside p + 8
  · rw [if_pos hshort]
    exact .inl ⟨rfl, fun h => hshort.not_ge h.1⟩
  rw [if_neg hshort]
  by_cases hfirst : iphdrHlen outside p ≤ p.len
  case neg =>
    rw [pbufHeader_short (by omega)]
    exact .inl ⟨rfl, fun h => hfirst (by have := h.2.1; omega)⟩
  obtain ⟨q, hq, hidden⟩ := pbufHeader_hidden ps hfirst hle
  obtain ⟨-, hqwf, hqbytes⟩ := pbufHeader_hide hwf hq
  rw [hq, Option.bind_some]
  dsimp only
  rw [hidden.peekWord 0, hidden.peekWord 2, hidden.peekWord 6, Nat.add_zero]
  rw [portUnreach]
  generalize env.udp.demux _ = found
  cases found with
  | none => exact .inl ⟨rfl, fun h => absurd h.2.2.1 (Option.some_ne_none _).symm⟩
  | some found =>
    obtain ⟨t, pcb⟩ := found
    rw [Option.bind_some]
    dsimp only
    cases hmine : pcb.isSome || env.inp.ipAddr == dest with
    | false =>
      refine .inl ⟨rfl, fun h => ?_⟩
      rw [h.2.2.2.1] at hmine
      simp at hmine
    | true =>
      rw [if_pos rfl]
      have hsum : (peekWord outside p (iphdrHlen outside p + 6) ≠ 0 ∧
          inetChksumPseudo env.odd (q :: ps) src dest 17 q.totLen ≠ 0) ↔
          ¬ (peekWord outside p (iphdrHlen outside p + 6) = 0 ∨
            residue (value ((bytes (p :: ps)).drop (iphdrHlen outside p)) +
              (addrSum src + addrSum dest + htons 17 +
                htons (p.totLen - iphdrHlen outside p))) = 0xffff) := by
        rw [inetChksumPseudo_eq (q :: ps) (by decide) q.totLt, hqbytes, not_or]
        have htot : q.totLen = p.totLen - iphdrHlen outside p := by
          have := hidden.totLen
          omega
        rw [htot]
        refine and_congr_right fun _ => not_congr ?_
        have hres := residue_le (value ((bytes (p :: ps)).drop (iphdrHlen outside p)) +
          (addrSum src + addrSum dest + htons 17 + htons (p.totLen - iphdrHlen outside p)))
        omega
      by_cases hbad : peekWord outside p (iphdrHlen outside p + 6) ≠ 0 ∧
          inetChksumPseudo env.odd (q :: ps) src dest 17 q.totLen ≠ 0
      · rw [if_pos hbad]
        exact .inl ⟨rfl, fun h => hsum.mp hbad h.2.2.2.2.2⟩
      rw [if_neg hbad]
      have hgood := not_not.mp ((not_congr hsum).mp hbad)
      have hqlen := hidden.len
      by_cases hport : 8 ≤ q.len
      case neg =>
        have hnone : pbufHeader (q :: ps) (-8) = none := pbufHeader_short (k := 8) (by omega)
        rw [hnone]
        exact .inl ⟨rfl, fun h => hport (by have := h.2.1; omega)⟩
      have hqle : q.len ≤ q.totLen := by
        rw [hqwf.1]
        omega
      obtain ⟨r, hr, hidden'⟩ := pbufHeader_hidden ps hport hqle
      have hr' : pbufHeader (q :: ps) (-8) = some (0, r :: ps) := hr
      rw [hr', Option.bind_some]
      dsimp only
      cases pcb with
      | some n => exact .inl ⟨rfl, fun h => absurd h.2.2.1 (by simp)⟩
      | none =>
        dsimp only
        cases hcast : !dest.isBroadcast env.inp && !dest.isMulticast with
        | false => exact .inl ⟨rfl, fun h => Bool.false_ne_true h.2.2.2.2.1⟩
        | true =>
          have hback : pbufHeader (r :: ps) (iphdrHlen outside p + 8) = some (0, p :: ps) :=
            (hidden.trans hidden').restore htype
          rw [if_pos rfl, hback]
          refine .inr ⟨?_, by omega, by omega, rfl, ?_, rfl, hgood⟩
          · simp [UdpAction.messages]
          · simpa using hmine

/-- The packet is one that a message with this code is sent for. -/
def Unreach (env : Env) (outside : ℕ → UInt8) (src dest : IpAddr) (p : Pbuf) (ps : List Pbuf)
    (code : UInt8) : Prop :=
  rawInput env.raw (iphProto outside p) dest = false ∧
    (iphProto outside p = 17 ∧ portUnreach env outside src dest p ps ∧ code = 3 ∨
      iphProto outside p ∉ [17, 6, 1] ∧
        (!dest.isBroadcast env.inp && !dest.isMulticast) = true ∧ code = 2)

/-- The messages for a packet: none, or one. -/
theorem unreachMessages_cases (env : Env) (outside : ℕ → UInt8) (src dest : IpAddr)
    (hwf : WellFormed (p :: ps)) (htype : p.type = .ram ∨ p.type = .pool) :
    unreachMessages env outside src dest (p :: ps) = [] ∧
        (∀ code, ¬ Unreach env outside src dest p ps code) ∨
      ∃ code, Unreach env outside src dest p ps code ∧ unreachMessages env outside src dest (p :: ps) =
        (icmpDestUnreach env outside code (p :: ps)).toList := by
  rw [unreachMessages, ipDeliver]
  cases hraw : rawInput env.raw (iphProto outside p) dest with
  | true => exact .inl ⟨rfl, fun code h => Bool.false_ne_true (h.1.symm.trans hraw)⟩
  | false =>
    rw [if_neg Bool.false_ne_true]
    by_cases hudp : iphProto outside p = 17
    · rw [if_pos hudp]
      obtain ⟨hnone, hport⟩ | ⟨hsome, hport⟩ := udpInput_messages env outside src dest hwf htype
      · refine .inl ⟨?_, fun code h => ?_⟩
        · simpa [Action.messages] using hnone
        · obtain ⟨-, ⟨-, h, -⟩ | ⟨h, -⟩⟩ := h
          · exact hport h
          · exact h (by simp [hudp])
      · refine .inr ⟨3, ⟨hraw, .inl ⟨hudp, hport, rfl⟩⟩, ?_⟩
        simpa [Action.messages] using hsome
    · rw [if_neg hudp]
      by_cases htcp : iphProto outside p = 6
      · rw [if_pos htcp]
        refine .inl ⟨rfl, fun code h => ?_⟩
        exact h.2.elim (fun h => hudp h.1) fun h => h.1 (by simp [htcp])
      rw [if_neg htcp]
      by_cases hicmp : iphProto outside p = 1
      · rw [if_pos hicmp]
        refine .inl ⟨rfl, fun code h => ?_⟩
        exact h.2.elim (fun h => hudp h.1) fun h => h.1 (by simp [hicmp])
      rw [if_neg hicmp]
      cases hcast : !dest.isBroadcast env.inp && !dest.isMulticast with
      | true =>
        refine .inr ⟨2, ⟨hraw, .inr ⟨by simp [hudp, htcp, hicmp], hcast, rfl⟩⟩, ?_⟩
        simp [Action.messages]
      | false =>
        refine .inl ⟨rfl, fun code h => ?_⟩
        exact h.2.elim (fun h => hudp h.1) fun h => Bool.false_ne_true (hcast.symm.trans h.2.1)

theorem Unreach.unique {code code' : UInt8} (h : Unreach env outside src dest p ps code)
    (h' : Unreach env outside src dest p ps code') : code = code' := by
  obtain ⟨-, ⟨hudp, -, rfl⟩ | ⟨hother, -, rfl⟩⟩ := h
  · obtain ⟨-, ⟨-, -, rfl⟩ | ⟨hother, -⟩⟩ := h'
    · rfl
    · exact absurd (by simp [hudp]) hother
  · obtain ⟨-, ⟨hudp, -⟩ | ⟨-, -, rfl⟩⟩ := h'
    · exact absurd (by simp [hudp]) hother
    · rfl

theorem Unreach.messages {code : UInt8} (hwf : WellFormed (p :: ps))
    (htype : p.type = .ram ∨ p.type = .pool) (h : Unreach env outside src dest p ps code) :
    unreachMessages env outside src dest (p :: ps) =
      (icmpDestUnreach env outside code (p :: ps)).toList := by
  obtain ⟨-, hnone⟩ | ⟨code', h', hsome⟩ := unreachMessages_cases env outside src dest hwf htype
  · exact absurd h (hnone code)
  · rw [hsome, h'.unique h]

/-! ### Two memories -/

/-- Two memories hold the same pbuf: its fields and its bytes agree, what is around them may not. -/
structure SamePbuf (p p' : Pbuf) : Prop where
  totLen : p'.totLen = p.totLen
  len : p'.len = p.len
  type : p'.type = p.type
  data : p'.data = p.data

theorem SamePbuf.symm (h : SamePbuf p p') : SamePbuf p' p :=
  ⟨h.totLen.symm, h.len.symm, h.type.symm, h.data.symm⟩

theorem SamePbuf.peek (h : SamePbuf p p') (outside outside' : ℕ → UInt8) (hi : i < p.len) :
    Ip.peek outside' p' i = Ip.peek outside p i := by
  rw [peek_eq_data (by rwa [h.len]), peek_eq_data hi, h.data]

theorem SamePbuf.peekWord (h : SamePbuf p p') (hi : i + 1 < p.len) :
    Ip.peekWord outside' p' i = Ip.peekWord outside p i := by
  rw [Ip.peekWord, Ip.peekWord, h.peek outside outside' (by omega), h.peek outside outside' hi]

theorem bytes_same (h : List.Forall₂ SamePbuf c c') : bytes c' = bytes c := by
  induction h with
  | nil => rfl
  | cons hp _ ih => rw [bytes_cons, bytes_cons, hp.data, ih]

theorem wellFormed_same (h : List.Forall₂ SamePbuf c c') (hwf : WellFormed c) : WellFormed c' := by
  induction h with
  | nil => trivial
  | @cons p p' ps ps' hp hps ih =>
    refine ⟨?_, ih hwf.2⟩
    have htot : totLen ps' = totLen ps := by
      cases hps with
      | nil => rfl
      | cons hq _ => exact hq.totLen
    rw [hp.totLen, hp.len, htot]
    exact hwf.1

theorem portUnreach_same (h : List.Forall₂ SamePbuf (p :: ps) (p' :: ps'))
    (hzero : peek outside' p' 0 = peek outside p 0) (hport : portUnreach env outside src dest p ps) :
    portUnreach env outside' src dest p' ps' := by
  have hp : SamePbuf p p' := (List.forall₂_cons.mp h).1
  have hhlen : iphdrHlen outside' p' = iphdrHlen outside p := by rw [iphdrHlen, iphdrHlen, hzero]
  obtain ⟨htot, hlen, hrest⟩ := hport
  have hword : ∀ i < 7, peekWord outside' p' (iphdrHlen outside p + i) =
      peekWord outside p (iphdrHlen outside p + i) := fun i hi => hp.peekWord (by omega)
  have hword0 := hword 0 (by decide)
  rw [Nat.add_zero] at hword0
  refine ⟨?_, ?_, ?_⟩
  · rw [hhlen, hp.totLen]
    exact htot
  · rw [hhlen, hp.len]
    exact hlen
  · rw [hhlen, hword0, hword 2 (by decide), hword 6 (by decide), bytes_same h, hp.totLen]
    exact hrest

theorem unreach_same {code : UInt8} (h : List.Forall₂ SamePbuf (p :: ps) (p' :: ps'))
    (hzero : peek outside' p' 0 = peek outside p 0) (hnine : peek outside' p' 9 = peek outside p 9)
    (hun : Unreach env outside src dest p ps code) : Unreach env outside' src dest p' ps' code := by
  have hproto : iphProto outside' p' = iphProto outside p := by rw [iphProto, iphProto, hnine]
  obtain ⟨hraw, hcases⟩ := hun
  rw [Unreach, hproto]
  exact ⟨hraw, hcases.imp_left fun ⟨hudp, hport, hcode⟩ =>
    ⟨hudp, portUnreach_same h hzero hport, hcode⟩⟩

/-- Another memory with the same packet, with the byte `v` in the place `i` behind the payload
pointer. -/
def poke (p : Pbuf) (i : ℕ) (v : UInt8) : Pbuf :=
  { p with
    mem := p.mem.set (p.payload + i) v
    inMem := by
      rw [List.length_set]
      exact p.inMem }

theorem peek_poke (i m : ℕ) (v : UInt8) :
    peek (Function.update outside (p.payload + i) v) (poke p i v) m = if m = i then v else peek outside p m := by
  change (p.mem.set (p.payload + i) v).getD (p.payload + m)
    (Function.update outside (p.payload + i) v (p.payload + m)) = _
  rw [List.getD_eq_getElem?_getD]
  by_cases hm : m = i
  · subst hm
    rw [if_pos rfl, Function.update_self, List.getElem?_set_self']
    cases p.mem[p.payload + m]? <;> rfl
  · rw [if_neg hm, List.getElem?_set_ne (by omega), Function.update_of_ne (by omega), peek,
      List.getD_eq_getElem?_getD]

theorem poke_same (v : UInt8) (hi : p.len ≤ i) : SamePbuf p (poke p i v) := by
  refine ⟨rfl, rfl, rfl, ?_⟩
  apply List.ext_getElem?
  intro m
  change ((((p.mem.set (p.payload + i) v).drop p.payload).take p.len)[m]?) = _
  rw [Pbuf.data, List.getElem?_take, List.getElem?_take]
  by_cases hm : m < p.len
  · rw [if_pos hm, if_pos hm, List.getElem?_drop, List.getElem?_drop,
      List.getElem?_set_ne (by omega)]
  · rw [if_neg hm, if_neg hm]

/-- The message for a packet depends on the bytes of the packet alone, and what it quotes are its
first bytes. -/
structure QuotesPacket (env : Env) (outside : ℕ → UInt8) (src dest : IpAddr) (p : Pbuf)
    (ps : List Pbuf) : Prop where
  same : ∀ outside' p' ps', List.Forall₂ SamePbuf (p :: ps) (p' :: ps') →
    unreachMessages env outside' src dest (p' :: ps') = unreachMessages env outside src dest (p :: ps)
  quoted : quoted outside p = (bytes (p :: ps)).take quotedLen

theorem quoted_eq (h : quotedLen ≤ p.len) : quoted outside p = p.data.take quotedLen := by
  apply List.ext_getElem
  · rw [quoted, List.length_map, List.length_range, List.length_take, Pbuf.data_length]
    omega
  · intro i h1 h2
    rw [List.length_take] at h2
    simp only [quoted, List.getElem_map, List.getElem_range, List.getElem_take]
    rw [peek_eq_data (by omega), List.getD_eq_getElem?_getD, List.getElem?_eq_getElem]
    rfl

theorem quotesPacket_of_len (hwf : WellFormed (p :: ps)) (htype : p.type = .ram ∨ p.type = .pool)
    (hlen : quotedLen ≤ p.len) : QuotesPacket env outside src dest p ps := by
  refine ⟨fun outside' p' ps' h => ?_, ?_⟩
  · have hp : SamePbuf p p' := (List.forall₂_cons.mp h).1
    have hpeek : ∀ i < quotedLen, peek outside' p' i = peek outside p i :=
      fun i hi => hp.peek outside outside' (by omega)
    have hwf' := wellFormed_same h hwf
    have htype' : p'.type = .ram ∨ p'.type = .pool := by rwa [hp.type]
    obtain ⟨hnil, hnone⟩ | ⟨code, hcode, hsome⟩ := unreachMessages_cases env outside src dest hwf htype
    · obtain ⟨hnil', -⟩ | ⟨code, hcode, -⟩ := unreachMessages_cases env outside' src dest hwf' htype'
      · rw [hnil, hnil']
      · have hback := List.Forall₂.flip (h.imp fun _ _ => SamePbuf.symm)
        exact absurd (unreach_same hback (hpeek 0 (by decide)).symm (hpeek 9 (by decide)).symm hcode)
          (hnone code)
    · have hcode' := unreach_same h (hpeek 0 (by decide)) (hpeek 9 (by decide)) hcode
      have hquoted : Ip.quoted outside' p' = Ip.quoted outside p := by
        apply List.map_congr_left
        intro i hi
        exact hpeek i (List.mem_range.mp hi)
      have hsrc : iphSrc outside' p' = iphSrc outside p := by
        simp only [iphSrc, peekAddr, peekWord, hpeek 12 (by decide), hpeek 13 (by decide),
          hpeek 14 (by decide), hpeek 15 (by decide)]
      rw [hcode'.messages hwf' htype', hsome, icmpDestUnreach, icmpDestUnreach, icmpSendResponse,
        icmpSendResponse, hquoted, hsrc]
  · rw [quoted_eq hlen, bytes_cons, List.take_append_of_le_length]
    rw [Pbuf.data_length]
    exact hlen

/-- Behind the header a message is what it quotes. -/
theorem drop_icmpBytes (type code : UInt8) (chksum : ℕ) (data : List UInt8) :
    (icmpBytes type code chksum data).drop 8 = data := rfl

/-- A shorter first pbuf lets a byte behind it out. -/
theorem len_of_same (hwf : WellFormed (p :: ps)) (htype : p.type = .ram ∨ p.type = .pool)
    (hsent : unreachMessages env outside src dest (p :: ps) ≠ [])
    (h : QuotesPacket env outside src dest p ps) : quotedLen ≤ p.len := by
  by_contra hshort
  obtain ⟨hnil, -⟩ | ⟨code, hcode, hsome⟩ := unreachMessages_cases env outside src dest hwf htype
  · exact hsent hnil
  have hle : p.len ≤ 27 := by
    simp only [quotedLen] at hshort
    omega
  -- the last byte that is copied is another one
  obtain ⟨v, hv⟩ : ∃ v, v ≠ peek outside p 27 := by
    by_cases hzero : peek outside p 27 = 0
    · rw [hzero]
      exact ⟨1, by decide⟩
    · exact ⟨0, Ne.symm hzero⟩
  have hsame : List.Forall₂ SamePbuf (p :: ps) (poke p 27 v :: ps) :=
    .cons (poke_same v hle) (List.forall₂_same.mpr fun _ _ => ⟨rfl, rfl, rfl, rfl⟩)
  have hpeek : ∀ m < 27, peek (Function.update outside (p.payload + 27) v) (poke p 27 v) m =
      peek outside p m := fun m hm => (peek_poke 27 m v).trans (if_neg hm.ne)
  have hcode' : Unreach env (Function.update outside (p.payload + 27) v) src dest (poke p 27 v) ps code :=
    unreach_same hsame (hpeek 0 (by decide)) (hpeek 9 (by decide)) hcode
  have heq := h.same (Function.update outside (p.payload + 27) v) _ _ hsame
  rw [hcode'.messages (wellFormed_same hsame hwf) htype, hsome] at heq
  rw [hsome] at hsent
  simp only [icmpDestUnreach, icmpSendResponse] at heq hsent
  cases halloc : env.alloc with
  | false => simp [halloc] at hsent
  | true =>
    simp only [halloc, if_true, Option.toList_some, List.cons.injEq, IcmpMsg.mk.injEq, and_true] at heq
    have hquoted := congrArg (List.drop 8) heq.2
    rw [drop_icmpBytes, drop_icmpBytes] at hquoted
    have hlast := congrArg (fun l => l[27]?) hquoted
    simp only [quoted, quotedLen, List.getElem?_map] at hlast
    rw [List.getElem?_range (by decide), Option.map_some, Option.map_some, Option.some.injEq,
      peek_poke, if_pos rfl] at hlast
    exact hv hlast

/-- For a packet that a destination unreachable message is sent for, the message depends on the
packet alone exactly when the first pbuf has the 28 bytes that are quoted. -/
theorem icmp_quotes_packet_iff (env : Env) (outside : ℕ → UInt8) (src dest : IpAddr) (p : Pbuf)
    (ps : List Pbuf) (hwf : WellFormed (p :: ps)) (htype : p.type = .ram ∨ p.type = .pool)
    (hsent : unreachMessages env outside src dest (p :: ps) ≠ []) :
    QuotesPacket env outside src dest p ps ↔ quotedLen ≤ p.len :=
  ⟨len_of_same hwf htype hsent, quotesPacket_of_len hwf htype⟩

/-- A packet for an unknown protocol, with `n` zero bytes behind its header. -/
def unknownPbuf (n : ℕ) (hn : n < 100) : Pbuf where
  addr := 0
  mem := [0x45, 0, 0, 20, 0, 0, 0, 0, 0x40, 99, 0, 0, 10, 0, 0, 2, 10, 0, 0, 1] ++ List.replicate n 0
  payload := 0
  totLen := 20 + n
  len := 20 + n
  type := .pool
  flags := 0
  ref := 1
  inMem := by
    simp only [List.length_append, List.length_replicate, List.length_cons, List.length_nil]
    omega
  lenLt := by omega
  totLt := by omega
  refLt := oneRef_lt

theorem unknownPbuf_sent (n : ℕ) (hn : n < 100) : unreachMessages quietEnv (fun _ => 0)
    0x0a000002#32 0x0a000001#32 [unknownPbuf n hn] ≠ [] := by
  have hcode : Unreach quietEnv (fun _ => 0) 0x0a000002#32 0x0a000001#32 (unknownPbuf n hn) [] 2 := by
    refine ⟨rfl, .inr ⟨?_, by decide, rfl⟩⟩
    have hproto : iphProto (fun _ => 0) (unknownPbuf n hn) = 99 := rfl
    rw [hproto]
    decide
  have hwf : WellFormed [unknownPbuf n hn] := ⟨rfl, trivial⟩
  rw [hcode.messages hwf (.inr rfl)]
  exact List.cons_ne_nil _ _

/-- Eight bytes behind the header are enough. -/
theorem icmp_quotes_packet_eight : QuotesPacket quietEnv (fun _ => 0) 0x0a000002#32 0x0a000001#32
    (unknownPbuf 8 (by decide)) [] :=
  (icmp_quotes_packet_iff quietEnv _ _ _ (unknownPbuf 8 (by decide)) [] ⟨rfl, trivial⟩ (.inr rfl)
    (unknownPbuf_sent 8 (by decide))).mpr (by decide)

/-- The message for a header without data shows eight bytes that are not of the packet. -/
theorem icmp_quotes_beyond : ¬ ∀ env outside src dest p ps, WellFormed (p :: ps) →
    (p.type = .ram ∨ p.type = .pool) → unreachMessages env outside src dest (p :: ps) ≠ [] →
    QuotesPacket env outside src dest p ps := by
  intro hall
  have hwf : WellFormed [unknownPbuf 0 (by decide)] := ⟨rfl, trivial⟩
  have hsent := unknownPbuf_sent 0 (by decide)
  have hlen := len_of_same hwf (.inr rfl) hsent (hall _ _ _ _ _ _ hwf (.inr rfl) hsent)
  exact absurd hlen (by decide)

end QuietLwip.Ip
