import QuietLwip.Foundation.Damage
import QuietLwip.Ip.Agreement
import QuietLwip.Ip.Echo
import QuietLwip.Tcp.Options

/-!
# Damaged packets

A packet is covered twice: its header by the sum that `ip_input` tests, and the rest by the sum of the
upper layer. Whatever one byte or two neighbouring bytes of it become on the way, the packet is not used.
Raw pcbs see packets in front of these tests, and the first byte decides how much of the packet is its
header.
-/

namespace QuietLwip.Ip

open Word Buffers OnesComplement

/-! ### Use and protection -/

def UdpAction.isFree : UdpAction → Bool
  | .free _ => true
  | _ => false

def IcmpAction.isFree : IcmpAction → Bool
  | .free _ => true
  | _ => false

/-- A packet between these addresses is used: something else is done with it than to show it to the raw
pcbs and to free it. -/
def Action.Uses (env : Env) (malloc : ∀ size, Option (RamBlock size)) (outside : ℕ → UInt8)
    (src dest : IpAddr) : Action → Prop
  | .udpInput c => ∃ acts, Ip.udpInput env outside src dest c = some acts ∧ ∃ a ∈ acts, a.isFree = false
  | .tcpInput c => ∃ hdrlen d, Tcp.tcpHeader env outside src dest c = some (.processed hdrlen d)
  | .icmpInput c =>
    ∃ acts, Ip.icmpInput env malloc outside src dest c = some acts ∧ ∃ a ∈ acts, a.isFree = false
  | .ipReass _ | .destUnreach _ => True
  | .rawInput _ | .free _ => False

/-- The packet that `ip_input` gets is used. -/
def Used (env : Env) (malloc : ∀ size, Option (RamBlock size)) (outside : ℕ → UInt8) (p : Pbuf)
    (ps : List Pbuf) : Prop :=
  ∃ acts, ipInput env outside (p :: ps) = some acts ∧
    ∃ a ∈ acts, a.Uses env malloc outside (iphSrc outside p) (iphDest outside p)

/-- The address in the bytes of a header -/
def headerAddr (l : List UInt8) (i : ℕ) : IpAddr :=
  BitVec.ofNat 32 (65536 * headerWord l i + headerWord l (i + 2))

/-- The sum over the pseudo header of the packet -/
def pseudoHdr (l : List UInt8) (proto : ℕ) : ℕ :=
  addrSum (headerAddr l 12) + addrSum (headerAddr l 16) + htons proto + htons (l.length - ipHlen)

/-- What is behind the header is covered by the sum of its protocol. -/
inductive Covered (l : List UInt8) : Prop
  | udp (hproto : (l.getD 9 0).toNat = 17) (hchksum : headerWord l (ipHlen + 6) ≠ 0)
      (hsum : residue (value (l.drop ipHlen) + pseudoHdr l 17) = 0xffff)
  | tcp (hproto : (l.getD 9 0).toNat = 6)
      (hsum : residue (value (l.drop ipHlen) + pseudoHdr l 6) = 0xffff)
  | icmp (hproto : (l.getD 9 0).toNat = 1) (hsum : Verifies (l.drop ipHlen))

/-- A whole packet with right sums -/
structure Protected (l : List UInt8) : Prop where
  header : WellHeaded l
  whole : headerWord l 6 % 0x4000 = 0
  covered : Covered l

/-! ### The upper layers -/

variable {env : Env} {malloc : ∀ size, Option (RamBlock size)} {outside : ℕ → UInt8} {src dest : IpAddr}
  {p : Pbuf} {ps : List Pbuf} {l l' padding : List UInt8}

/-- A datagram with a checksum that is wrong is freed. -/
theorem udpInput_bad (hwf : WellFormed (p :: ps))
    (hchksum : iphdrHlen outside p + 8 ≤ p.len → peekWord outside p (iphdrHlen outside p + 6) ≠ 0)
    (hsum : residue (value ((bytes (p :: ps)).drop (iphdrHlen outside p)) + (addrSum src + addrSum dest +
      htons 17 + htons (p.totLen - iphdrHlen outside p))) ≠ 0xffff)
    {acts : List UdpAction} (h : udpInput env outside src dest (p :: ps) = some acts) :
    ∀ a ∈ acts, a.isFree = true := by
  have hle : p.len ≤ p.totLen := by
    rw [hwf.1]
    omega
  rw [udpInput] at h
  dsimp only at h
  by_cases hshort : p.totLen < iphdrHlen outside p + 8
  · rw [if_pos hshort] at h
    cases h
    simp [UdpAction.isFree]
  rw [if_neg hshort] at h
  by_cases hfirst : iphdrHlen outside p ≤ p.len
  case neg =>
    rw [pbufHeader_short (by omega)] at h
    cases h
  obtain ⟨q, hq, hidden⟩ := pbufHeader_hidden ps hfirst hle
  obtain ⟨-, hqwf, hqbytes⟩ := pbufHeader_hide hwf hq
  have htot : q.totLen = p.totLen - iphdrHlen outside p := by
    have := hidden.totLen
    omega
  have hbad : inetChksumPseudo env.odd (q :: ps) src dest 17 q.totLen ≠ 0 := by
    have hres := residue_le (value ((bytes (p :: ps)).drop (iphdrHlen outside p)) + (addrSum src +
      addrSum dest + htons 17 + htons (p.totLen - iphdrHlen outside p)))
    rw [inetChksumPseudo_eq (q :: ps) (by decide) q.totLt, hqbytes, htot]
    omega
  rw [hq, Option.bind_some] at h
  dsimp only at h
  rw [hidden.peekWord 6] at h
  cases hdemux : env.udp.demux _ with
  | none =>
    rw [hdemux] at h
    cases h
  | some found =>
    rw [hdemux, Option.bind_some] at h
    split at h
    · by_cases hport : 8 ≤ q.len
      · have hqlen := hidden.len
        rw [if_pos ⟨hchksum (by omega), hbad⟩] at h
        cases h
        simp [UdpAction.isFree]
      · have hnone : pbufHeader (q :: ps) (-8) = none := pbufHeader_short (k := 8) (by omega)
        rw [hnone] at h
        split at h
        · cases h
          simp [UdpAction.isFree]
        · cases h
    · cases h
      simp [UdpAction.isFree]

/-- A segment with a checksum that is wrong is dropped. -/
theorem tcpHeader_bad (hwf : WellFormed (p :: ps))
    (hsum : residue (value ((bytes (p :: ps)).drop (iphdrHlen outside p)) + (addrSum src + addrSum dest +
      htons 6 + htons (p.totLen - iphdrHlen outside p))) ≠ 0xffff) (hdrlen : ℕ) (d : List Pbuf) :
    Tcp.tcpHeader env outside src dest (p :: ps) ≠ some (.processed hdrlen d) := by
  intro h
  have hle : p.len ≤ p.totLen := by
    rw [hwf.1]
    omega
  rw [Tcp.tcpHeader] at h
  by_cases hfirst : iphdrHlen outside p ≤ p.len
  case neg =>
    rw [pbufHeader_short (by omega)] at h
    cases h
  obtain ⟨q, hq, hidden⟩ := pbufHeader_hidden ps hfirst hle
  obtain ⟨-, -, hqbytes⟩ := pbufHeader_hide hwf hq
  have htot : q.totLen = p.totLen - iphdrHlen outside p := by
    have := hidden.totLen
    omega
  have hbad : inetChksumPseudo env.odd (q :: ps) src dest 6 q.totLen ≠ 0 := by
    have hres := residue_le (value ((bytes (p :: ps)).drop (iphdrHlen outside p)) + (addrSum src +
      addrSum dest + htons 6 + htons (p.totLen - iphdrHlen outside p)))
    rw [inetChksumPseudo_eq (q :: ps) (by decide) q.totLt, hqbytes, htot]
    omega
  rw [hq, Option.bind_some] at h
  dsimp only at h
  rw [if_pos hbad] at h
  split at h
  · cases h
  · split at h <;> cases h

/-- A message with a checksum that is wrong is freed. -/
theorem icmpInput_bad (hwf : WellFormed (p :: ps))
    (hsum : ¬ Verifies ((bytes (p :: ps)).drop (iphdrHlen outside p))) {acts : List IcmpAction}
    (h : icmpInput env malloc outside src dest (p :: ps) = some acts) : ∀ a ∈ acts, a.isFree = true := by
  have hle : p.len ≤ p.totLen := by
    rw [hwf.1]
    omega
  rw [icmpInput] at h
  dsimp only at h
  by_cases hfirst : iphdrHlen outside p ≤ p.len
  case neg =>
    rw [pbufHeader_short (by omega)] at h
    cases h
  obtain ⟨q, hq, -⟩ := pbufHeader_hidden ps hfirst hle
  obtain ⟨-, -, hqbytes⟩ := pbufHeader_hide hwf hq
  have hbad : inetChksumPbuf env.odd (q :: ps) ≠ 0 := by
    rw [ne_eq, inetChksumPbuf_eq_zero, hqbytes]
    exact hsum
  rw [hq, Option.bind_some] at h
  dsimp only at h
  rw [if_pos hbad] at h
  have hfree : acts = [.free (q :: ps)] := by
    split at h
    · exact (Option.some.inj h).symm
    · split at h
      · split at h
        · exact (Option.some.inj h).symm
        · split at h <;> exact (Option.some.inj h).symm
      · exact (Option.some.inj h).symm
  rw [hfree]
  simp [IcmpAction.isFree]

/-! ### `ip_input` -/

/-- A pbuf too short for the header is freed, if the first byte is that of a header of 20 bytes. -/
theorem ipInput_short (hfirst : (bytes (p :: ps)).getD 0 0 = 0x45) (hshort : p.len < ipHlen) :
    ipInput env outside (p :: ps) = some [.free (p :: ps)] := by
  rw [ipInput]
  by_cases hversion : iphV outside p = 4
  case neg => exact if_pos hversion
  rw [if_neg (not_not_intro hversion)]
  by_cases hlens : iphdrHlen outside p > p.len ∨ iphdrLen outside p > p.totLen
  case pos => exact if_pos hlens
  rw [if_neg hlens]
  -- the pbuf is empty, and what is behind it says that there is no header
  have hzero : iphdrHlen outside p = 0 := by
    by_contra hpos
    have hbyte : peek outside p 0 = 0x45 := by
      rw [peek_eq_bytes outside ps (by omega), hfirst]
    have hlong : iphdrHlen outside p = ipHlen := by
      rw [iphdrHlen, hbyte]
      rfl
    omega
  have hnil : iphBytes outside p = [] := by
    rw [iphBytes, hzero]
    rfl
  have hsum : inetChksum (env.odd p) (iphBytes outside p) ≠ 0 := by
    rw [hnil, inetChksum_eq (by decide)]
    decide
  exact if_pos hsum

/-- A header whose sum is wrong is freed with its packet. -/
theorem ipInput_bad (hfirst : l.getD 0 0 = 0x45) (hlen : ipHlen ≤ l.length)
    (hbytes : bytes (p :: ps) = l ++ padding) (hsum : ¬ Verifies (l.take ipHlen)) :
    ipInput env outside (p :: ps) = some [.free (p :: ps)] := by
  have hpos : 0 < ipHlen := by decide
  by_cases hroom : ipHlen ≤ p.len
  case neg =>
    refine ipInput_short ?_ (not_le.mp hroom)
    rw [hbytes, List.getD_append _ _ _ _ (hpos.trans_le hlen), hfirst]
  have htake := data_take_header hroom hlen hbytes
  have hbyte : peek outside p 0 = 0x45 := by
    rw [peek_eq_data (hpos.trans_le hroom), ← getD_take hpos, htake, getD_take hpos, hfirst]
  have hversion : iphV outside p = 4 := by
    rw [iphV, hbyte]
    rfl
  have hhlen : iphdrHlen outside p = ipHlen := by
    rw [iphdrHlen, hbyte]
    rfl
  have hbad : inetChksum (env.odd p) (iphBytes outside p) ≠ 0 := by
    rw [ne_eq, chksum_iff, iphBytes_eq (hhlen.le.trans hroom), hhlen, htake]
    exact hsum
  rw [ipInput, if_neg (not_not_intro hversion)]
  by_cases hlens : iphdrHlen outside p > p.len ∨ iphdrLen outside p > p.totLen
  · exact if_pos hlens
  · rw [if_neg hlens]
    exact if_pos hbad

/-- A whole packet with a right header goes to the upper layers in pbufs of its length, or is freed. -/
theorem ipInput_whole (env : Env) (outside : ℕ → UInt8) (h : WellHeaded l) (hwhole : headerWord l 6 % 0x4000 = 0)
    (hwf : WellFormed (p :: ps)) (href : Referenced (p :: ps)) (hbytes : bytes (p :: ps) = l ++ padding) :
    (∃ c, ipInput env outside (p :: ps) = some [.free c]) ∨
      ∃ q qs, ipInput env outside (p :: ps) = some (ipDeliver env outside (iphDest outside p) (q :: qs)) ∧
        WellFormed (q :: qs) ∧ bytes (q :: qs) = l ∧ ipHlen ≤ q.len ∧ q.len = min p.len l.length ∧
        iphSrc outside p = headerAddr l 12 ∧ iphDest outside p = headerAddr l 16 := by
  by_cases hroom : ipHlen ≤ p.len
  case neg =>
    refine .inl ⟨_, ipInput_short ?_ (not_le.mp hroom)⟩
    rw [hbytes, List.getD_append _ _ _ _ (lt_of_lt_of_le (by decide) h.length), h.first]
  by_cases hpass : Passes env outside p
  case neg => exact .inl (ipInput_dropped hwf href hpass)
  obtain ⟨-, hhlen, hlen, -⟩ := h.read outside hroom hbytes
  have htot : totLen (p :: ps) = l.length + padding.length := by
    rw [← hwf.bytes_length, hbytes, List.length_append]
  obtain ⟨c, r, hrealloc, hcwf, hctot, hcbytes⟩ :=
    pbufRealloc_spec (List.cons_ne_nil p ps) hwf href (iphdrLen outside p)
  obtain ⟨q, qs, rfl, hqlen, -, -⟩ := pbufRealloc_head hwf hrealloc
  rw [min_eq_left (by omega), hbytes, hlen, List.take_left] at hcbytes
  have hword : ∀ i, i + 1 < ipHlen → peekWord outside p i = headerWord l i := by
    intro i hi
    rw [peekWord_eq_headerWord (hi.trans_le hroom), ← headerWord_take hi,
      data_take_header hroom h.length hbytes, headerWord_take hi]
  have haddr : ∀ i, i + 3 < ipHlen → peekAddr outside p i = headerAddr l i := by
    intro i hi
    rw [peekAddr, headerAddr, hword i (by omega), hword (i + 2) (by omega)]
  rw [hlen] at hqlen
  refine .inr ⟨q, qs, ?_, hcwf, hcbytes, ?_, hqlen, haddr 12 (by decide), haddr 16 (by decide)⟩
  · have hlens : ¬ (iphdrHlen outside p > p.len ∨ iphdrLen outside p > p.totLen) :=
      not_or.mpr ⟨hpass.first.not_gt, hpass.received.not_gt⟩
    have hfragment : iphFragment outside p = false := by
      rw [iphFragment, hword 6 (by decide), hwhole]
      rfl
    rw [ipInput, if_neg (not_not_intro hpass.version), if_neg hlens,
      if_neg (not_not_intro ((chksum_iff env outside p).mpr hpass.chksum)), hrealloc]
    simp only [Option.map_some, hpass.src, Bool.false_eq_true, if_false, if_neg hpass.dest, hfragment]
  · have := h.length
    rw [hqlen]
    omega

/-! ### Nothing is used -/

theorem Protected.undamaged_header (h : Protected l) (hd : l'.take ipHlen = l.take ipHlen)
    (hlen : l'.length = l.length) : WellHeaded l' ∧ (∀ i, i + 1 < ipHlen → headerWord l' i = headerWord l i) ∧
      l'.getD 9 0 = l.getD 9 0 := by
  have hword : ∀ i, i + 1 < ipHlen → headerWord l' i = headerWord l i := by
    intro i hi
    rw [← headerWord_take hi, hd, headerWord_take hi]
  have hbyte : ∀ i < ipHlen, l'.getD i 0 = l.getD i 0 := by
    intro i hi
    rw [← getD_take hi, hd, getD_take hi]
  refine ⟨⟨?_, ?_, ?_, ?_⟩, hword, hbyte 9 (by decide)⟩
  · rw [hbyte 0 (by decide), h.header.first]
  · rw [hlen]
    exact h.header.length
  · rw [hword 2 (by decide), h.header.total, hlen]
  · rw [hd]
    exact h.header.chksum

/-- A packet whose sum over what is behind the header is wrong is not used by the upper layer. -/
theorem ipDeliver_bad (h : Protected l) (hd : Damaged (l.drop ipHlen) (l'.drop ipHlen))
    (hhead : WellHeaded l') (hproto : l'.getD 9 0 = l.getD 9 0)
    (hlen : l'.length = l.length) (hudp : (l.getD 9 0).toNat = 17 → headerWord l' (ipHlen + 6) ≠ 0)
    (hwf : WellFormed (p :: ps)) (hbytes : bytes (p :: ps) = l') (hroom : ipHlen ≤ p.len) :
    ∀ a ∈ ipDeliver env outside (headerAddr l 16) (p :: ps),
      ¬ a.Uses env malloc outside (headerAddr l 12) (headerAddr l 16) := by
  obtain ⟨-, hhlen, -, -⟩ := hhead.read outside hroom (show bytes (p :: ps) = l' ++ [] by rw [hbytes, List.append_nil])
  have htot : p.totLen = l'.length := by
    rw [← hbytes, hwf.bytes_length]
    rfl
  have hiph : iphProto outside p = (l.getD 9 0).toNat := by
    rw [iphProto, peek_eq_bytes outside ps (lt_of_lt_of_le (by decide) hroom), hbytes, hproto]
  have hword : iphdrHlen outside p + 8 ≤ p.len →
      peekWord outside p (iphdrHlen outside p + 6) = headerWord l' (ipHlen + 6) := by
    intro hin
    rw [peekWord, headerWord, peek_eq_bytes outside ps (by omega), peek_eq_bytes outside ps (by omega), hbytes,
      hhlen]
  have hbad : ∀ proto, residue (value (l.drop ipHlen) + pseudoHdr l proto) = 0xffff →
      residue (value ((bytes (p :: ps)).drop (iphdrHlen outside p)) + (addrSum (headerAddr l 12) +
        addrSum (headerAddr l 16) + htons proto + htons (p.totLen - iphdrHlen outside p))) ≠ 0xffff := by
    intro proto hsum
    rw [hbytes, hhlen, htot, hlen]
    exact hd.residue_ne _ hsum
  rw [ipDeliver, hiph]
  split
  · simp [Action.Uses]
  rcases h.covered with ⟨hp, -, hsum⟩ | ⟨hp, hsum⟩ | ⟨hp, hsum⟩
  · rw [if_pos hp]
    simp only [List.mem_cons, List.not_mem_nil, or_false, forall_eq_or_imp, forall_eq]
    refine ⟨id, ?_⟩
    rintro ⟨acts, hacts, a, ha, hused⟩
    have hfree := udpInput_bad hwf (fun hin => hword hin ▸ hudp hp) (hbad 17 hsum) hacts a ha
    exact Bool.false_ne_true (hused.symm.trans hfree)
  · rw [if_neg (by omega), if_pos hp]
    simp only [List.mem_cons, List.not_mem_nil, or_false, forall_eq_or_imp, forall_eq]
    refine ⟨id, ?_⟩
    rintro ⟨hdrlen, d, hprocessed⟩
    exact tcpHeader_bad hwf (hbad 6 hsum) hdrlen d hprocessed
  · rw [if_neg (by omega), if_neg (by omega), if_pos hp]
    simp only [List.mem_cons, List.not_mem_nil, or_false, forall_eq_or_imp, forall_eq]
    refine ⟨id, ?_⟩
    rintro ⟨acts, hacts, a, ha, hused⟩
    have hfree := icmpInput_bad hwf (by rw [hbytes, hhlen]; exact hd.not_verifies hsum) hacts a ha
    exact Bool.false_ne_true (hused.symm.trans hfree)

/-- A damaged packet is not used, in whatever pbufs it arrives: it is neither given to a pcb nor answered. -/
theorem damaged_unused (env : Env) (malloc : ∀ size, Option (RamBlock size)) (outside : ℕ → UInt8)
    (h : Protected l) (hd : Damaged l l') (hfirst : l'.getD 0 0 = l.getD 0 0)
    (hudp : (l.getD 9 0).toNat = 17 → headerWord l' (ipHlen + 6) ≠ 0) (hwf : WellFormed (p :: ps))
    (href : Referenced (p :: ps)) (hbytes : bytes (p :: ps) = l' ++ padding) :
    ¬ Used env malloc outside p ps := by
  have hfreed : ∀ c, ipInput env outside (p :: ps) = some [.free c] → ¬ Used env malloc outside p ps := by
    rintro c hfree ⟨acts, hacts, a, ha, huses⟩
    cases hfree.symm.trans hacts
    rw [List.mem_singleton.mp ha] at huses
    exact huses
  rcases hd.split ipHlen with hheader | ⟨htake, hrest⟩
  · refine hfreed _ (ipInput_bad (hfirst.trans h.header.first) ?_ hbytes (hheader.not_verifies h.header.chksum))
    rw [hd.length]
    exact h.header.length
  · obtain ⟨hhead, hword, hproto⟩ := h.undamaged_header htake hd.length
    have haddr : ∀ i, i + 3 < ipHlen → headerAddr l' i = headerAddr l i := by
      intro i hi
      rw [headerAddr, headerAddr, hword i (by omega), hword (i + 2) (by omega)]
    have hwhole : headerWord l' 6 % 0x4000 = 0 := by
      rw [hword 6 (by decide)]
      exact h.whole
    obtain ⟨c, hfree⟩ | ⟨q, qs, hdeliver, hqwf, hqbytes, hroom, -, hsrc, hdest⟩ :=
      ipInput_whole env outside hhead hwhole hwf href hbytes
    · exact hfreed c hfree
    · rintro ⟨acts, hacts, a, ha, huses⟩
      cases hdeliver.symm.trans hacts
      rw [hsrc, hdest, haddr 12 (by decide), haddr 16 (by decide)] at huses
      rw [hdest, haddr 16 (by decide)] at ha
      exact ipDeliver_bad h hrest hhead hproto hd.length hudp hqwf hqbytes hroom a ha huses

/-- The request of an echo with the bytes of its sequence number exchanged -/
def damagedPing : List UInt8 := ping.take 26 ++ [1, 0]

theorem damagedPing_lt : damagedPing.length < 2 ^ 16 := by decide

/-- The request is answered, and the damaged one is not. -/
theorem damaged_unused_ping :
    Used quietEnv (fun _ => none) (fun _ => 0) (pingPbuf ping ping_lt) [] ∧
      ¬ Used quietEnv (fun _ => none) (fun _ => 0) (pingPbuf damagedPing damagedPing_lt) [] := by
  constructor
  · have hinput : ipInput quietEnv (fun _ => 0) [pingPbuf ping ping_lt] =
        some [.rawInput [pingPbuf ping ping_lt], .icmpInput [pingPbuf ping ping_lt]] := by decide
    have hanswer : (icmpInput quietEnv (fun _ => none) (fun _ => 0) (iphSrc (fun _ => 0) (pingPbuf ping ping_lt))
        (iphDest (fun _ => 0) (pingPbuf ping ping_lt)) [pingPbuf ping ping_lt]).any
          (fun acts => acts.any fun a => !a.isFree) = true := by decide
    obtain ⟨acts, hacts, hany⟩ := (Option.any_eq_true _ _).mp hanswer
    obtain ⟨a, ha, hused⟩ := List.any_eq_true.mp hany
    exact ⟨_, hinput, .icmpInput [pingPbuf ping ping_lt], by simp, acts, hacts, a, ha, by simpa using hused⟩
  · have hprotected : Protected ping :=
      ⟨⟨by decide, by decide, by decide, ⟨by decide, by decide⟩⟩, by decide,
        .icmp (by decide) ⟨by decide, by decide⟩⟩
    have hdamaged : Damaged ping damagedPing :=
      ⟨ping.take 26, [0, 1], [1, 0], [], by decide, by decide, rfl, le_rfl, by decide, by decide, by decide⟩
    have href : Referenced [pingPbuf damagedPing damagedPing_lt] := by
      intro p hp
      rw [List.mem_singleton.mp hp]
      exact Nat.one_pos
    exact damaged_unused quietEnv _ _ hprotected hdamaged rfl (by decide) ⟨rfl, trivial⟩ href
      (show bytes [pingPbuf damagedPing damagedPing_lt] = damagedPing ++ [] by decide)

end QuietLwip.Ip
