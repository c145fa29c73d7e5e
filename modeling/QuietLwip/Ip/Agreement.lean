import QuietLwip.Ip.Frag

/-!
# The header on both sides

`ip_output_if` and `ip_frag` write headers, and `ip_input` tests them. Every packet that is sent has a
header of 20 bytes in its first pbuf, with the length of the packet and a checksum that verifies; and a
packet with such a header passes the tests, in whatever pbufs it arrives.
-/

namespace QuietLwip.Ip

open Word Buffers OnesComplement

/-- The bytes are a packet with a header of 20 bytes. -/
structure WellHeaded (l : List UInt8) : Prop where
  first : l.getD 0 0 = 0x45
  length : ipHlen ≤ l.length
  total : headerWord l 2 = l.length
  chksum : Verifies (l.take ipHlen)

/-- A packet as it is handed to `netif->output`. -/
structure Emitted (c : List Pbuf) : Prop where
  wellFormed : WellFormed c
  first : ∃ p ps, c = p :: ps ∧ ipHlen ≤ p.len
  header : WellHeaded (bytes c)

/-- What is sent of a packet in the end. -/
def Sent.packets (memory : FragMemory) (odd : Pbuf → Bool) (mtu : ℕ) : Sent → List (List Pbuf)
  | .output c => [c]
  | .frag c => (ipFrag memory odd mtu c).sent

/-- The first tests of `ip_input`. -/
structure Tested (env : Env) (outside : ℕ → UInt8) (p : Pbuf) : Prop where
  version : iphV outside p = 4
  first : iphdrHlen outside p ≤ p.len
  received : iphdrLen outside p ≤ p.totLen
  chksum : inetChksum (env.odd p) (iphBytes outside p) = 0

/-- The tests of the addresses that follow. -/
structure Addressed (env : Env) (outside : ℕ → UInt8) (p : Pbuf) : Prop where
  src : ((iphSrc outside p).isBroadcast env.inp || (iphSrc outside p).isMulticast) = false
  dest : env.matchNetif (iphDest outside p) ≠ none

/-- The packet with the bytes `l` arrives in the pbufs `p :: ps`, with `padding` behind it: it passes the
tests, its total length is what the pbufs have without the padding, and what is left of them without it
goes to `ip_reass` or to the upper layers if the addresses are right. -/
structure Arrives (env : Env) (outside : ℕ → UInt8) (p : Pbuf) (ps : List Pbuf) (l padding : List UInt8) :
    Prop where
  tested : Tested env outside p
  hlen : iphdrHlen outside p = ipHlen
  length : iphdrLen outside p = l.length
  received : totLen (p :: ps) = iphdrLen outside p + padding.length
  passed : ∃ c r, pbufRealloc (p :: ps) (iphdrLen outside p) = some (c, r) ∧
    totLen c = iphdrLen outside p ∧ bytes c = l ∧
    (Addressed env outside p → ∃ acts, ipInput env outside (p :: ps) = some acts ∧
      (acts.head? = some (.ipReass c) ∨ acts.head? = some (.rawInput c)))

/-! ### Receiving -/

variable {env : Env} {outside : ℕ → UInt8} {p r : Pbuf} {c ps rs : List Pbuf} {l padding : List UInt8}
  {res : FreeResult} {i : ℕ}

theorem getD_take {n : ℕ} (h : i < n) (l : List UInt8) : (l.take n).getD i 0 = l.getD i 0 := by
  rw [List.getD_eq_getElem?_getD, List.getElem?_take_of_lt h, ← List.getD_eq_getElem?_getD]

theorem peekWord_eq_headerWord (h : i + 1 < p.len) : peekWord outside p i = headerWord p.data i := by
  rw [peekWord, headerWord, peek_eq_data (Nat.lt_of_succ_lt h), peek_eq_data h]

/-- The header in the first pbuf is that of the packet. -/
theorem data_take_header (hroom : ipHlen ≤ p.len) (hlen : ipHlen ≤ l.length)
    (hbytes : bytes (p :: ps) = l ++ padding) : p.data.take ipHlen = l.take ipHlen := by
  have hdata : ipHlen ≤ p.data.length := by
    rw [Pbuf.data_length]
    exact hroom
  have htake := congrArg (List.take ipHlen) hbytes
  rwa [bytes_cons, List.take_append_of_le_length hdata, List.take_append_of_le_length hlen] at htake

/-- What `ip_input` reads of the header. -/
theorem WellHeaded.read (h : WellHeaded l) (outside : ℕ → UInt8) (hroom : ipHlen ≤ p.len)
    (hbytes : bytes (p :: ps) = l ++ padding) :
    iphV outside p = 4 ∧ iphdrHlen outside p = ipHlen ∧ iphdrLen outside p = l.length ∧
      iphBytes outside p = l.take ipHlen := by
  have htake := data_take_header hroom h.length hbytes
  have hfirst : peek outside p 0 = 0x45 := by
    have hpos : 0 < ipHlen := by decide
    rw [peek_eq_data (hpos.trans_le hroom), ← getD_take hpos, htake, getD_take hpos]
    exact h.first
  have hhlen : iphdrHlen outside p = ipHlen := by
    rw [iphdrHlen, hfirst]
    rfl
  refine ⟨?_, hhlen, ?_, ?_⟩
  · rw [iphV, hfirst]
    rfl
  · have hword : headerWord (p.data.take ipHlen) 2 = headerWord (l.take ipHlen) 2 := by rw [htake]
    rw [headerWord_take (by decide), headerWord_take (by decide)] at hword
    rw [iphdrLen, peekWord_eq_headerWord (lt_of_lt_of_le (by decide) hroom), hword, h.total]
  · rw [iphBytes_eq (hhlen.le.trans hroom), hhlen, htake]

/-- Past the tests, the packet is trimmed and handed on. -/
theorem ipInput_tested (h : Tested env outside p) (haddr : Addressed env outside p)
    (hrealloc : pbufRealloc (p :: ps) (iphdrLen outside p) = some (r :: rs, res)) :
    ∃ acts, ipInput env outside (p :: ps) = some acts ∧
      (acts.head? = some (.ipReass (r :: rs)) ∨ acts.head? = some (.rawInput (r :: rs))) := by
  have hlens : ¬(iphdrHlen outside p > p.len ∨ iphdrLen outside p > p.totLen) :=
    not_or.mpr ⟨h.first.not_gt, h.received.not_gt⟩
  rw [ipInput, if_neg (not_not_intro h.version), if_neg hlens, if_neg (not_not_intro h.chksum), hrealloc]
  simp only [Option.map_some, haddr.src, Bool.false_eq_true, if_false, if_neg haddr.dest]
  split
  · exact ⟨_, rfl, .inl rfl⟩
  · exact ⟨_, rfl, .inr (ipDeliver_chain env outside _ r rs).1⟩

theorem WellHeaded.arrives (h : WellHeaded l) (env : Env) (outside : ℕ → UInt8)
    (hwf : WellFormed (p :: ps)) (href : Referenced (p :: ps)) (hroom : ipHlen ≤ p.len)
    (hbytes : bytes (p :: ps) = l ++ padding) : Arrives env outside p ps l padding := by
  obtain ⟨hversion, hhlen, hlen, hhdr⟩ := h.read outside hroom hbytes
  have htot : totLen (p :: ps) = l.length + padding.length := by
    rw [← hwf.bytes_length, hbytes, List.length_append]
  have hle : iphdrLen outside p ≤ totLen (p :: ps) := by
    rw [hlen, htot]
    exact Nat.le_add_right _ _
  have htested : Tested env outside p := by
    refine ⟨hversion, hhlen.le.trans hroom, hle, (chksum_iff env outside p).mpr ?_⟩
    rw [hhdr]
    exact h.chksum
  obtain ⟨c, res, hrealloc, -, hctot, hcbytes⟩ :=
    pbufRealloc_spec (List.cons_ne_nil p ps) hwf href (iphdrLen outside p)
  obtain ⟨r, rs, rfl, -⟩ := pbufRealloc_head hwf hrealloc
  rw [min_eq_left hle] at hctot hcbytes
  rw [hbytes, hlen, List.take_left] at hcbytes
  refine ⟨htested, hhlen, hlen, ?_, r :: rs, res, hrealloc, hctot, hcbytes, fun haddr => ?_⟩
  · rw [htot, hlen]
  · exact ipInput_tested htested haddr hrealloc

/-! ### Sending -/

variable {netif : Netif} {k : Packet} {sent : Sent} {id : ℕ}

theorem ipHdr_total (k : Packet) (netif : Netif) {x : ℕ} (hx : x < 65536) (id n : ℕ) (back : List UInt8) :
    headerWord (k.ipHdr netif x id n ++ back) 2 = x := by
  have hword := headerWord_netWord [0x45, k.tos] (netWord id ++ ([0, 0, k.ttl, k.proto] ++ (memWord n ++
    (addrBytes (k.hdrSrc netif) ++ addrBytes k.dest))) ++ back) hx
  have hfront : [0x45, k.tos].length = 2 := rfl
  rw [hfront] at hword
  simpa only [Packet.ipHdr, List.append_assoc] using hword

/-- What `ip_output_if` hands on. -/
theorem ipOutputIf_emitted (hwf : WellFormed k.chain) (hfits : totLen k.chain + ipHlen < 2 ^ 16)
    (h : ipOutputIf netif id k = some (.ok sent)) : Emitted sent.chain := by
  obtain ⟨hswf, htot, hfirst, hbytes⟩ := ipOutputIf_bytes hwf hfits h
  have hlen : (bytes sent.chain).length = totLen k.chain + 20 := hswf.bytes_length.trans htot
  refine ⟨hswf, hfirst, ?_, ?_, ?_, ?_⟩
  · rw [hbytes]
    rfl
  · rw [hlen]
    exact Nat.le_add_left _ _
  · rw [hlen, hbytes]
    exact ipHdr_total k netif hfits id _ _
  · have hhdr : (k.ipHdr netif (totLen k.chain + 20) id
        (k.chksumInline netif (totLen k.chain + 20) id)).length = ipHlen := rfl
    rw [hbytes, List.take_left' hhdr]
    exact k.ipHdr_verifies netif _ id

/-! ### Fragments -/

variable {memory : FragMemory} {odd : Pbuf → Bool} {ref : ℕ → Option ℕ} {d : List Pbuf} {m : Mirrored}
  {hdr : List UInt8} {left j cop tmp poff : ℕ} {packet : List Pbuf}

/-- Where the loop over the pbufs succeeds, it has added `left` bytes behind the header. -/
theorem mirrorLoop_grows (h : mirrorLoop ref d left i (r :: rs) = some (.ok m))
    (hwf : WellFormed (r :: rs)) (hsum : totLen (r :: rs) + left < 2 ^ 16) :
    ∃ r' rs', m.rambuf = r' :: rs' ∧ r'.len = r.len ∧ WellFormed (r' :: rs') ∧
      totLen (r' :: rs') = totLen (r :: rs) + left := by
  induction d generalizing left i r rs with
  | nil => cases h
  | cons p ps ih =>
    rw [mirrorLoop] at h
    split at h
    · exact ih h hwf hsum
    · split at h
      · cases h
      · next addr _ =>
        have htot := mirror_totLen p addr (min_le_right left p.len)
        obtain ⟨c, hc, hcwf, hctot, -⟩ := pbufCat_spec (List.cons_ne_nil r rs)
          (List.cons_ne_nil (mirror p (min left p.len) addr) []) hwf (mirror_wellFormed p _ addr) (by omega)
        obtain ⟨r', rs', rfl, hhead⟩ := pbufCat_head hc
        rw [hc, Option.bind_some] at h
        split at h
        · cases h
          exact ⟨r', rs', rfl, hhead, hcwf, by omega⟩
        · obtain ⟨r'', rs'', hm, hhead', hwf', htot'⟩ := ih h hcwf (by omega)
          exact ⟨r'', rs'', hm, hhead'.trans hhead, hwf', by omega⟩

/-- The header of a fragment keeps its version and verifies. -/
theorem fragHeader_verifies (hhdr : hdr.length = ipHlen) (len tmp : ℕ) (odd : Bool) :
    Verifies (fragHeader hdr len tmp (inetChksum odd (fragHeader hdr len tmp 0))) := by
  rw [ipHlen] at hhdr
  exact verifies_inetChksum odd ((hdr.drop 12).take 8) (by simp [hhdr]) (by simp [hhdr])

/-- The header is corrected in front of the data. -/
theorem fragment_emitted (hhdr : hdr.length = ipHlen) (hversion : hdr.getD 0 0 = 0x45)
    (hwf : WellFormed (p :: ps)) (hlen : p.len = ipHlen) (htot : totLen (p :: ps) = cop + ipHlen)
    {b : Bool} (h : writeHead (fragHeader hdr (cop + ipHlen) tmp
      (inetChksum b (fragHeader hdr (cop + ipHlen) tmp 0))) (p :: ps) = some c) : Emitted c := by
  have hheader := fragHeader_length hhdr (cop + ipHlen) tmp
    (inetChksum b (fragHeader hdr (cop + ipHlen) tmp 0))
  have hlt := totLen_lt (p :: ps)
  obtain ⟨r, rfl, -, -, hrlen, -⟩ := writeHead_eq h
  obtain ⟨hrwf, hrtot, hbytes⟩ := writeHead_spec hwf h
  have hlength : (bytes (r :: ps)).length = cop + ipHlen := by rw [hrwf.bytes_length, hrtot, htot]
  refine ⟨hrwf, ⟨r, ps, rfl, (hrlen.trans hlen).ge⟩, ?_, ?_, ?_, ?_⟩
  · have hfirst : 0 < (hdr.take 2).length := by
      rw [List.length_take, hhdr]
      decide
    rw [hbytes, fragHeader]
    simp only [List.append_assoc]
    rw [List.getD_eq_getElem?_getD, List.getElem?_append_left hfirst, ← List.getD_eq_getElem?_getD,
      getD_take (by decide)]
    exact hversion
  · rw [hlength]
    exact Nat.le_add_left _ _
  · rw [hlength, hbytes]
    exact fragHeader_len hhdr (by omega) tmp _ _
  · rw [hbytes, List.take_left' hheader]
    exact fragHeader_verifies hhdr _ tmp b

theorem fragTurn_emitted (hhdr : hdr.length = ipHlen) (hversion : hdr.getD 0 0 = 0x45)
    (hsum : ipHlen + cop < 2 ^ 16)
    (h : fragTurn memory odd hdr j cop tmp poff d = some (.ok (packet, m))) : Emitted packet := by
  cases d with
  | nil => cases h
  | cons p ps =>
    rw [fragTurn] at h
    split at h
    · cases h
    · next ram hram =>
      split at h
      · cases h
      · obtain ⟨c, hc, h⟩ := Option.bind_eq_some_iff.mp h
        obtain ⟨t, ht, h⟩ := Option.bind_eq_some_iff.mp h
        cases t with
        | error e => cases h
        | ok m' =>
          obtain ⟨packet', hpacket, hsent⟩ := Option.map_eq_some_iff.mp h
          cases hsent
          obtain ⟨block, -, rfl⟩ := Option.map_eq_some_iff.mp hram
          have hram : WellFormed [ramPbuf .link ipHlen ipHlen_lt block] := ⟨rfl, trivial⟩
          obtain ⟨r, rfl, -, hrtot, hrlen, -⟩ := writeHead_eq hc
          obtain ⟨hrwf, -, -⟩ := writeHead_spec hram hc
          have hrtot' : totLen [r] = ipHlen := hrtot
          obtain ⟨r', rs', hm, hhead, hwf, htot⟩ := mirrorLoop_grows ht hrwf (by omega)
          rw [hm] at hpacket
          exact fragment_emitted hhdr hversion hwf (hhead.trans hrlen) (by omega) hpacket

theorem cop_le (env : FragEnv) (left : ℕ) : env.cop left ≤ left := by
  have hle := nfb_le env
  rw [FragEnv.cop, FragEnv.last]
  split
  · exact le_refl left
  · next hlast =>
    rw [decide_eq_true_eq] at hlast
    omega

/-- Every packet the loop has sent, also where it stops early. -/
theorem fragLoop_emitted {env : FragEnv} (hhdr : env.hdr.length = ipHlen)
    (hversion : env.hdr.getD 0 0 = 0x45) {turns ofo : ℕ} (hsum : ipHlen + left < 2 ^ 16) :
    ∀ f ∈ (fragLoop env turns j c left ofo poff).sent, Emitted f := by
  have hnone : ∀ f ∈ ([] : List (List Pbuf)), Emitted f := fun f hf => absurd hf List.not_mem_nil
  induction turns generalizing j c left ofo poff with
  | zero => exact hnone
  | succ turns ih =>
    rw [fragLoop]
    split
    · exact hnone
    · have hcop := cop_le env left
      split
      · exact hnone
      · exact hnone
      · next packet m hturn =>
        intro f hf
        obtain rfl | hf := List.mem_cons.mp hf
        · exact fragTurn_emitted hhdr hversion (by omega) hturn
        · exact ih (by omega) f hf

/-- What `ip_frag` sends of a packet. -/
theorem ipFrag_emitted {mtu : ℕ} (h : Emitted c) : ∀ f ∈ (ipFrag memory odd mtu c).sent, Emitted f := by
  have hhdr : ((bytes c).take ipHlen).length = ipHlen := by
    rw [List.length_take]
    exact min_eq_left h.header.length
  have hversion : ((bytes c).take ipHlen).getD 0 0 = 0x45 := by
    rw [getD_take (by decide)]
    exact h.header.first
  by_cases hmtu : mtu < ipHlen + 8
  · rw [ipFrag, if_pos hmtu]
    exact fun f hf => absurd hf List.not_mem_nil
  · have hlt := totLen_lt c
    have hge : ipHlen ≤ totLen c := by
      rw [← h.wellFormed.bytes_length]
      exact h.header.length
    rw [ipFrag_eq (not_lt.mp hmtu) hge]
    exact fragLoop_emitted hhdr hversion (by omega)

/-! ### Both sides -/

theorem packets_emitted {mtu : ℕ} (h : Emitted sent.chain) : ∀ f ∈ sent.packets memory odd mtu, Emitted f := by
  cases sent with
  | output c =>
    intro f hf
    cases List.mem_singleton.mp hf
    exact h
  | frag c => exact ipFrag_emitted h

/-- The checksum that `ip_output_if` adds up while it writes the fields is that of the general routine
over the header, and every packet that is sent, whole or in fragments, passes the tests of `ip_input` in
whatever pbufs it arrives, as long as the header is in the first one, and has its total length there. -/
theorem ip_headers_agree (netif : Netif) (id : ℕ) (k : Packet) (hwf : WellFormed k.chain)
    (hfits : totLen k.chain + ipHlen < 2 ^ 16) :
    (∀ odd, k.chksumInline netif (totLen k.chain + ipHlen) id =
      inetChksum odd (k.ipHdr netif (totLen k.chain + ipHlen) id 0)) ∧
    ∀ sent, ipOutputIf netif id k = some (.ok sent) →
      bytes sent.chain = k.ipHdr netif (totLen k.chain + ipHlen) id
        (k.chksumInline netif (totLen k.chain + ipHlen) id) ++ bytes k.chain ∧
      ∀ memory odd mtu, ∀ f ∈ sent.packets memory odd mtu, Emitted f ∧
        ∀ env outside p ps padding, WellFormed (p :: ps) → Referenced (p :: ps) → ipHlen ≤ p.len →
          bytes (p :: ps) = bytes f ++ padding → Arrives env outside p ps (bytes f) padding := by
  refine ⟨fun odd => k.chksumInline_eq netif odd _ id, fun sent hsent => ?_⟩
  obtain ⟨-, -, -, hbytes⟩ := ipOutputIf_bytes hwf hfits hsent
  have hemitted := ipOutputIf_emitted hwf hfits hsent
  refine ⟨hbytes, fun memory odd mtu f hf => ?_⟩
  have hf' : Emitted f := packets_emitted hemitted f hf
  exact ⟨hf', fun env outside p ps padding => hf'.header.arrives env outside⟩

theorem smallPbuf_inMem : 20 + 40 ≤ (List.replicate 60 (0 : UInt8)).length := by decide

theorem smallPbuf_lt : 40 < 2 ^ 16 := by decide

/-- 40 bytes in a `PBUF_RAM`, with room for the IP header. -/
def smallPbuf : Pbuf :=
  ⟨0, .replicate 60 0, 20, 40, 40, .ram, 0, 1, smallPbuf_inMem, smallPbuf_lt, smallPbuf_lt, oneRef_lt⟩

/-- The 40 bytes are sent to 10.0.0.2. -/
def smallPacket : Packet := ⟨[smallPbuf], 0, 0x0a000002#32, 64, 0, 17⟩

def smallNetif : Netif := { quietEnv.inp with mtu := 44 }

/-- An MTU of 44 leaves two fragments of them. -/
theorem ip_headers_agree_small :
    ∃ sent, ipOutputIf smallNetif 1 smallPacket = some (.ok sent) ∧ (∃ c, sent = .frag c) ∧
      ∀ f ∈ sent.packets zeroMemory (fun _ => false) 44, Emitted f ∧
        ∀ outside p ps, WellFormed (p :: ps) → Referenced (p :: ps) → ipHlen ≤ p.len →
          bytes (p :: ps) = bytes f → Arrives quietEnv outside p ps (bytes f) [] := by
  have hwf : WellFormed smallPacket.chain := ⟨rfl, trivial⟩
  have hroom : 20 ≤ smallPbuf.payload ∧ smallPbuf.len + 20 < 2 ^ 16 := by decide
  obtain ⟨sent, hsent, htot, -, hto⟩ : ∃ sent, ipOutputIf smallNetif 1 smallPacket = some (.ok sent) ∧
      totLen sent.chain = u16 (smallPbuf.totLen + 20) ∧
      (bytes sent.chain).length = (bytes smallPacket.chain).length + 20 ∧
      sent = if smallNetif.mtu ≠ 0 ∧ totLen sent.chain > smallNetif.mtu then .frag sent.chain
        else .output sent.chain := ipOutputIf_wraps rfl rfl rfl hroom.1 hroom.2
  obtain ⟨-, hall⟩ := ip_headers_agree smallNetif 1 smallPacket hwf (by decide)
  have hpackets := (hall sent hsent).2 zeroMemory (fun _ => false) 44
  refine ⟨sent, hsent, ⟨sent.chain, ?_⟩, fun f hf => ?_⟩
  · have hlong : smallNetif.mtu ≠ 0 ∧ totLen sent.chain > smallNetif.mtu := by
      rw [htot]
      decide
    rw [if_pos hlong] at hto
    exact hto
  · obtain ⟨hemitted, harrives⟩ := hpackets f hf
    refine ⟨hemitted, fun outside p ps hpwf href hroom hbytes => ?_⟩
    exact harrives quietEnv outside p ps [] hpwf href hroom (hbytes.trans (List.append_nil _).symm)

end QuietLwip.Ip
