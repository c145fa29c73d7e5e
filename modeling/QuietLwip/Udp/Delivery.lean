import QuietLwip.Ip.Demux
import QuietLwip.Ip.Integrity
import QuietLwip.Ip.RoundTrip
import QuietLwip.Udp.RoundTrip

/-!
# Datagrams that arrive

What one application gives to `udp_sendto` is what the callback of the other one gets, in whatever pbufs the packet
arrives, and whether it comes whole or is cut into fragments and put together again.
-/

namespace QuietLwip.Udp

open Word Buffers Ip OnesComplement

variable {s : Sender} {t : Stack} {k : Packet} {netif : Netif} {n x src dest dstPort : ℕ}
  {dstIp srcIp destIp : IpAddr} {p : Pbuf} {ps : List Pbuf} {payload hdr : List UInt8} {env : Env}
  {outside : ℕ → UInt8}

/-! ### The packet that is sent -/

/-- The packet that `udp_sendto_if` hands on. -/
theorem udpPacket_carries (hwf : WellFormed (p :: ps)) (hfits : p.totLen + 8 < 2 ^ 16)
    (h : s.udpPacket n (p :: ps) dstIp dstPort netif = some (t, .ok k)) :
    Carries k (t.pcb n).localPort dstPort (bytes (p :: ps)) ∧ k.src = netif.ipAddr ∧ k.dest = dstIp ∧
      k.proto = 17 := by
  rw [Sender.udpPacket] at h
  obtain ⟨⟨t₁, err⟩, -, h⟩ := Option.bind_eq_some_iff.mp h
  dsimp only at h
  split at h
  · cases h
  obtain ⟨r, hadd, h⟩ := Option.bind_eq_some_iff.mp h
  obtain hmem | ⟨q, qs, hadd', hqwf, hqtot, hqlen, hqbytes⟩ := addHeader_spec s.block hwf hfits
  · cases hadd.symm.trans hmem
    cases h
  cases hadd.symm.trans hadd'
  dsimp only at h
  have hlen : totLen (q :: qs) = (bytes (p :: ps)).length + 8 := by
    rw [hwf.bytes_length]
    exact hqtot
  obtain ⟨c, hwrite, h⟩ := Option.bind_eq_some_iff.mp h
  obtain ⟨hcwf, hctot, hcbytes⟩ := writeHead_spec hqwf hwrite
  have hudp : ∀ m, (udpHdr (t₁.pcb n).localPort dstPort (totLen (q :: qs)) m).length = 8 := fun m => rfl
  rw [hudp, hqbytes, hlen] at hcbytes
  split at h
  · cases h
  rename_i hlocal
  obtain ⟨c', hwrite', heq⟩ := Option.map_eq_some_iff.mp h
  cases heq
  obtain ⟨hwf', -, hbytes'⟩ := writeHead_spec hcwf hwrite'
  have hdrop : (bytes c).drop 8 = bytes (p :: ps) := by
    rw [hcbytes]
    exact List.drop_left' rfl
  rw [hudp, hdrop, hlen] at hbytes'
  have hsrc : (if (t.pcb n).localIp.isAny = true then netif.ipAddr else (t.pcb n).localIp) = netif.ipAddr := by
    split
    · rfl
    · next hany => simpa [hany] using hlocal
  have hctot' : totLen c = (bytes (p :: ps)).length + 8 := hctot.trans hlen
  refine ⟨⟨hwf', ?_⟩, hsrc, rfl, rfl⟩
  rw [hsrc] at hbytes' ⊢
  rw [hbytes']
  split
  · exact ⟨0, by decide, rfl, .inl rfl⟩
  · obtain ⟨hlt, hsum⟩ := residue_udpChksum s.odd (a := netif.ipAddr) (b := dstIp) hctot' hcbytes
    exact ⟨_, hlt, rfl, .inr hsum⟩

/-! ### The datagram that is received -/

/-- The chain is an IP packet with this datagram, and both headers are in the first pbuf. -/
structure Holding (p : Pbuf) (ps : List Pbuf) (src dest : ℕ) (srcIp destIp : IpAddr) (payload : List UInt8) :
    Prop where
  wellFormed : WellFormed (p :: ps)
  room : ipHlen + 8 ≤ p.len
  hl : ((bytes (p :: ps)).getD 0 0).toNat % 16 = 5
  data : ∃ x < 65536, (bytes (p :: ps)).drop ipHlen = udpHdr src dest (payload.length + 8) x ++ payload ∧
    (x = 0 ∨ residue (value (udpHdr src dest (payload.length + 8) x ++ payload) +
      pseudoSum srcIp destIp (payload.length + 8)) = 0xffff)

theorem udpHdr_words (hsrc : src < 65536) (hdest : dest < 65536) (len x : ℕ) (payload : List UInt8) :
    headerWord (udpHdr src dest len x ++ payload) 0 = src ∧
      headerWord (udpHdr src dest len x ++ payload) 2 = dest ∧
      (x = 0 → headerWord (udpHdr src dest len x ++ payload) 6 = 0) := by
  have hassoc : udpHdr src dest len x ++ payload =
      netWord src ++ (netWord dest ++ (netWord len ++ (memWord x ++ payload))) := by
    simp only [udpHdr, List.append_assoc]
  rw [hassoc]
  refine ⟨headerWord_netWord [] _ hsrc, headerWord_netWord (netWord src) _ hdest, ?_⟩
  rintro rfl
  rfl

/-- The pcb that is chosen gets the payload. -/
theorem Holding.udpInput (h : Holding p ps src dest srcIp destIp payload) (hsrc : src < 65536)
    (hdest : dest < 65536) {u : Stack} {m : ℕ}
    (hdemux : env.udp.demux ⟨src, dest, srcIp, destIp, env.inp⟩ = some (u, some m)) :
    ∃ c, udpInput env outside srcIp destIp (p :: ps) = some [.recv m c] ∧ bytes c = payload := by
  obtain ⟨hwf, hroom, hhl, x, hx, hdata, hsum⟩ := h
  have hle : p.len ≤ p.totLen := by
    rw [hwf.1]
    omega
  have hhlen : iphdrHlen outside p = ipHlen := by
    rw [iphdrHlen, peek_eq_bytes outside ps (lt_of_lt_of_le (by decide) hroom), hhl]
    rfl
  have hshort : ¬ p.totLen < ipHlen + 8 := by omega
  obtain ⟨q, hq, hidden⟩ := pbufHeader_hidden ps (by omega : ipHlen ≤ p.len) hle
  obtain ⟨-, hqwf, hqbytes⟩ := pbufHeader_hide hwf hq
  rw [hdata] at hqbytes
  have hqlen : 8 ≤ q.len := by
    have := hidden.len
    omega
  have hqle : q.len ≤ q.totLen := by
    rw [hqwf.1]
    omega
  have hqtot : q.totLen = payload.length + 8 := by
    have hlength := hqwf.bytes_length
    rw [hqbytes, List.length_append, show (udpHdr src dest (payload.length + 8) x).length = 8 from rfl] at hlength
    exact hlength.symm.trans (Nat.add_comm _ _)
  obtain ⟨r, hr, hidden'⟩ := pbufHeader_hidden ps hqlen hqle
  obtain ⟨-, -, hrbytes⟩ := pbufHeader_hide hqwf hr
  have hr' : pbufHeader (q :: ps) (-8) = some (0, r :: ps) := hr
  have hword : ∀ i, i + 1 < 8 → peekWord outside q i =
      headerWord (udpHdr src dest (payload.length + 8) x ++ payload) i := by
    intro i hi
    rw [peekWord, headerWord, peek_eq_bytes outside ps (by omega), peek_eq_bytes outside ps (by omega), hqbytes]
  obtain ⟨h0, h2, h6⟩ := udpHdr_words hsrc hdest (payload.length + 8) x payload
  have hgood : ¬ (peekWord outside q 6 ≠ 0 ∧ inetChksumPseudo env.odd (q :: ps) srcIp destIp 17 q.totLen ≠ 0) := by
    rintro ⟨hne, hbad⟩
    obtain hzero | hsum := hsum
    · rw [hword 6 (by decide), h6 hzero] at hne
      exact hne rfl
    · apply hbad
      rw [inetChksumPseudo_eq (q :: ps) (by decide) q.totLt, hqbytes, hqtot]
      rw [pseudoSum] at hsum
      rw [hsum]
  refine ⟨r :: ps, ?_, ?_⟩
  · rw [Ip.udpInput]
    dsimp only
    rw [hhlen, if_neg hshort, hq, Option.bind_some]
    dsimp only
    rw [hword 0 (by decide), hword 2 (by decide), h0, h2, hdemux, Option.bind_some]
    dsimp only
    rw [if_pos (by rfl), if_neg hgood, hr', Option.bind_some]
  · rw [hrbytes, hqbytes]
    exact List.drop_left' rfl

/-! ### The header of IP -/

theorem headerAddr_addrBytes (front back : List UInt8) (a : IpAddr) :
    headerAddr (front ++ (addrBytes a ++ back)) front.length = a := by
  have hlt := a.isLt
  have hhi := headerWord_netWord front (netWord (a.toNat % 65536) ++ back) (x := a.toNat / 65536) (by omega)
  have hlo := headerWord_netWord (front ++ netWord (a.toNat / 65536)) back (x := a.toNat % 65536)
    (Nat.mod_lt _ (by decide))
  rw [List.length_append, netWord_length, List.append_assoc] at hlo
  rw [headerAddr, addrBytes, List.append_assoc, hhi, hlo, Nat.div_add_mod, BitVec.ofNat_toNat, BitVec.setWidth_eq]

/-- What is read of a header that `ip_output_if` has written. -/
theorem ipHdr_read (k : Packet) (netif : Netif) (len id m : ℕ) (back : List UInt8) :
    (k.ipHdr netif len id m ++ back).getD 0 0 = 0x45 ∧ headerWord (k.ipHdr netif len id m ++ back) 6 = 0 ∧
      (k.ipHdr netif len id m ++ back).getD 9 0 = k.proto ∧
      headerAddr (k.ipHdr netif len id m ++ back) 12 = k.hdrSrc netif ∧
      headerAddr (k.ipHdr netif len id m ++ back) 16 = k.dest := by
  have hsrc := headerAddr_addrBytes ([0x45, k.tos] ++ netWord len ++ netWord id ++ [0, 0, k.ttl, k.proto] ++
    memWord m) (addrBytes k.dest ++ back) (k.hdrSrc netif)
  have hdest := headerAddr_addrBytes ([0x45, k.tos] ++ netWord len ++ netWord id ++ [0, 0, k.ttl, k.proto] ++
    memWord m ++ addrBytes (k.hdrSrc netif)) back k.dest
  refine ⟨rfl, rfl, rfl, ?_, ?_⟩
  · rw [Packet.ipHdr]
    simp only [List.append_assoc] at hsrc ⊢
    exact hsrc
  · rw [Packet.ipHdr]
    simp only [List.append_assoc] at hdest ⊢
    exact hdest

section packet

variable {sent : Sent} {id : ℕ}

/-- The packet behind its header is the datagram. -/
structure Sends (sent : Sent) (src dest : ℕ) (srcIp destIp : IpAddr) (payload : List UInt8) : Prop where
  emitted : Emitted sent.chain
  first : (bytes sent.chain).getD 0 0 = 0x45
  whole : headerWord (bytes sent.chain) 6 = 0
  proto : (bytes sent.chain).getD 9 0 = 17
  addrs : headerAddr (bytes sent.chain) 12 = srcIp ∧ headerAddr (bytes sent.chain) 16 = destIp
  data : ∃ x < 65536, (bytes sent.chain).drop ipHlen = udpHdr src dest (payload.length + 8) x ++ payload ∧
    (x = 0 ∨ residue (value (udpHdr src dest (payload.length + 8) x ++ payload) +
      pseudoSum srcIp destIp (payload.length + 8)) = 0xffff)

theorem sends_of_carries (h : Carries k src dest payload) (hproto : k.proto = 17) (hsrc : k.src = netif.ipAddr)
    (hfits : payload.length ≤ 65507) (hsent : ipOutputIf netif id k = some (.ok sent)) :
    Sends sent src dest k.src k.dest payload := by
  obtain ⟨x, hx, hbytes, hsum⟩ := h.bytes
  have htot : totLen k.chain = payload.length + 8 := by
    rw [← h.wf.bytes_length, hbytes, List.length_append]
    exact Nat.add_comm _ _
  have hhdrSrc : k.hdrSrc netif = k.src := by
    rw [Packet.hdrSrc, hsrc, ite_self]
  have hfits' : totLen k.chain + 20 < 2 ^ 16 := by omega
  obtain ⟨-, -, -, hsentBytes⟩ := ipOutputIf_bytes h.wf hfits' hsent
  have hemitted := ipOutputIf_emitted h.wf hfits' hsent
  obtain ⟨h0, h6, h9, hsrcAddr, hdestAddr⟩ := ipHdr_read k netif (totLen k.chain + 20) id
    (k.chksumInline netif (totLen k.chain + 20) id) (bytes k.chain)
  have hdrop : (bytes sent.chain).drop ipHlen = bytes k.chain := by
    rw [hsentBytes]
    exact List.drop_left' rfl
  refine ⟨hemitted, ?_, ?_, ?_, ⟨?_, ?_⟩, x, hx, hdrop.trans hbytes, ?_⟩
  · rw [hsentBytes, h0]
  · rw [hsentBytes, h6]
  · rw [hsentBytes, h9, hproto]
  · rw [hsentBytes, hsrcAddr, hhdrSrc]
  · rw [hsentBytes, hdestAddr]
  · rwa [hbytes] at hsum

/-- It goes through `ip_input` when it comes whole. -/
theorem Sends.whole_arrives (h : Sends sent src dest srcIp destIp payload) {q : Pbuf} {qs : List Pbuf}
    {padding : List UInt8} (hwf : WellFormed (q :: qs)) (href : Referenced (q :: qs)) (hroom : ipHlen + 8 ≤ q.len)
    (hbytes : bytes (q :: qs) = bytes sent.chain ++ padding) (haddr : Addressed env outside q)
    (hraw : rawInput env.raw 17 destIp = false) :
    ∃ r rs, ipInput env outside (q :: qs) = some [.rawInput (r :: rs), .udpInput (r :: rs)] ∧
      iphSrc outside q = srcIp ∧ iphDest outside q = destIp ∧ Holding r rs src dest srcIp destIp payload := by
  have hhead := h.emitted.header
  obtain ⟨x, hx, hdata, hsum⟩ := h.data
  have harrives := hhead.arrives env outside hwf href (by omega) hbytes
  have hwhole : headerWord (bytes sent.chain) 6 % 0x4000 = 0 := by rw [h.whole]
  obtain ⟨c, hfree⟩ | ⟨r, rs, hdeliver, hrwf, hrbytes, -, hrlen, hsrc, hdest⟩ :=
    ipInput_whole env outside hhead hwhole hwf href hbytes
  · obtain ⟨c', -, -, -, -, hpassed⟩ := harrives.passed
    obtain ⟨acts, hacts, hfirst⟩ := hpassed haddr
    cases hfree.symm.trans hacts
    obtain hfirst | hfirst := hfirst <;> cases hfirst
  · have hlength : (bytes sent.chain).length = ipHlen + (payload.length + 8) := by
      have hdrop := congrArg List.length hdata
      have hge := hhead.length
      rw [List.length_drop, List.length_append, show (udpHdr src dest (payload.length + 8) x).length = 8 from rfl]
        at hdrop
      omega
    have hroom' : ipHlen + 8 ≤ r.len := by
      rw [hrlen, hlength]
      omega
    have hdest' := hdest.trans h.addrs.2
    refine ⟨r, rs, ?_, hsrc.trans h.addrs.1, hdest', hrwf, hroom', ?_, x, hx, ?_, hsum⟩
    · have hproto : iphProto outside r = 17 := by
        rw [iphProto, peek_eq_bytes outside rs (lt_of_lt_of_le (by decide) hroom'), hrbytes, h.proto]
        rfl
      rw [hdeliver, ipDeliver, hproto, hdest', hraw]
      rfl
    · rw [hrbytes, h.first]
      rfl
    · rw [hrbytes, hdata]

theorem Sends.datagram (h : Sends sent src dest srcIp destIp payload) : Ip.Datagram sent.chain where
  wellFormed := h.emitted.wellFormed
  head := h.emitted.first
  offset := by rw [packetOffset, h.whole, Nat.zero_mod]
  mf := by
    rw [moreFragments, h.whole]
    rfl
  hl := by
    rw [headerOf, h.first]
    rfl
  length := h.emitted.header.total.trans h.emitted.wellFormed.bytes_length

/-- The datagram as `ip_reass` returns it, with its header in place, and both headers in the first pbuf. -/
structure Rebuilt (d : Reassembly.Datagram) (p : Pbuf) (ps : List Pbuf) : Prop where
  wellFormed : WellFormed (p :: ps)
  room : ipHlen + 8 ≤ p.len
  hdr_eq : headerOf (bytes (p :: ps)) = d.hdr
  data_eq : (bytes (p :: ps)).drop ipHlen = (bytes d.pbufs).drop ipHlen

/-- It comes out of `ip_reass` when it comes in fragments. -/
theorem Sends.restored (h : Sends sent src dest srcIp destIp payload) {d : Reassembly.Datagram}
    (hd : Restored sent.chain d) {q : Pbuf} {qs : List Pbuf} (hq : Rebuilt d q qs) :
    Holding q qs src dest srcIp destIp payload := by
  obtain ⟨x, hx, hdata, hsum⟩ := h.data
  refine ⟨hq.wellFormed, hq.room, ?_, x, hx, ?_, hsum⟩
  · have hhl : (headerOf (bytes (q :: qs))).hl = (headerOf (bytes sent.chain)).hl := by rw [hq.hdr_eq, hd.hdr_eq]
    exact hhl.trans h.datagram.hl
  · rw [hq.data_eq, hd.data_eq]
    exact hdata

end packet

/-! ### From one application to the other -/

/-- A datagram that is given to `udp_sendto` and sent. -/
theorem udpSendto_sends (hwf : WellFormed (p :: ps)) (hfits : (bytes (p :: ps)).length ≤ 65507) {d : Datagram}
    (hsend : s.udpSendto n (p :: ps) dstIp dstPort = some (t, .ok d)) :
    Sends d.sent (t.pcb n).localPort dstPort d.netif.ipAddr dstIp (bytes (p :: ps)) ∧
      d.sent = if d.netif.mtu ≠ 0 ∧ totLen d.sent.chain > d.netif.mtu then .frag d.sent.chain
        else .output d.sent.chain := by
  have htot : p.totLen + 8 < 2 ^ 16 := by
    have hlength : (bytes (p :: ps)).length = p.totLen := hwf.bytes_length
    omega
  rw [Sender.udpSendto] at hsend
  split at hsend
  · cases hsend
  rename_i netif hroute
  obtain ⟨⟨t₁, r⟩, hpacket, hsend⟩ := Option.bind_eq_some_iff.mp hsend
  cases r with
  | error err => cases hsend
  | ok k =>
    obtain ⟨hcarries, hsrc, hdest, hproto⟩ := udpPacket_carries hwf htot hpacket
    obtain ⟨r, hsent, heq⟩ := Option.map_eq_some_iff.mp hsend
    cases r with
    | error err => cases heq
    | ok sent =>
      cases heq
      have hsends := sends_of_carries hcarries hproto hsrc hfits hsent
      rw [hsrc, hdest] at hsends
      obtain ⟨q, qs, r, r', -, -, hchain, -, hcut⟩ := ipOutputIf_ok hsent
      refine ⟨hsends, ?_⟩
      rw [hchain]
      exact hcut

/-- "hi" -/
def hello : List UInt8 := [0x68, 0x69]

theorem hello_lt : hello.length < 2 ^ 16 := by decide

def helloNetif : Netif := { quietEnv.inp with ipAddr := 0x0a000002#32 }

/-- A host with the address 10.0.0.2 and a pcb that is bound to port 1000 -/
def helloSender : Sender where
  netifs := [helloNetif]
  netifDefault := none
  stack := { twoPcbs 0 1 with pcb := fun _ => { localPort := 1000 } }
  ttl _ := 255
  tos _ := 0
  ipId := 7
  block := none
  elem := none
  odd _ := false

/-- The packet that it sends to port 53 of 10.0.0.1 -/
def helloPacket : List UInt8 :=
  [0x45, 0, 0, 30, 0, 7, 0, 0, 255, 17, 0xa7, 0xc5, 10, 0, 0, 2, 10, 0, 0, 1, 3, 0xe8, 0, 53, 0, 10, 0x7f, 0x51,
    0x68, 0x69]

theorem helloPacket_lt : helloPacket.length < 2 ^ 16 := by decide

end QuietLwip.Udp
