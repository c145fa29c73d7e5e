import QuietLwip.Udp.Output

/-!
# A datagram from one end to the other

The packet that `udp_sendto_if` makes of a chain, and what `udp_input` of the other end makes of that
packet, however it arrives in pbufs. The lengths are added up in 16 bits, so all this holds as long
as they fit: for up to 65507 bytes of data. The socket layer admits 28 more.
-/

namespace QuietLwip.Udp

open Word Buffers Ip OnesComplement

variable {s : Sender} {t : Stack} {k : Packet} {netif : Netif} {n m dstPort src dest x : ℕ}
  {dstIp : IpAddr} {p q : Pbuf} {ps c : List Pbuf} {payload : List UInt8}

/-! ### The packet -/

/-- The sum of the pseudo header. -/
def pseudoSum (src dest : IpAddr) (len : ℕ) : ℕ :=
  addrSum src + addrSum dest + htons 17 + htons len

/-- The packet is a header with these ports and the payload behind it; the length is right, and the
checksum verifies or is left out. -/
structure Carries (k : Packet) (src dest : ℕ) (payload : List UInt8) : Prop where
  wf : WellFormed k.chain
  bytes : ∃ n < 65536, bytes k.chain = udpHdr src dest (payload.length + 8) n ++ payload ∧
    (n = 0 ∨ residue (value (bytes k.chain) + pseudoSum k.src k.dest (payload.length + 8)) = 0xffff)

/-- The pbuf for the header, with the data chained to it. -/
theorem addHeader_chained (b : RamBlock (layerOffset .ip + 8))
    (hfail : pbufHeader (p :: ps) 8 = some (1, p :: ps)) (hsome : p.totLen ≠ 0) :
    addHeader (some b) (p :: ps) =
      some (.ok ((ramPbuf .ip 8 (by decide) b).setTotLen ((8 : ℕ) + p.totLen) ::
        p.setRef (p.ref + 1) :: ps)) := by
  have hchain := pbufChain_one (q := ramPbuf .ip 8 (by decide) b) rfl p ps
  rw [addHeader, hfail, Option.bind_some]
  dsimp only [pbufAllocRam, Option.map_some]
  rw [if_neg (by decide), if_pos (show totLen (p :: ps) ≠ 0 from hsome), hchain]
  rfl

/-- Making room for the header fails, or it leaves the data behind the room. -/
theorem addHeader_spec (block : Option (RamBlock (layerOffset .ip + 8))) (hwf : WellFormed (p :: ps))
    (hfits : p.totLen + 8 < 2 ^ 16) : addHeader block (p :: ps) = some (.error .mem) ∨
      ∃ q qs, addHeader block (p :: ps) = some (.ok (q :: qs)) ∧ WellFormed (q :: qs) ∧
        q.totLen = p.totLen + 8 ∧ 8 ≤ q.len ∧ (bytes (q :: qs)).drop 8 = bytes (p :: ps) := by
  obtain ⟨q, hshow, hshown⟩ | ⟨hfail, -⟩ := pbufHeader_front p ps (by decide : 0 < 8)
  · have hshow' : pbufHeader (p :: ps) 8 = some (0, q :: ps) := hshow
    obtain ⟨hqwf, htot, hlen, hdrop⟩ := hshown.spec hwf hfits
    refine .inr ⟨q, ps, ?_, hqwf, htot, by omega, hdrop⟩
    rw [addHeader, hshow']
    rfl
  have hfail' : pbufHeader (p :: ps) 8 = some (1, p :: ps) := hfail
  cases block with
  | none =>
    rw [addHeader, hfail']
    exact .inl rfl
  | some b =>
    right
    by_cases hempty : p.totLen = 0
    · have hnil : bytes (p :: ps) = [] := by
        rw [← List.length_eq_zero_iff, hwf.bytes_length]
        exact hempty
      refine ⟨ramPbuf .ip 8 (by decide) b, [], ?_, ⟨rfl, trivial⟩, ?_, le_refl 8, ?_⟩
      · rw [addHeader, hfail', Option.bind_some]
        exact if_neg (not_not_intro hempty)
      · rw [hempty]
        rfl
      · rw [hnil, List.drop_eq_nil_iff, bytes_cons, bytes_nil, List.append_nil, Pbuf.data_length]
        exact le_refl 8
    · have htot : u16 ((8 : ℕ) + (p.totLen : ℤ)) = p.totLen + 8 := by
        simp only [u16, wrapU]
        omega
      refine ⟨_, _, addHeader_chained b hfail' hempty, ⟨?_, hwf⟩, htot, le_refl 8, ?_⟩
      · change u16 ((8 : ℕ) + (p.totLen : ℤ)) = 8 + p.totLen
        rw [htot, Nat.add_comm]
      · rw [bytes_cons, List.drop_left' (by rw [Pbuf.data_length]; rfl)]
        rfl

/-- The checksum that is written makes the sum all ones. -/
theorem residue_udpChksum (odd : Pbuf → Bool) {c : List Pbuf} {a b : IpAddr} (hlen : totLen c = x)
    (hbytes : bytes c = udpHdr src dest x 0 ++ payload) :
    udpChksum odd c a b < 65536 ∧ residue (value (udpHdr src dest x (udpChksum odd c a b) ++ payload) +
      pseudoSum a b x) = 0xffff := by
  have hx : x < 65536 := by
    rw [← hlen]
    exact totLen_lt c
  have hsum : inetChksumPseudo odd c a b 17 x = 0xffff - residue (value (bytes c) + pseudoSum a b x) :=
    inetChksumPseudo_eq c (by decide) hx
  have hcases : udpChksum odd c a b = 0xffff - residue (value (bytes c) + pseudoSum a b x) ∨
      udpChksum odd c a b = 0xffff ∧ residue (value (bytes c) + pseudoSum a b x) = 0xffff := by
    have hle := residue_le (value (bytes c) + pseudoSum a b x)
    rw [udpChksum, hlen, hsum]
    split
    · exact .inr ⟨rfl, by omega⟩
    · exact .inl rfl
  have hlt : udpChksum odd c a b < 65536 := by omega
  refine ⟨hlt, ?_⟩
  have hfront : (netWord src ++ netWord dest ++ netWord x).length % 2 = 0 := by simp
  rw [hbytes, udpHdr, List.append_assoc] at hcases
  rw [udpHdr, List.append_assoc, residue_value_memWord payload hfront hlt]
  exact residue_complement hcases

end QuietLwip.Udp
