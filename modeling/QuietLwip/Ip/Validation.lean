import QuietLwip.Ip.Input
import QuietLwip.Reassembly.Fragments

/-!
# What `ip_input` lets through

`ip_input` compares the length of the header with the first pbuf and the total length with the
chain. It compares the header with neither its least length nor the total length, so a packet it
hands on is what the upper layers take it for exactly when the packet itself is right there.
-/

namespace QuietLwip.Ip

open Buffers OnesComplement

variable {env : Env} {outside : ℕ → UInt8} {c c' : List Pbuf} {p p' : Pbuf} {ps : List Pbuf} {i n : ℕ}

/-! ### Reading the first pbuf -/

theorem peek_eq_data (h : i < p.len) : peek outside p i = p.data.getD i 0 := by
  have hmem := p.inMem
  have hlt : p.payload + i < p.mem.length := by omega
  rw [peek, Pbuf.data, List.getD_eq_getElem?_getD, List.getD_eq_getElem?_getD, List.getElem?_take,
    if_pos h, List.getElem?_drop, List.getElem?_eq_getElem hlt]
  rfl

/-- Pbufs with the same bytes read the same. -/
theorem peek_congr (hdata : p'.data = p.data.take p'.len) (hi : i < p'.len) (hle : p'.len ≤ p.len) :
    peek outside p' i = peek outside p i := by
  rw [peek_eq_data hi, peek_eq_data (by omega), hdata, List.getD_eq_getElem?_getD,
    List.getElem?_take, if_pos hi, List.getD_eq_getElem?_getD]

theorem iphBytes_eq (h : iphdrHlen outside p ≤ p.len) :
    iphBytes outside p = p.data.take (iphdrHlen outside p) := by
  apply List.ext_getElem
  · rw [iphBytes, List.length_map, List.length_range, List.length_take, Pbuf.data_length]
    omega
  · intro i h1 h2
    rw [List.length_take] at h2
    simp only [iphBytes, List.getElem_map, List.getElem_range, List.getElem_take]
    rw [peek_eq_data (by omega), List.getD_eq_getElem?_getD, List.getElem?_eq_getElem]
    rfl

/-- The first pbuf of a chain that `pbuf_realloc` has trimmed. -/
theorem pbufRealloc_head {r : FreeResult} (hwf : WellFormed (p :: ps))
    (h : pbufRealloc (p :: ps) n = some (c', r)) :
    ∃ p' ps', c' = p' :: ps' ∧ p'.len = min p.len n ∧ p'.data = p.data.take p'.len ∧
      p'.type = p.type := by
  have hwhole : p.data.take p.len = p.data := List.take_of_length_le (by rw [Pbuf.data_length])
  rw [pbufRealloc] at h
  split at h
  · rename_i hge
    cases h
    have hle : p.len ≤ p.totLen := by
      rw [hwf.1]
      omega
    exact ⟨p, ps, rfl, (min_eq_left (hle.trans hge)).symm, hwhole.symm, rfl⟩
  · rw [reallocLoop] at h
    split at h
    · rename_i hlt
      obtain ⟨⟨c₁, r₁⟩, -, heq⟩ := Option.map_eq_some_iff.mp h
      cases heq
      exact ⟨_, c₁, rfl, (min_eq_left hlt.le).symm, hwhole.symm, rfl⟩
    · rename_i hge
      have hle : n ≤ p.len := by omega
      have hshrink : ∃ ps', c' = p.shrink n hle :: ps' := by
        cases ps with
        | nil =>
          cases h
          exact ⟨[], rfl⟩
        | cons q qs =>
          obtain ⟨r₁, -, heq⟩ := Option.map_eq_some_iff.mp h
          cases heq
          exact ⟨[], rfl⟩
      obtain ⟨ps', rfl⟩ := hshrink
      exact ⟨_, ps', rfl, (min_eq_right hle).symm, p.shrink_data n hle, rfl⟩

/-! ### The packets that are passed on -/

/-- The packet that an upper layer gets: its header is complete in the first pbuf and verifies, the
chain has the total length, and removing the header leaves the rest. -/
structure ValidHeader (outside : ℕ → UInt8) (received : ℕ) (c : List Pbuf) (p : Pbuf) : Prop where
  head : c.head? = some p
  version : iphV outside p = 4
  least : 20 ≤ iphdrHlen outside p
  first : iphdrHlen outside p ≤ p.len
  hlen : iphdrHlen outside p ≤ iphdrLen outside p
  received : iphdrLen outside p ≤ received
  trimmed : totLen c = iphdrLen outside p
  chksum : Verifies (p.data.take (iphdrHlen outside p))
  removed : ∃ c', pbufHeader c (-iphdrHlen outside p) = some (0, c') ∧
    totLen c' + iphdrHlen outside p = totLen c ∧ bytes c' = (bytes c).drop (iphdrHlen outside p)

/-- The packet that an action is about. -/
def Action.chain : Action → List Pbuf
  | .ipReass c | .rawInput c | .udpInput c | .tcpInput c | .icmpInput c | .destUnreach c
  | .free c => c

/-- A packet is freed and nothing else, or it is handed to `ip_reass` or to the upper layers, from
`raw_input` on, with a valid header. -/
def Validated (env : Env) (outside : ℕ → UInt8) (c : List Pbuf) : Prop :=
  ∃ acts, ipInput env outside c = some acts ∧
    ((∃ c', acts = [.free c']) ∨
      ∃ c' p, ValidHeader outside (totLen c) c' p ∧
        (acts.head? = some (.ipReass c') ∨
          acts.head? = some (.rawInput c') ∧ ∀ a ∈ acts, a.chain = c'))

/-- The tests that `ip_input` makes. -/
structure Passes (env : Env) (outside : ℕ → UInt8) (p : Pbuf) : Prop where
  version : iphV outside p = 4
  first : iphdrHlen outside p ≤ p.len
  received : iphdrLen outside p ≤ p.totLen
  chksum : Verifies (iphBytes outside p)
  src : ((iphSrc outside p).isBroadcast env.inp || (iphSrc outside p).isMulticast) = false
  dest : env.matchNetif (iphDest outside p) ≠ none

theorem iphdrHlen_lt (outside : ℕ → UInt8) (p : Pbuf) : iphdrHlen outside p ≤ 60 := by
  rw [iphdrHlen]
  omega

theorem chksum_iff (env : Env) (outside : ℕ → UInt8) (p : Pbuf) :
    inetChksum (env.odd p) (iphBytes outside p) = 0 ↔ Verifies (iphBytes outside p) := by
  apply inetChksum_eq_zero
  have hlt := iphdrHlen_lt outside p
  rw [iphBytes, List.length_map, List.length_range]
  omega

/-- The packet goes to the upper layers, with all that is done to it. -/
theorem ipDeliver_chain (env : Env) (outside : ℕ → UInt8) (dest : IpAddr) (p : Pbuf)
    (ps : List Pbuf) : (ipDeliver env outside dest (p :: ps)).head? = some (.rawInput (p :: ps)) ∧
      ∀ a ∈ ipDeliver env outside dest (p :: ps), a.chain = p :: ps := by
  simp only [ipDeliver]
  repeat' split
  all_goals exact ⟨rfl, by simp [Action.chain]⟩

/-- What is passed on is the packet, cut to its total length. -/
theorem ipInput_passed (hwf : WellFormed (p :: ps)) (href : Referenced (p :: ps))
    (h : Passes env outside p) : ∃ p' ps' acts, ipInput env outside (p :: ps) = some acts ∧
      WellFormed (p' :: ps') ∧ totLen (p' :: ps') = iphdrLen outside p ∧
      p'.len = min p.len (iphdrLen outside p) ∧ p'.data = p.data.take p'.len ∧
      (acts.head? = some (.ipReass (p' :: ps')) ∨
        acts.head? = some (.rawInput (p' :: ps')) ∧ ∀ a ∈ acts, a.chain = p' :: ps') := by
  obtain ⟨c', r, hrealloc, hwf', htot, -⟩ :=
    pbufRealloc_spec (List.cons_ne_nil p ps) hwf href (iphdrLen outside p)
  obtain ⟨p', ps', rfl, hlen, hdata, -⟩ := pbufRealloc_head hwf hrealloc
  rw [min_eq_left (show iphdrLen outside p ≤ totLen (p :: ps) from h.received)] at htot
  refine ⟨p', ps', if iphFragment outside p then .ipReass (p' :: ps') ::
    (env.reass (p' :: ps')).elim [] (ipDeliver env outside (iphDest outside p))
    else ipDeliver env outside (iphDest outside p) (p' :: ps'), ?_, hwf', htot, hlen, hdata, ?_⟩
  · have hlens : ¬ (iphdrHlen outside p > p.len ∨ iphdrLen outside p > p.totLen) :=
      not_or.mpr ⟨h.first.not_gt, h.received.not_gt⟩
    rw [ipInput, if_neg (not_not_intro h.version), if_neg hlens,
      if_neg (not_not_intro ((chksum_iff env outside p).mpr h.chksum)), hrealloc]
    simp only [Option.map_some, h.src, Bool.false_eq_true, if_false, if_neg h.dest]
  · split
    · exact .inl rfl
    · exact .inr (ipDeliver_chain env outside _ p' ps')

/-- A packet that fails a test is freed. -/
theorem ipInput_dropped (hwf : WellFormed (p :: ps)) (href : Referenced (p :: ps))
    (h : ¬ Passes env outside p) : ∃ c', ipInput env outside (p :: ps) = some [.free c'] := by
  rw [ipInput]
  by_cases hv : iphV outside p = 4
  case neg => exact ⟨_, if_pos hv⟩
  rw [if_neg (not_not_intro hv)]
  by_cases hlens : iphdrHlen outside p > p.len ∨ iphdrLen outside p > p.totLen
  case pos => exact ⟨_, if_pos hlens⟩
  rw [if_neg hlens]
  by_cases hsum : inetChksum (env.odd p) (iphBytes outside p) = 0
  case neg => exact ⟨_, if_pos hsum⟩
  rw [if_neg (not_not_intro hsum)]
  obtain ⟨c', r, hrealloc, -⟩ :=
    pbufRealloc_spec (List.cons_ne_nil p ps) hwf href (iphdrLen outside p)
  refine ⟨c', ?_⟩
  rw [hrealloc, Option.map_some]
  dsimp only
  rw [not_or, not_lt, not_lt] at hlens
  cases hsrc : (iphSrc outside p).isBroadcast env.inp || (iphSrc outside p).isMulticast with
  | true => rfl
  | false =>
    by_cases hdest : env.matchNetif (iphDest outside p) = none
    · rw [if_neg Bool.false_ne_true, if_pos hdest]
    · exact absurd ⟨hv, hlens.1, hlens.2, (chksum_iff env outside p).mp hsum, hsrc, hdest⟩ h

/-- The fields that tell the lengths are in the first four bytes. -/
theorem lengths_congr (outside : ℕ → UInt8) (hdata : p'.data = p.data.take p'.len) (hfour : 4 ≤ p'.len)
    (hle : p'.len ≤ p.len) : iphV outside p' = iphV outside p ∧
      iphdrHlen outside p' = iphdrHlen outside p ∧ iphdrLen outside p' = iphdrLen outside p := by
  have hpeek : ∀ i < 4, peek outside p' i = peek outside p i :=
    fun i hi => peek_congr hdata (by omega) hle
  refine ⟨?_, ?_, ?_⟩
  · rw [iphV, iphV, hpeek 0 (by decide)]
  · rw [iphdrHlen, iphdrHlen, hpeek 0 (by decide)]
  · rw [iphdrLen, iphdrLen, peekWord, peekWord, hpeek 2 (by decide), hpeek 3 (by decide)]

theorem validated_of_lengths (hwf : WellFormed (p :: ps)) (href : Referenced (p :: ps))
    (h : Passes env outside p) (hleast : 20 ≤ iphdrHlen outside p)
    (hhlen : iphdrHlen outside p ≤ iphdrLen outside p) : Validated env outside (p :: ps) := by
  obtain ⟨p', ps', acts, hacts, hwf', htot, hlen, hdata, hhead⟩ := ipInput_passed hwf href h
  have hfirst : iphdrHlen outside p ≤ p'.len := by
    rw [hlen]
    exact le_min h.first hhlen
  have hle : p'.len ≤ p.len := by
    rw [hlen]
    exact min_le_left _ _
  obtain ⟨hv, hh, hl⟩ := lengths_congr outside hdata (by omega) hle
  refine ⟨acts, hacts, .inr ⟨p' :: ps', p', ⟨rfl, hv.trans h.version, ?_, ?_, ?_, ?_, ?_, ?_, ?_⟩, hhead⟩⟩
  · rw [hh]
    exact hleast
  · rw [hh]
    exact hfirst
  · rw [hh, hl]
    exact hhlen
  · rw [hl]
    exact h.received
  · rw [htot, hl]
  · rw [hh, hdata, List.take_take, min_eq_left hfirst, ← iphBytes_eq h.first]
    exact h.chksum
  · rw [hh]
    obtain ⟨c'', hc⟩ := pbufHeader_hide_succeeds ps' hfirst
    obtain ⟨hk, hwf'', hbytes⟩ := pbufHeader_hide hwf' hc
    refine ⟨c'', hc, ?_, hbytes⟩
    rw [← hwf''.bytes_length, hbytes, List.length_drop, hwf'.bytes_length]
    omega

theorem lengths_of_validated (hwf : WellFormed (p :: ps)) (href : Referenced (p :: ps))
    (h : Passes env outside p) (hvalid : Validated env outside (p :: ps)) :
    20 ≤ iphdrHlen outside p ∧ iphdrHlen outside p ≤ iphdrLen outside p := by
  obtain ⟨p', ps', acts, hacts, hwf', htot, hlen, hdata, hhead⟩ := ipInput_passed hwf href h
  obtain ⟨acts', hacts', hcases⟩ := hvalid
  obtain rfl : acts = acts' := Option.some.inj (hacts.symm.trans hacts')
  obtain ⟨c, rfl⟩ | ⟨c, q, hq, hwhat⟩ := hcases
  · obtain hhead | ⟨hhead, -⟩ := hhead <;> cases hhead
  · have hpassed : acts.head?.map Action.chain = some (p' :: ps') := by
      obtain h | ⟨h, -⟩ := hhead <;> rw [h] <;> rfl
    have hgiven : acts.head?.map Action.chain = some c := by
      obtain h | ⟨h, -⟩ := hwhat <;> rw [h] <;> rfl
    have hc : c = p' :: ps' := Option.some.inj (hgiven.symm.trans hpassed)
    obtain rfl : p' = q := by
      have hsame := hq.head
      rw [hc] at hsame
      exact Option.some.inj hsame
    have hle : p'.len ≤ p.len := by
      rw [hlen]
      exact min_le_left _ _
    obtain ⟨-, hh, hl⟩ := lengths_congr outside hdata
      ((by decide : 4 ≤ 20).trans (hq.least.trans hq.first)) hle
    rw [← hh, ← hl]
    exact ⟨hq.least, hq.hlen⟩

/-- A packet with a valid header is passed on, or the packet is freed, exactly when one that passes
the tests of `ip_input` has a header of at least 20 bytes that is not longer than the packet. -/
theorem ip_input_validates_iff (env : Env) (outside : ℕ → UInt8) (p : Pbuf) (ps : List Pbuf)
    (hwf : WellFormed (p :: ps)) (href : Referenced (p :: ps)) :
    Validated env outside (p :: ps) ↔ (Passes env outside p →
      20 ≤ iphdrHlen outside p ∧ iphdrHlen outside p ≤ iphdrLen outside p) := by
  constructor
  · exact fun hvalid h => lengths_of_validated hwf href h hvalid
  · intro hlens
    by_cases h : Passes env outside p
    · exact validated_of_lengths hwf href h (hlens h).1 (hlens h).2
    · obtain ⟨c', hfree⟩ := ipInput_dropped hwf href h
      exact ⟨_, hfree, .inl ⟨c', rfl⟩⟩

/-- The header, as `ip_reass` reads it. -/
def fragHdr (outside : ℕ → UInt8) (p : Pbuf) : Reassembly.IpHdr where
  src := (iphSrc outside p).toNat
  dest := (iphDest outside p).toNat
  id := peekWord outside p 4
  hl := (peek outside p 0).toNat % 16
  len := iphdrLen outside p
  offset := peekWord outside p 6 % 0x2000
  mf := peekWord outside p 6 / 0x2000 % 2 = 1

/-- What `ip_reass` gets is a fragment as it may take for granted. -/
theorem fromInput_of_passes (hwf : WellFormed (p :: ps)) (href : Referenced (p :: ps))
    (h : Passes env outside p) (hfrag : iphFragment outside p = true) {acts : List Action}
    (hacts : ipInput env outside (p :: ps) = some (.ipReass c :: acts)) :
    Reassembly.Fragment.FromInput ⟨fragHdr outside p, c⟩ := by
  obtain ⟨p', ps', acts', hacts', hwf', htot, hlen, -, hhead⟩ := ipInput_passed hwf href h
  cases hacts.symm.trans hacts'
  obtain hhead | ⟨hhead, -⟩ := hhead <;> cases hhead
  have hword : ∀ i, peekWord outside p i < 2 ^ 16 := by
    intro i
    have h1 := (peek outside p i).toNat_lt
    have h2 := (peek outside p (i + 1)).toNat_lt
    rw [peekWord]
    omega
  refine ⟨hword 2, Nat.mod_lt _ (by decide), hwf', htot, ⟨p', ps', rfl, ?_⟩, ?_⟩
  · rw [hlen]
    exact min_le_min_right _ h.first
  · have hword6 := hword 6
    simp only [iphFragment, bne_iff_ne, ne_eq] at hfrag
    simp only [fragHdr, decide_eq_true_eq]
    omega

/-- An interface with the address 10.0.0.1 and nothing to pass packets to. -/
def quietEnv : Env :=
  let netif : Netif :=
    { ipAddr := 0x0a000001#32, netmask := 0xffffff00#32, gw := 0, hwaddr := 0, mtu := 1500
      up := true, linkUp := true, broadcast := true, etharp := true, autoip := none }
  { netifs := [netif]
    inp := netif
    raw := []
    udp := ⟨fun _ => false, fun _ => {}, fun _ => none, none, Udp.udpLocalPortRangeStart⟩
    reass := fun _ => none
    alloc := true
    odd := fun _ => false }

/-- A header of a TCP packet from 10.0.0.2 to 10.0.0.1 in one pbuf, with these last bytes of its total length and of
its checksum. -/
def headerPbuf (len chksum : UInt8) : Pbuf where
  addr := 0
  mem := [0x45, 0, 0, len, 0, 0, 0, 0, 0x40, 6, 0x66, chksum, 10, 0, 0, 2, 10, 0, 0, 1]
  payload := 0
  totLen := 20
  len := 20
  type := .pool
  flags := 0
  ref := 1
  inMem := by simp
  lenLt := by decide
  totLt := by decide
  refLt := oneRef_lt

theorem headerPbuf_referenced (len chksum : UInt8) : Referenced [headerPbuf len chksum] := by
  intro p hp
  cases List.mem_singleton.mp hp
  exact Nat.one_pos

/-- An empty packet is passed on with a valid header. -/
theorem ip_input_validates_header : Validated quietEnv (fun _ => 0) [headerPbuf 20 0xe2] :=
  (ip_input_validates_iff quietEnv _ (headerPbuf 20 0xe2) [] ⟨rfl, trivial⟩
    (headerPbuf_referenced 20 0xe2)).mpr fun _ => ⟨by decide, by decide⟩

/-- A packet whose total length is less than the length of its header is passed on. -/
theorem ip_input_short_total : ¬ ∀ env outside p ps, WellFormed (p :: ps) → Referenced (p :: ps) →
    Validated env outside (p :: ps) := by
  intro hall
  have hpass : Passes quietEnv (fun _ => 0) (headerPbuf 10 0xec) :=
    ⟨by decide, by decide, by decide, ⟨by decide, by decide⟩, by decide, by decide⟩
  have hwf : WellFormed [headerPbuf 10 0xec] := ⟨rfl, trivial⟩
  have href := headerPbuf_referenced 10 0xec
  have hlens := lengths_of_validated hwf href hpass (hall quietEnv _ _ [] hwf href)
  exact absurd hlens.2 (by decide)

end QuietLwip.Ip
