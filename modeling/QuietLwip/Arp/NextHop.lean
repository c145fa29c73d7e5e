import QuietLwip.Arp.Entries
import QuietLwip.Buffers.Headers

/-!
# Next-hop resolution

Where a packet of the IP layer goes, said without the table: an address class, a route and a binding
of hardware addresses to next hops. `etharp_output` decides the same in every state of the table, by
whichever of its three look-ups it finds the entry. The Ethernet header it makes room for stays in
front of the packet, also where nothing is sent.
-/

namespace QuietLwip.Arp

open Buffers Ip QuietLwip.Transition

/-! ### Without the table -/

/-- No router is on the way: the destination is on the network of the interface, or one of the two
addresses is link-local. -/
def OnLink (netif : Netif) (dest src : IpAddr) : Prop :=
  dest.netcmp netif.ipAddr netif.netmask ∨ isLinkLocal dest ∨ isLinkLocal src

/-- The next hop of a unicast packet. -/
inductive NextHop (netif : Netif) (dest src : IpAddr) : Option IpAddr → Prop
  | direct (honLink : OnLink netif dest src) : NextHop netif dest src (some dest)
  | gateway (honLink : ¬OnLink netif dest src) (hgw : netif.gw ≠ IpAddr.any) :
    NextHop netif dest src (some netif.gw)
  | none (honLink : ¬OnLink netif dest src) (hgw : netif.gw = IpAddr.any) :
    NextHop netif dest src none

inductive Resolution where
  /-- a frame to this hardware address -/
  | frame (eth : EthAddr)
  /-- no gateway -/
  | noRoute
  /-- the next hop has to be asked for its address -/
  | ask (hop : IpAddr)

/-- What becomes of a packet, where `Binds` says which hardware addresses are known. -/
inductive Resolves (netif : Netif) (Binds : IpAddr → EthAddr → Prop) (dest src : IpAddr) :
    Resolution → Prop
  | broadcast (hbroadcast : dest.isBroadcast netif) :
    Resolves netif Binds dest src (.frame 0xffffffffffff#48)
  | multicast {eth : EthAddr} (hbroadcast : ¬dest.isBroadcast netif) (hmulticast : dest.isMulticast)
    -- 01:00:5e, and the low 23 bits of the group
    (heth : eth.toNat = 0x01005e000000 + dest.toNat % 2 ^ 23) :
    Resolves netif Binds dest src (.frame eth)
  | noRoute (hbroadcast : ¬dest.isBroadcast netif) (hmulticast : ¬dest.isMulticast)
    (hhop : NextHop netif dest src none) : Resolves netif Binds dest src .noRoute
  | bound {hop : IpAddr} {eth : EthAddr} (hbroadcast : ¬dest.isBroadcast netif)
    (hmulticast : ¬dest.isMulticast) (hhop : NextHop netif dest src (some hop))
    (hbinds : Binds hop eth) : Resolves netif Binds dest src (.frame eth)
  | ask {hop : IpAddr} (hbroadcast : ¬dest.isBroadcast netif) (hmulticast : ¬dest.isMulticast)
    (hhop : NextHop netif dest src (some hop)) (hunknown : ∀ eth, ¬Binds hop eth) :
    Resolves netif Binds dest src (.ask hop)

/-! ### With the table -/

/-- The entry is resolved, and for this address. -/
def World.ResolvedAt (w : World) (ip : IpAddr) (i : Index) : Prop :=
  (w.table i).state.isStable ∧ (w.table i).ipaddr = ip

/-- The table binds the hardware address to the address. -/
def World.Binds (w : World) (ip : IpAddr) (eth : EthAddr) : Prop :=
  ∃ i, w.ResolvedAt ip i ∧ (w.table i).ethaddr = eth

/-- The ways to the entry of an address: the cached index, the scan of the table, the two in the
order of `etharp_output`, and `etharp_find_entry`. -/
structure World.LocatedAt (w : World) (ip : IpAddr) (i : Index) : Prop where
  cached : w.ResolvedAt ip w.etharpCachedEntry → w.etharpCachedEntry = i
  scan : (List.finRange ARP_TABLE_SIZE).find?
    (fun j => (w.table j).state.isStable && ip == (w.table j).ipaddr) = some i
  chosen : stableEntry w ip = some i
  slow : ∀ flags, etharpFindEntry w ip flags = .ok (w, some i)

/-- What `etharp_output` does for each resolution; `c` is the packet with room for the Ethernet
header. -/
inductive Carries (w : World) (env : QueryEnv) (n : ℕ) (c : List Pbuf) :
    Resolution → Except Fault (World × Err) → Prop
  | frame {w' : World} {eth : EthAddr} {requests : List Event}
    -- at most one ARP request, for an entry that is about to expire
    (hlength : requests.length ≤ 1) (harp : ∀ ev ∈ requests, ∃ hdr ok, ev = .arp n hdr ok)
    (hlog : w'.log = w.log ++ requests ++ [.output n eth c]) :
    Carries w env n c (.frame eth) (.ok (w', env.linkoutput))
  | noRoute : Carries w env n c .noRoute (.ok (w, .rte))
  | ask (hop : IpAddr) : Carries w env n c (.ask hop) (etharpQuery w env n hop (some c))

/-- The packet when `etharp_output` returns: `pbuf_header` is the only call that moves a payload
pointer or writes a length. -/
def etharpOutputPacket (q : List Pbuf) : List Pbuf :=
  match pbufHeader q PBUF_LINK_HLEN with
  | some (0, c) => c
  | _ => q

/-! ### Addresses -/

theorem nextHop_nextHop (netif : Netif) (dest src : IpAddr) :
    NextHop netif dest src (nextHop netif dest src) := by
  have honLink : (!dest.netcmp netif.ipAddr netif.netmask && !isLinkLocal dest && !isLinkLocal src) ↔
      ¬OnLink netif dest src := by
    simp [OnLink, and_assoc]
  rw [nextHop]
  split
  · next h =>
    have hoff := honLink.mp h
    by_cases hgw : netif.gw = IpAddr.any
    · simpa [IpAddr.isAny, hgw] using NextHop.none hoff hgw
    · simpa [IpAddr.isAny, hgw] using NextHop.gateway hoff hgw
  · next h => exact .direct (not_not.mp fun hoff => h (honLink.mpr hoff))

theorem multicastAddr_toNat (ip : IpAddr) :
    (multicastAddr ip).toNat = 0x01005e000000 + ip.toNat % 2 ^ 23 := by
  have hlow : ip.toNat &&& 0x007fffff = ip.toNat % 2 ^ 23 := Nat.and_two_pow_sub_one_eq_mod ip.toNat 23
  have hlt : ip.toNat % 2 ^ 23 < 2 ^ 23 := Nat.mod_lt _ (by decide)
  have hor : 0x01005e000000 ||| ip.toNat % 2 ^ 23 = 0x01005e000000 + ip.toNat % 2 ^ 23 :=
    (Nat.two_pow_add_eq_or_of_lt hlt 0x200bc).symm
  rw [multicastAddr, BitVec.toNat_or, BitVec.toNat_setWidth, BitVec.toNat_and]
  change 0x01005e000000 ||| (ip.toNat &&& 0x007fffff) % 2 ^ 48 = _
  rw [hlow, Nat.mod_eq_of_lt (hlt.trans (by decide)), hor]

/-- The source address is read behind the room for the Ethernet header. -/
theorem shown_peekAddr {p p' : Pbuf} (h : Shown PBUF_LINK_HLEN p p') (outside : ℕ → UInt8) :
    peekAddr outside p' (PBUF_LINK_HLEN + 12) = iphSrc outside p := by
  have hpeek : ∀ i, peek outside p' (PBUF_LINK_HLEN + i) = peek outside p i := by
    intro i
    have hroom := h.room
    have hat : p.payload - PBUF_LINK_HLEN + (PBUF_LINK_HLEN + i) = p.payload + i := by omega
    rw [peek, peek, h.mem, h.payload, hat]
  simp only [peekAddr, iphSrc, peekWord, Nat.add_assoc, hpeek]

/-! ### Entries -/

variable {w : World} {ip : IpAddr} {i j : Index}

theorem World.ResolvedAt.state (h : w.ResolvedAt ip i) : (w.table i).state ≠ .empty :=
  (EtharpState.isStable_iff.mp h.1).1

theorem resolvedAt_iff :
    w.ResolvedAt ip i ↔ ((w.table i).state.isStable && ip == (w.table i).ipaddr) = true := by
  rw [World.ResolvedAt, Bool.and_eq_true, beq_iff_eq, eq_comm (a := ip)]

/-- An address has one resolved entry. -/
theorem World.Sound.resolved_unique (hs : w.Sound) (hi : w.ResolvedAt ip i)
    (hj : w.ResolvedAt ip j) : j = i := by
  by_contra hne
  exact hs.alone i hi.state j hne hj.state (hj.2.trans hi.2.symm)

theorem World.Sound.binds_learnt (hs : w.Sound) {eth : EthAddr} (h : w.Binds ip eth) :
    lastUpdate w.log ip = some eth := by
  obtain ⟨i, ⟨hstable, rfl⟩, rfl⟩ := h
  exact (hs.entry i).learnt hstable

/-- A search that tries a resolved entry of the address finds the one there is. -/
theorem World.Sound.find_resolved (hs : w.Sound) (hi : w.ResolvedAt ip i) {l : List Index}
    (hmem : i ∈ l) :
    l.find? (fun j => (w.table j).state.isStable && ip == (w.table j).ipaddr) = some i := by
  cases hfind : l.find? (fun j => (w.table j).state.isStable && ip == (w.table j).ipaddr) with
  | none => exact absurd (resolvedAt_iff.mp hi) (List.find?_eq_none.mp hfind i hmem)
  | some j =>
    have hj := List.find?_some hfind
    rw [hs.resolved_unique hi (resolvedAt_iff.mpr hj)]

theorem World.Sound.locatedAt (hs : w.Sound) (hi : w.ResolvedAt ip i) : w.LocatedAt ip i where
  cached hcached := hs.resolved_unique hi hcached
  scan := hs.find_resolved hi (List.mem_finRange i)
  chosen := hs.find_resolved hi (List.mem_cons_of_mem _ (List.mem_finRange i))
  slow flags := by
    rw [etharpFindEntry]
    cases hsearch : search w.table ip (List.finRange ARP_TABLE_SIZE) .init with
    | inl j =>
      obtain ⟨hstate, hip⟩ := search_inl hsearch
      have hji : j = i := by
        by_contra hne
        exact hs.alone i hi.state j hne hstate (hip.trans hi.2.symm)
      rw [hji]
    | inr c => exact absurd hi.2 (search_inr hsearch i (List.mem_finRange i) hi.state)

theorem stableEntry_resolvedAt (h : stableEntry w ip = some i) : w.ResolvedAt ip i := by
  have hi := List.find?_some h
  exact resolvedAt_iff.mpr hi

theorem stableEntry_unknown (h : stableEntry w ip = none) (eth : EthAddr) : ¬w.Binds ip eth := by
  rintro ⟨i, hi, -⟩
  have hmem : i ∈ w.etharpCachedEntry :: List.finRange ARP_TABLE_SIZE :=
    List.mem_cons_of_mem _ (List.mem_finRange i)
  exact List.find?_eq_none.mp h i hmem (resolvedAt_iff.mp hi)

/-! ### Frames -/

theorem etharpRequest_log (w : World) (tx : Tx) (n : ℕ) (ip : IpAddr) :
    ∃ requests, requests.length ≤ 1 ∧ (∀ ev ∈ requests, ∃ hdr ok, ev = .arp n hdr ok) ∧
      (etharpRequest w tx n ip).1.log = w.log ++ requests := by
  rw [etharpRequest, etharpRaw]
  split
  · exact ⟨[], by decide, fun ev hev => absurd hev List.not_mem_nil, (List.append_nil _).symm⟩
  · refine ⟨[_], by rfl, fun ev hev => ?_, rfl⟩
    exact ⟨_, _, List.mem_singleton.mp hev⟩

theorem rerequest_log (w : World) (tx : Tx) (n : ℕ) (i : Index) :
    ∃ requests, requests.length ≤ 1 ∧ (∀ ev ∈ requests, ∃ hdr ok, ev = .arp n hdr ok) ∧
      (rerequest w tx n i).log = w.log ++ requests := by
  rw [rerequest]
  split
  · simp only
    split
    · exact etharpRequest_log ..
    · exact etharpRequest_log ..
  · exact ⟨[], by decide, fun ev hev => absurd hev List.not_mem_nil, (List.append_nil _).symm⟩

theorem etharpOutputToArpIndex_carries (w : World) (env : QueryEnv) (n : ℕ) (c : List Pbuf)
    (hi : (w.table i).state.isStable) :
    Carries w env n c (.frame (w.table i).ethaddr)
      (etharpOutputToArpIndex (w.setHint i) env n c i) := by
  obtain ⟨requests, hlength, harp, hlog⟩ := rerequest_log (w.setHint i) env.request n i
  have hsent : etharpOutputToArpIndex (w.setHint i) env n c i =
      .ok ((rerequest (w.setHint i) env.request n i).emit (.output n (w.table i).ethaddr c),
        env.linkoutput) := by
    rw [etharpOutputToArpIndex]
    exact if_neg (by simpa [World.setHint] using hi)
  rw [hsent]
  refine .frame hlength harp ?_
  rw [World.emit_log, hlog]
  rfl

theorem emit_carries (w : World) (env : QueryEnv) (n : ℕ) (c : List Pbuf) (eth : EthAddr) :
    Carries w env n c (.frame eth) (.ok (w.emit (.output n eth c), env.linkoutput)) := by
  have hlog : (w.emit (.output n eth c)).log = w.log ++ [] ++ [.output n eth c] := by simp
  exact .frame (by decide) (fun ev hev => absurd hev List.not_mem_nil) hlog

/-! ### `etharp_output` -/

/-- The branch of `etharp_output` for an address of one host. -/
theorem unicast_carries (env : QueryEnv) (n : ℕ) (c : List Pbuf) {dest src : IpAddr}
    (hbroadcast : ¬dest.isBroadcast (w.netif n)) (hmulticast : ¬dest.isMulticast) :
    ∃ resolution, Resolves (w.netif n) w.Binds dest src resolution ∧
      Carries w env n c resolution
        (match nextHop (w.netif n) dest src with
        | none => .ok (w, .rte)
        | some hop =>
          match stableEntry w hop with
          | some i => etharpOutputToArpIndex (w.setHint i) env n c i
          | none => etharpQuery w env n hop (some c)) := by
  have hhop := nextHop_nextHop (w.netif n) dest src
  cases hnext : nextHop (w.netif n) dest src with
  | none =>
    rw [hnext] at hhop
    exact ⟨.noRoute, .noRoute hbroadcast hmulticast hhop, .noRoute⟩
  | some hop =>
    rw [hnext] at hhop
    dsimp only
    cases hentry : stableEntry w hop with
    | none =>
      have hunknown := stableEntry_unknown hentry
      exact ⟨.ask hop, .ask hbroadcast hmulticast hhop hunknown, .ask hop⟩
    | some i =>
      have hi := stableEntry_resolvedAt hentry
      exact ⟨.frame (w.table i).ethaddr, .bound hbroadcast hmulticast hhop ⟨i, hi, rfl⟩,
        etharpOutputToArpIndex_carries w env n c hi.1⟩

/-- Once there is room for the Ethernet header. -/
theorem etharpOutput_carries (w : World) (env : QueryEnv) (outside : ℕ → UInt8) (n : ℕ) {p p' : Pbuf}
    {ps : List Pbuf} (dest : IpAddr) (hshow : pbufHeader (p :: ps) PBUF_LINK_HLEN = some (0, p' :: ps))
    (hshown : Shown PBUF_LINK_HLEN p p') :
    ∃ resolution, Resolves (w.netif n) w.Binds dest (iphSrc outside p) resolution ∧
      Carries w env n (p' :: ps) resolution (etharpOutput w env outside n (p :: ps) dest) := by
  rw [etharpOutput, hshow]
  dsimp only
  rw [shown_peekAddr hshown]
  by_cases hbroadcast : dest.isBroadcast (w.netif n)
  · rw [if_pos hbroadcast]
    exact ⟨_, .broadcast hbroadcast, emit_carries ..⟩
  · rw [if_neg hbroadcast]
    by_cases hmulticast : dest.isMulticast
    · rw [if_pos hmulticast]
      exact ⟨_, .multicast hbroadcast hmulticast (multicastAddr_toNat dest), emit_carries ..⟩
    · rw [if_neg hmulticast]
      exact unicast_carries env n (p' :: ps) hbroadcast hmulticast

/-- In every state reached the table binds to an address the hardware address that was stored last
for it, by one entry that all the look-ups find, and `etharp_output` does with every packet what
next-hop resolution over these bindings says. Without room for the Ethernet header it leaves the
packet alone; otherwise the header is in front of it from then on. -/
theorem etharp_output (h : arp.Reachable w) (env : QueryEnv) (outside : ℕ → UInt8) (n : ℕ) (p : Pbuf)
    (ps : List Pbuf) (dest : IpAddr) :
    (∀ ip i, w.ResolvedAt ip i → w.LocatedAt ip i) ∧
      (∀ ip eth, w.Binds ip eth → lastUpdate w.log ip = some eth) ∧
      (etharpOutput w env outside n (p :: ps) dest = .ok (w, .buf) ∧
          etharpOutputPacket (p :: ps) = p :: ps ∧ ¬(p.type = .ram ∧ PBUF_LINK_HLEN ≤ p.payload) ∨
        ∃ p' resolution, Shown PBUF_LINK_HLEN p p' ∧ etharpOutputPacket (p :: ps) = p' :: ps ∧
          Resolves (w.netif n) w.Binds dest (iphSrc outside p) resolution ∧
          Carries w env n (p' :: ps) resolution (etharpOutput w env outside n (p :: ps) dest)) := by
  have hs : w.Sound := reachable_sound h
  refine ⟨fun ip i => hs.locatedAt, fun ip eth => hs.binds_learnt, ?_⟩
  obtain ⟨p', hshow, hshown⟩ | ⟨hfail, hroom⟩ := pbufHeader_front p ps (k := PBUF_LINK_HLEN) (by decide)
  · obtain ⟨resolution, hresolves, hcarries⟩ :=
      etharpOutput_carries w env outside n dest hshow hshown
    refine .inr ⟨p', resolution, hshown, ?_, hresolves, hcarries⟩
    simp only [etharpOutputPacket, hshow]
  · refine .inl ⟨?_, ?_, hroom⟩
    · rw [etharpOutput, hfail]
    · simp only [etharpOutputPacket, hfail]

theorem ramPacket_inMem : 14 + 20 ≤ (List.replicate 34 (0 : UInt8)).length := by decide

theorem ramPacket_lt : 20 < 2 ^ 16 := by decide

/-- A packet of 20 bytes in a `PBUF_RAM`, with room for an Ethernet header. -/
def ramPacket : Pbuf :=
  ⟨1, .replicate 34 0, 14, 20, 20, .ram, 0, 1, ramPacket_inMem, ramPacket_lt, ramPacket_lt, oneRef_lt⟩

/-- 10.0.0.2 is bound. -/
def bindNeighbour : Op := .addStatic (some 0) 0x0a000002#32 0x020000000002#48

theorem etharp_output_neighbour :
    ∃ w : World, arp.Reachable w ∧ w.ResolvedAt 0x0a000002#32 ⟨0, by decide⟩ ∧
      (∀ ip i, w.ResolvedAt ip i → w.LocatedAt ip i) ∧
      (∀ ip eth, w.Binds ip eth → lastUpdate w.log ip = some eth) ∧
      (etharpOutput w allOk (fun _ => 0) 0 [ramPacket] 0x0a000002#32 = .ok (w, .buf) ∧
          etharpOutputPacket [ramPacket] = [ramPacket] ∧
          ¬(ramPacket.type = .ram ∧ PBUF_LINK_HLEN ≤ ramPacket.payload) ∨
        ∃ p' resolution, Shown PBUF_LINK_HLEN ramPacket p' ∧ etharpOutputPacket [ramPacket] = [p'] ∧
          Resolves (w.netif 0) w.Binds 0x0a000002#32 (iphSrc (fun _ => 0) ramPacket) resolution ∧
          Carries w allOk 0 [p'] resolution
            (etharpOutput w allOk (fun _ => 0) 0 [ramPacket] 0x0a000002#32)) := by
  obtain ⟨w, hw⟩ : ∃ w, bindNeighbour.exec emptyWorld = .ok w := ⟨_, rfl⟩
  have hrun : arp.Reachable w := ⟨_, .snoc (.start emptyWorld_start) trivial hw⟩
  refine ⟨w, hrun, ?_, etharp_output hrun allOk (fun _ => 0) 0 ramPacket [] 0x0a000002#32⟩
  cases hw
  exact ⟨rfl, rfl⟩

/-- Without a gateway there is no route to 192.168.0.1, and the packet comes back with the Ethernet
header in front. -/
theorem etharp_output_noRoute :
    ¬∀ w, arp.Reachable w → ∀ env outside n p ps dest w' err,
      etharpOutput w env outside n (p :: ps) dest = .ok (w', err) → err ≠ .ok →
      ∀ p' ps', etharpOutputPacket (p :: ps) = p' :: ps' →
        p'.payload = p.payload ∧ p'.totLen = p.totLen ∧ p'.len = p.len := by
  intro hall
  obtain ⟨p', hp'⟩ : ∃ p', etharpOutputPacket [ramPacket] = [p'] ∧ p'.payload = 0 := ⟨_, rfl, rfl⟩
  have hsame := hall emptyWorld (.of_start emptyWorld_start) allOk (fun _ => 0) 0 ramPacket []
    0xc0a80001#32 emptyWorld .rte rfl (by decide) p' [] hp'.1
  exact absurd (hp'.2.symm.trans hsame.1) (by decide)

end QuietLwip.Arp
