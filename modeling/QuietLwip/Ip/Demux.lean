import QuietLwip.Ip.Icmp
import QuietLwip.Tcp.Demux
import QuietLwip.Udp.Demux

/-!
# What becomes of a packet that is received

The choice of a pcb in every order of the lists, for a datagram and for a segment; and a datagram is handed to one
callback or freed, and only once.
-/

namespace QuietLwip.Ip

open Buffers Reorder

variable {env : Env} {outside : ℕ → UInt8} {src dest : IpAddr} {p q : Pbuf} {ps : List Pbuf} {l : List ℕ}

/-! ### Delivery -/

/-- What `udp_input` looks for in a packet. -/
def endpoints (env : Env) (outside : ℕ → UInt8) (src dest : IpAddr) (p : Pbuf) : Udp.Endpoints :=
  { src := peekWord outside p (iphdrHlen outside p), dest := peekWord outside p (iphdrHlen outside p + 2)
    srcIp := src, destIp := dest, inp := env.inp }

/-- Where the pbufs of the datagram go: to the callback of a pcb, or, without one, to `pbuf_free`. -/
def UdpAction.goes (recv : ℕ → Bool) : UdpAction → Option (Option ℕ × List Pbuf)
  | .recv n c => some (if recv n then some n else none, c)
  | .free c => some (none, c)
  | .destUnreach _ => none

/-- The pbufs go to one place, to the callback of the pcb that was chosen or to `pbuf_free`. -/
def Once (recv : ℕ → Bool) (chosen : Option ℕ) (c : List Pbuf) (acts : List UdpAction) : Prop :=
  ∃ n c', acts.filterMap (UdpAction.goes recv) = [(n, c')] ∧ c'.map Pbuf.addr = c.map Pbuf.addr ∧
    ∀ m, n = some m → recv m = true ∧ chosen = some m

theorem once_free {recv : ℕ → Bool} {chosen : Option ℕ} {c c' : List Pbuf}
    (haddr : c'.map Pbuf.addr = c.map Pbuf.addr) : Once recv chosen c [.free c'] :=
  ⟨none, c', rfl, haddr, fun m hm => absurd hm.symm (Option.some_ne_none m)⟩

theorem once_recv {recv : ℕ → Bool} {c c' : List Pbuf} {n : ℕ} (haddr : c'.map Pbuf.addr = c.map Pbuf.addr) :
    Once recv (some n) c [.recv n c'] := by
  refine ⟨if recv n then some n else none, c', rfl, haddr, fun m hm => ?_⟩
  split at hm
  · next hrecv =>
    cases hm
    exact ⟨hrecv, rfl⟩
  · cases hm

theorem Hidden.addr_map {k : ℕ} (h : Hidden k p q) : (q :: ps).map Pbuf.addr = (p :: ps).map Pbuf.addr := by
  rw [List.map_cons, h.addr, List.map_cons]

/-- A datagram whose UDP header is in the first pbuf is disposed of once. -/
theorem udpInput_once (hwf : WellFormed (p :: ps)) (htype : p.type = .ram ∨ p.type = .pool)
    (hu : env.udp.Holds l) (hhdr : p.totLen < iphdrHlen outside p + 8 ∨ iphdrHlen outside p + 8 ≤ p.len)
    (recv : ℕ → Bool) (src dest : IpAddr) :
    ∃ acts, udpInput env outside src dest (p :: ps) = some acts ∧
      Once recv (firstOf (env.udp.full (endpoints env outside src dest p))
        (env.udp.unconnected (endpoints env outside src dest p)) l) (p :: ps) acts := by
  have hle : p.len ≤ p.totLen := by
    rw [hwf.1]
    omega
  rw [udpInput]
  dsimp only
  by_cases hshort : p.totLen < iphdrHlen outside p + 8
  · rw [if_pos hshort]
    exact ⟨_, rfl, once_free rfl⟩
  rw [if_neg hshort]
  have hfits : iphdrHlen outside p + 8 ≤ p.len := hhdr.resolve_left hshort
  obtain ⟨q, hq, hidden⟩ := pbufHeader_hidden ps (by omega : iphdrHlen outside p ≤ p.len) hle
  obtain ⟨-, hqwf, -⟩ := pbufHeader_hide hwf hq
  have hqlen := hidden.len
  have hqle : q.len ≤ q.totLen := by
    rw [hqwf.1]
    omega
  obtain ⟨r, hr, hidden'⟩ := pbufHeader_hidden ps (by omega : 8 ≤ q.len) hqle
  have hr' : pbufHeader (q :: ps) (-8) = some (0, r :: ps) := hr
  obtain ⟨t', l', hdemux, -⟩ := hu.demux (endpoints env outside src dest p)
  rw [hq, Option.bind_some]
  dsimp only
  rw [hidden.peekWord 0, hidden.peekWord 2, Nat.add_zero]
  change ∃ acts, (env.udp.demux (endpoints env outside src dest p)).bind _ = some acts ∧ _
  rw [hdemux, Option.bind_some]
  dsimp only
  generalize firstOf _ _ l = chosen
  by_cases hmine : (chosen.isSome || env.inp.ipAddr == dest) = true
  · rw [if_pos hmine]
    by_cases hbad : peekWord outside q 6 ≠ 0 ∧ inetChksumPseudo env.odd (q :: ps) src dest 17 q.totLen ≠ 0
    · rw [if_pos hbad]
      exact ⟨_, rfl, once_free hidden.addr_map⟩
    · rw [if_neg hbad, hr', Option.bind_some]
      cases chosen with
      | some n => exact ⟨_, rfl, once_recv (hidden.trans hidden').addr_map⟩
      | none =>
        dsimp only
        by_cases hcast : (!dest.isBroadcast env.inp && !dest.isMulticast) = true
        · have hback : pbufHeader (r :: ps) (iphdrHlen outside p + 8) = some (0, p :: ps) :=
            (hidden.trans hidden').restore htype
          rw [if_pos hcast, hback]
          exact ⟨_, rfl, none, p :: ps, rfl, rfl, fun m hm => absurd hm.symm (Option.some_ne_none m)⟩
        · rw [if_neg hcast]
          exact ⟨_, rfl, once_free (hidden.trans hidden').addr_map⟩
  · rw [if_neg hmine]
    exact ⟨_, rfl, once_free hidden.addr_map⟩

/-! ### The choice in every order -/

/-- The pcb of a datagram is the first in the list that matches fully, or else the first that matches and is not
connected; this is the same pcb in every order of the list if and only if no two pcbs match fully, and no two that are
not connected match when none does. The pcb of a segment is the same in every order of the three lists. The lists are
permuted, and a datagram is handed to the callback of its pcb or freed, once. -/
theorem demux_orders {la lt ll : List ℕ} {t : Tcp.Stack} (hu : env.udp.Holds l) (ht : t.Lists la lt ll)
    (hdistinct : t.Distinct la lt ll) :
    (∀ e, (∃ u l', env.udp.demux e = some (u, firstOf (env.udp.full e) (env.udp.unconnected e) l) ∧
        u.Holds l' ∧ l'.Perm l ∧ u.pcb = env.udp.pcb) ∧
      ((∀ u l', env.udp.Reordered u l l' → (u.demux e).map Prod.snd = (env.udp.demux e).map Prod.snd) ↔
        Unambiguous (env.udp.full e) (env.udp.unconnected e) l)) ∧
    (∀ outside p ps recv src dest, WellFormed (p :: ps) → p.type = .ram ∨ p.type = .pool →
      p.totLen < iphdrHlen outside p + 8 ∨ iphdrHlen outside p + 8 ≤ p.len →
        ∃ acts, udpInput env outside src dest (p :: ps) = some acts ∧
          Once recv (firstOf (env.udp.full (endpoints env outside src dest p))
            (env.udp.unconnected (endpoints env outside src dest p)) l) (p :: ps) acts) ∧
    ∀ seg, (∀ tcpEnv, t.tcpInput tcpEnv seg = (t.demux seg).bind fun (t, chosen) => t.dispatch tcpEnv seg chosen) ∧
      (∃ t' la' ll', t.demux seg = some (t', t.chosen seg la lt ll) ∧ t'.Lists la' lt ll' ∧ la'.Perm la ∧
        ll'.Perm ll ∧ t'.pcb = t.pcb) ∧
      ∀ t' la' lt' ll', t.Reordered t' la lt ll la' lt' ll' →
        (t'.demux seg).map Prod.snd = (t.demux seg).map Prod.snd := by
  refine ⟨fun e => ⟨hu.demux e, hu.demux_order e⟩, ?_, fun seg => ⟨fun tcpEnv => t.tcpInput_demux tcpEnv seg,
    ht.demux seg, fun t' la' lt' ll' hreorder => ht.demux_order hdistinct seg hreorder⟩⟩
  intro outside p ps recv src dest hwf htype hhdr
  exact udpInput_once hwf htype hu hhdr recv src dest

/-- A pcb bound to port 53 at any address, and one bound to it at 10.0.0.1; `a` is in front of `b`. -/
def twoPcbs (a b : ℕ) : Udp.Stack where
  live n := n < 2
  pcb n := { localIp := if n = 0 then .any else 0x0a000001#32, localPort := 53 }
  next n := if n = a then some b else none
  pcbs := some a
  port := Udp.udpLocalPortRangeStart

theorem twoPcbs_holds : (twoPcbs 0 1).Holds [0, 1] := ⟨⟨rfl, rfl, rfl⟩, by decide⟩

theorem twoPcbs_reordered : (twoPcbs 0 1).Reordered (twoPcbs 1 0) [0, 1] [1, 0] :=
  ⟨rfl, ⟨⟨rfl, rfl, rfl⟩, by decide⟩, .swap 0 1 []⟩

/-- A datagram from 10.0.0.2 to port 53 of 10.0.0.1. -/
def toPort53 : Udp.Endpoints :=
  { src := 1000, dest := 53, srcIp := 0x0a000002#32, destIp := 0x0a000001#32, inp := quietEnv.inp }

def twoPcbsEnv : Env := { quietEnv with udp := twoPcbs 0 1 }

/-- Pcbs without any TCP connection -/
def noTcp : Tcp.Stack where
  room := 0
  live _ := false
  pcb _ := ⟨.closed, 0, false, 0, 0, 0, 0, 0, {}⟩
  lists := ⟨fun _ => none, fun _ => none⟩
  changed := false
  port := 0xc000
  timer := 0
  timerCtr := 0
  ticks := 0

theorem demux_orders_twoPcbs :
    ∃ u l', (twoPcbs 0 1).demux toPort53 = some (u, some 0) ∧ l'.Perm [0, 1] ∧ u.Holds l' := by
  have hudp : twoPcbsEnv.udp.Holds [0, 1] := twoPcbs_holds
  have htcp : noTcp.Lists [] [] [] := ⟨rfl, rfl, rfl, by decide, by simp⟩
  obtain ⟨hudp, -, -⟩ := demux_orders hudp htcp ⟨.nil, .nil, .nil⟩
  obtain ⟨⟨u, l', hdemux, hholds, hperm, -⟩, -⟩ := hudp toPort53
  exact ⟨u, l', hdemux, hperm, hholds⟩

theorem splitPbuf_lt : 28 < 2 ^ 16 := by decide

/-- The header of an IP packet alone in the first pbuf, of 28 bytes in all -/
def splitPbuf : Pbuf := { headerPbuf 28 0xda with totLen := 28, totLt := splitPbuf_lt }

theorem udpPbuf_lt : 8 < 2 ^ 16 := by decide

/-- The UDP header, for port 53, in a pbuf of its own -/
def udpPbuf : Pbuf where
  addr := 1
  mem := [3, 0xe8, 0, 53, 0, 8, 0, 0]
  payload := 0
  totLen := 8
  len := 8
  type := .pool
  flags := 0
  ref := 1
  inMem := by simp
  lenLt := udpPbuf_lt
  totLt := udpPbuf_lt
  refLt := oneRef_lt

/-- The pcb that is nearer to the front gets the datagram, also when the other is the one bound to its address; and
`udp_input` asserts that the UDP header is in the first pbuf. -/
theorem demux_ambiguous :
    (∃ (u u' : Udp.Stack) (e : Udp.Endpoints), u.Holds [0, 1] ∧ u.Reordered u' [0, 1] [1, 0] ∧
      ([0, 1].map fun n => ((u.pcb n).localIp, (u.pcb n).localPort, (u.pcb n).remoteIp,
        (u.pcb n).remotePort)).Nodup ∧
      (u.demux e).map Prod.snd = some (some 0) ∧ (u'.demux e).map Prod.snd = some (some 1) ∧
      (u.pcb 0).localIp.isAny ∧ (u.pcb 1).localIp = e.destIp) ∧
    ∃ env p ps, WellFormed (p :: ps) ∧ iphdrHlen (fun _ => 0) p ≤ p.len ∧
      udpInput env (fun _ => 0) 0x0a000002#32 0x0a000001#32 (p :: ps) = none := by
  refine ⟨⟨twoPcbs 0 1, twoPcbs 1 0, toPort53, twoPcbs_holds, twoPcbs_reordered, by decide, by decide,
    by decide, by decide, rfl⟩, ⟨quietEnv, splitPbuf, [udpPbuf], ⟨rfl, rfl, trivial⟩, by decide, by decide⟩⟩

end QuietLwip.Ip
