import QuietLwip.Ip.Checksum
import QuietLwip.Udp.Pcbs

/-!
# Received IP packets

`ip_input` of `ip.c`, from the checks of the header to the hand-over to the upper layers, `raw_input`
of `raw.c` and `udp_input` of `udp.c`. The header is read from the memory behind the payload pointer
of the first pbuf, also where the pbuf ends before the header does. A function is `none` when it
aborts the process.
-/

namespace QuietLwip.Ip

open Buffers Udp

/-- A raw pcb; `recv` is the answer of its callback, which eats the packet or does not. -/
structure RawPcb where
  protocol : ℕ
  localIp : IpAddr
  recv : Option Bool

/-- What the packet meets. -/
structure Env where
  -- `netif_list`, and the interface the packet came in on
  netifs : List Netif
  inp : Netif
  raw : List RawPcb
  udp : Udp.Stack
  -- what `ip_reass` returns
  reass : List Pbuf → Option (List Pbuf)
  -- whether there is memory for an ICMP message
  alloc : Bool
  -- which payloads begin at an odd address
  odd : Pbuf → Bool

/-! ### The header -/

/-- The byte `i` behind the payload pointer; `outside` is what lies behind the memory of the pbuf. -/
def peek (outside : ℕ → UInt8) (p : Pbuf) (i : ℕ) : UInt8 :=
  p.mem.getD (p.payload + i) (outside (p.payload + i))

def peekWord (outside : ℕ → UInt8) (p : Pbuf) (i : ℕ) : ℕ :=
  256 * (peek outside p i).toNat + (peek outside p (i + 1)).toNat

def peekAddr (outside : ℕ → UInt8) (p : Pbuf) (i : ℕ) : IpAddr :=
  BitVec.ofNat 32 (65536 * peekWord outside p i + peekWord outside p (i + 2))

variable (outside : ℕ → UInt8) (p : Pbuf)

/-- `IPH_V`. -/
def iphV : ℕ := (peek outside p 0).toNat / 16

/-- The length of the header, `IPH_HL(iphdr) * 4`. -/
def iphdrHlen : ℕ := (peek outside p 0).toNat % 16 * 4

/-- `ntohs(IPH_LEN(iphdr))`. -/
def iphdrLen : ℕ := peekWord outside p 2

/-- `(IPH_OFFSET(iphdr) & PP_HTONS(IP_OFFMASK | IP_MF)) != 0`. -/
def iphFragment : Bool := peekWord outside p 6 % 0x4000 != 0

/-- `IPH_PROTO`. -/
def iphProto : ℕ := (peek outside p 9).toNat

def iphSrc : IpAddr := peekAddr outside p 12

def iphDest : IpAddr := peekAddr outside p 16

/-- The bytes that `inet_chksum(iphdr, iphdr_hlen)` reads. -/
def iphBytes : List UInt8 := (List.range (iphdrHlen outside p)).map (peek outside p)

/-! ### `ip_input` -/

/-- The interface takes packets for this address. -/
def Netif.accepts (netif : Netif) (dest : IpAddr) : Bool :=
  netif.up && !netif.ipAddr.isAny &&
    (dest == netif.ipAddr || dest.isBroadcast netif ||
      netif.autoip.any fun autoip => dest == autoip.llipaddr)

/-- The interface that a packet for this address is for: the one it came in on is tried first. -/
def Env.matchNetif (env : Env) (dest : IpAddr) : Option Netif :=
  (env.inp :: env.netifs.filter (· ≠ env.inp)).find? fun netif => netif.accepts dest

/-- `raw_input`: whether the packet is eaten. -/
def rawInput (pcbs : List RawPcb) (proto : ℕ) (dest : IpAddr) : Bool :=
  pcbs.any fun pcb => pcb.protocol == proto && (pcb.localIp.isAny || pcb.localIp == dest) &&
    pcb.recv == some true

/-- What is done with a packet: a function that gets it, `pbuf_free`, or `icmp_dest_unreach` for it. -/
inductive Action where
  | ipReass (c : List Pbuf)
  | rawInput (c : List Pbuf)
  | udpInput (c : List Pbuf)
  | tcpInput (c : List Pbuf)
  | icmpInput (c : List Pbuf)
  | destUnreach (c : List Pbuf)
  | free (c : List Pbuf)
  deriving DecidableEq

/-- The last part of `ip_input`: a packet for the address `dest` is passed to the upper layers. -/
def ipDeliver (env : Env) (outside : ℕ → UInt8) (dest : IpAddr) (c : List Pbuf) : List Action :=
  match c with
  | [] => []
  | p :: _ =>
    let proto := iphProto outside p
    if rawInput env.raw proto dest then [.rawInput c]
    else if proto = 17 then [.rawInput c, .udpInput c]
    else if proto = 6 then [.rawInput c, .tcpInput c]
    else if proto = 1 then [.rawInput c, .icmpInput c]
    else if !dest.isBroadcast env.inp && !dest.isMulticast then
      [.rawInput c, .destUnreach c, .free c]
    else [.rawInput c, .free c]

/-- `ip_input`. -/
def ipInput (env : Env) (outside : ℕ → UInt8) (c : List Pbuf) : Option (List Action) :=
  match c with
  | [] => none
  | p :: _ =>
    if iphV outside p ≠ 4 then some [.free c]
    else if iphdrHlen outside p > p.len ∨ iphdrLen outside p > p.totLen then some [.free c]
    else if inetChksum (env.odd p) (iphBytes outside p) ≠ 0 then some [.free c]
    else (pbufRealloc c (iphdrLen outside p)).map fun (c, _) =>
      let src := iphSrc outside p
      let dest := iphDest outside p
      -- a source that is a broadcast or a multicast address is not valid
      if src.isBroadcast env.inp || src.isMulticast then [.free c]
      else if env.matchNetif dest = none then [.free c]
      else if iphFragment outside p then
        .ipReass c :: (env.reass c).elim [] (ipDeliver env outside dest)
      else ipDeliver env outside dest c

/-! ### `udp_input` -/

/-- What `udp_input` does with a packet. -/
inductive UdpAction where
  | recv (n : ℕ) (c : List Pbuf)
  | destUnreach (c : List Pbuf)
  | free (c : List Pbuf)
  deriving DecidableEq

/-- `udp_input`, for a packet between these addresses. -/
def udpInput (env : Env) (outside : ℕ → UInt8) (src dest : IpAddr) (c : List Pbuf) :
    Option (List UdpAction) :=
  match c with
  | [] => none
  | p :: _ =>
    let hlen := iphdrHlen outside p
    if p.totLen < hlen + 8 then some [.free c]
    else (pbufHeader c (-hlen)).bind fun (_, c) =>
      match c with
      | [] => none
      | q :: _ =>
        let e : Endpoints :=
          { src := peekWord outside q 0, dest := peekWord outside q 2, srcIp := src, destIp := dest
            inp := env.inp }
        (env.udp.demux e).bind fun (_, pcb) =>
          if pcb.isSome || env.inp.ipAddr == dest then
            if peekWord outside q 6 ≠ 0 ∧
                inetChksumPseudo env.odd c src dest 17 q.totLen ≠ 0 then some [.free c]
            else (pbufHeader c (-8)).bind fun (_, c) =>
              match pcb with
              | some n => some [.recv n c]
              | none =>
                if !dest.isBroadcast env.inp && !dest.isMulticast then
                  (pbufHeader c (hlen + 8)).map fun (_, c) => [.destUnreach c, .free c]
                else some [.free c]
          else some [.free c]

end QuietLwip.Ip
