import QuietLwip.Arp.Table
import QuietLwip.Ip.Input

/-!
# Sending through ARP

`etharp_raw`, `etharp_request`, `etharp_query` and `etharp_output` of `etharp.c`. What the memory
and the interface answer is given with each call.
-/

namespace QuietLwip.Arp

open Buffers Ip

def HWTYPE_ETHERNET : ℕ := 1
def ETHTYPE_IP : ℕ := 0x0800
def ETHARP_HWADDR_LEN : ℕ := 6
def ARP_REQUEST : ℕ := 1
def ARP_REPLY : ℕ := 2

def ethbroadcast : EthAddr := 0xffffffffffff#48
def ethzero : EthAddr := 0

/-- `ip_addr_islinklocal`. -/
def isLinkLocal (a : IpAddr) : Bool := a &&& 0xffff0000#32 == 0xa9fe0000#32

/-- What one transmission meets: whether there is a pbuf for it, and what `linkoutput` returns. -/
structure Tx where
  alloc : Bool
  linkoutput : Err
  deriving DecidableEq

/-! ### ARP packets -/

/-- `etharp_raw`. -/
def etharpRaw (w : World) (tx : Tx) (n : ℕ) (ethsrc ethdst hwsrc : EthAddr) (ipsrc : IpAddr)
    (hwdst : EthAddr) (ipdst : IpAddr) (opcode : ℕ) : World × Err :=
  if !tx.alloc then (w, .mem)
  else
    (w.emit (.arp n
      { ethDest := if isLinkLocal ipsrc then ethbroadcast else ethdst
        ethSrc := ethsrc
        hwtype := HWTYPE_ETHERNET
        proto := ETHTYPE_IP
        hwlen := ETHARP_HWADDR_LEN
        protolen := 4
        opcode := opcode
        shwaddr := hwsrc
        sipaddr := ipsrc
        dhwaddr := hwdst
        dipaddr := ipdst } (tx.linkoutput = .ok)), tx.linkoutput)

/-- `etharp_request`. -/
def etharpRequest (w : World) (tx : Tx) (n : ℕ) (ipaddr : IpAddr) : World × Err :=
  let netif := w.netif n
  etharpRaw w tx n netif.hwaddr ethbroadcast netif.hwaddr netif.ipAddr ethzero ipaddr ARP_REQUEST

/-! ### Keeping a packet -/

/-- The loop over the pbufs of a packet: the `tot_len` of the first one that has to be copied. -/
def copyNeeded : List Pbuf → Except Fault (Option ℕ)
  | [] => .ok none
  | p :: ps =>
    if p.len = p.totLen ∧ ps ≠ [] then .error .etharp
    else if p.type ≠ .rom then .ok (some p.totLen)
    else copyNeeded ps

/-- A packet queue: a further packet follows this pbuf. -/
def isQueue : List Pbuf → Bool
  | p :: _ :: _ => p.len = p.totLen
  | _ => false

/-- The loop of `pbuf_copy` into a single pbuf of `toLen` bytes, `offsetTo` of them written. -/
def copyLoop (toLen offsetTo : ℕ) : List Pbuf → Except Fault (List UInt8)
  | [] => .ok []
  | p :: ps =>
    -- a pbuf that does not fit leaves no target for its rest
    if toLen < offsetTo + p.len then .error .called
    else if offsetTo + p.len = toLen ∧ ps ≠ [] ∨ isQueue ps then .error .called
    else (p.data ++ ·) <$> copyLoop toLen (offsetTo + p.len) ps

/-- `pbuf_copy` into a pbuf of `toLen` bytes. -/
def pbufCopy (toLen : ℕ) (q : List Pbuf) : Except Fault (List UInt8) :=
  if toLen < totLen q then .error .called else copyLoop toLen 0 q

/-- A reference to the packet, or a copy of it in the memory at `copyAt`. -/
def takeOver (copyAt : Option ℕ) (q : List Pbuf) : Except Fault (Option Packet) := do
  match ← copyNeeded q with
  | none => .ok (some (.byRef (pbufRef q)))
  | some len =>
    match copyAt with
    | none => .ok none
    | some addr => (fun data => some (.copy addr data)) <$> pbufCopy len q

/-- The packet replaces the one that the entry owns. -/
def World.hold (w : World) (n : ℕ) (i : Index) (q : List Pbuf) (packet : Packet) : World :=
  let e := w.table i
  let w := (w.freeHeld e.q).setEntry i { e with q := some ⟨packet, w.tickets, n⟩ }
  { w with tickets := w.tickets + 1 }.emit (.queued w.tickets n e.ipaddr q packet)

/-! ### `etharp_query` -/

structure QueryEnv where
  -- the ARP request, and the packet itself
  request : Tx
  linkoutput : Err
  -- memory for a copy
  copyAt : Option ℕ

/-- A fresh entry is marked pending. -/
def World.markPending (w : World) (n : ℕ) (i : Index) : World :=
  if (w.table i).state = .empty then
    w.setEntry i { w.table i with state := .pending, askedOn := n }
  else w

/-- A pending entry is asked for once more, and so is any entry when there is no packet. -/
def queryRequest (w : World) (env : QueryEnv) (n : ℕ) (i : Index) (ipaddr : IpAddr)
    (noPacket : Bool) : World × Err :=
  if (w.table i).state = .pending ∨ noPacket then etharpRequest w env.request n ipaddr
  else (w, .mem)

/-- The packet is sent to a stable entry, and kept by a pending one. -/
def queryPacket (w : World) (env : QueryEnv) (n : ℕ) (i : Index) (q : List Pbuf) :
    Except Fault (World × Err) :=
  if (w.table i).state.isStable then
    .ok ((w.setHint i).emit (.output n (w.table i).ethaddr q), env.linkoutput)
  else
    match takeOver env.copyAt q with
    | .error fault => .error fault
    | .ok none => .ok (w, .mem)
    | .ok (some packet) => .ok (w.hold n i q packet, .ok)

/-- What follows once there is an entry. -/
def queryEntry (w : World) (env : QueryEnv) (n : ℕ) (i : Index) (ipaddr : IpAddr)
    (q : Option (List Pbuf)) : Except Fault (World × Err) :=
  let r := queryRequest (w.markPending n i) env n i ipaddr q.isNone
  match q with
  | none => .ok r
  | some q => queryPacket r.1 env n i q

/-- `etharp_query`. -/
def etharpQuery (w : World) (env : QueryEnv) (n : ℕ) (ipaddr : IpAddr) (q : Option (List Pbuf)) :
    Except Fault (World × Err) :=
  if !isUnicast ipaddr (w.netif n) then .ok (w, .arg)
  else do
    match ← etharpFindEntry w ipaddr ETHARP_FLAG_TRY_HARD with
    | (w, none) => .ok (w, .mem)
    | (w, some i) => queryEntry w env n i ipaddr q

/-! ### `etharp_output` -/

/-- An entry about to expire is asked for again. -/
def rerequest (w : World) (tx : Tx) (n : ℕ) (i : Index) : World :=
  let e := w.table i
  if e.state = .stable ∧ ARP_AGE_REREQUEST_USED ≤ e.ctime then
    let r := etharpRequest w tx n e.ipaddr
    if r.2 = .ok then r.1.setEntry i { e with state := .stableRerequesting } else r.1
  else w

/-- `etharp_output_to_arp_index`. -/
def etharpOutputToArpIndex (w : World) (env : QueryEnv) (n : ℕ) (q : List Pbuf) (i : Index) :
    Except Fault (World × Err) :=
  if !(w.table i).state.isStable then .error .etharp
  else .ok ((rerequest w env.request n i).emit (.output n (w.table i).ethaddr q), env.linkoutput)

/-- The hardware address of an IP multicast group. -/
def multicastAddr (ipaddr : IpAddr) : EthAddr :=
  0x01005e000000#48 ||| (ipaddr &&& 0x007fffff#32).setWidth 48

/-- The next hop of a unicast packet; `none` when there is no gateway. -/
def nextHop (netif : Netif) (ipaddr src : IpAddr) : Option IpAddr :=
  if !ipaddr.netcmp netif.ipAddr netif.netmask && !isLinkLocal ipaddr && !isLinkLocal src then
    if !netif.gw.isAny then some netif.gw else none
  else some ipaddr

/-- The first stable entry for an address, the cached one before the others. -/
def stableEntry (w : World) (ipaddr : IpAddr) : Option Index :=
  (w.etharpCachedEntry :: List.finRange ARP_TABLE_SIZE).find? fun i =>
    (w.table i).state.isStable && ipaddr == (w.table i).ipaddr

/-- `etharp_output`; `outside` is the memory behind that of a pbuf. -/
def etharpOutput (w : World) (env : QueryEnv) (outside : ℕ → UInt8) (n : ℕ) (q : List Pbuf)
    (ipaddr : IpAddr) : Except Fault (World × Err) :=
  match pbufHeader q PBUF_LINK_HLEN with
  | none => .error .called
  | some (0, []) => .error .called
  | some (0, p :: ps) =>
    if ipaddr.isBroadcast (w.netif n) then
      .ok (w.emit (.output n ethbroadcast (p :: ps)), env.linkoutput)
    else if ipaddr.isMulticast then
      .ok (w.emit (.output n (multicastAddr ipaddr) (p :: ps)), env.linkoutput)
    else
      -- the source address of the IP header behind the Ethernet header
      match nextHop (w.netif n) ipaddr (peekAddr outside p (PBUF_LINK_HLEN + 12)) with
      | none => .ok (w, .rte)
      | some hop =>
        match stableEntry w hop with
        | some i => etharpOutputToArpIndex (w.setHint i) env n (p :: ps) i
        | none => etharpQuery w env n hop (some (p :: ps))
  | some (_ + 1, _) => .ok (w, .buf)

end QuietLwip.Arp
