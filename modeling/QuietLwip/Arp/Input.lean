import QuietLwip.Arp.Autoip
import QuietLwip.Foundation.Transition

/-!
# Received ARP packets, and runs of the ARP module

`etharp_arp_input` of `etharp.c`, and the system in which any of the module's functions may be
called at any time, on any interface and for any address.
-/

namespace QuietLwip.Arp

open Buffers Ip QuietLwip.Transition

def SIZEOF_ETHARP_PACKET : ℕ := 42

/-- The packet passes the checks of RFC 826. -/
def EtharpPacket.wellFormed (hdr : EtharpPacket) : Bool :=
  hdr.hwtype = HWTYPE_ETHERNET ∧ hdr.hwlen = ETHARP_HWADDR_LEN ∧ hdr.protolen = 4 ∧
    hdr.proto = ETHTYPE_IP

/-- The ARP packet is directed to the address of the interface. -/
def forUs (netif : Netif) (hdr : EtharpPacket) : Bool :=
  !netif.ipAddr.isAny && hdr.dipaddr == netif.ipAddr

/-- The request, turned into the reply. -/
def arpReply (netif : Netif) (hdr : EtharpPacket) : EtharpPacket :=
  { hdr with
    ethDest := if isLinkLocal netif.ipAddr then ethbroadcast else hdr.shwaddr
    ethSrc := netif.hwaddr
    opcode := ARP_REPLY
    shwaddr := netif.hwaddr
    sipaddr := netif.ipAddr
    dhwaddr := hdr.shwaddr
    dipaddr := hdr.sipaddr }

/-- What follows the checks of `etharp_arp_input`. -/
def arpProcess (w : World) (tx : Tx) (n : ℕ) (hdr : EtharpPacket) : Except Fault World := do
  let w := autoipArpReply (w.emit (.arpInput n hdr)) tx n hdr
  let forUs := forUs (w.netif n) hdr
  let (w, _) ← etharpUpdateArpEntry w n hdr.sipaddr hdr.shwaddr
    (if forUs then ETHARP_FLAG_TRY_HARD else ETHARP_FLAG_FIND_ONLY)
  if hdr.opcode = ARP_REQUEST ∧ forUs then
    .ok (w.emit (.arp n (arpReply (w.netif n) hdr) (tx.linkoutput = .ok)))
  else .ok w

/-- `etharp_arp_input`, as `ethernet_input` calls it, for a packet whose first pbuf is `len` bytes
long. -/
def etharpArpInput (w : World) (tx : Tx) (n len : ℕ) (hdr : EtharpPacket) : Except Fault World :=
  if (w.netif n).etharp ∧ SIZEOF_ETHARP_PACKET ≤ len ∧ hdr.wellFormed then arpProcess w tx n hdr
  else .ok w

/-! ### Runs -/

inductive Op where
  | arpInput (tx : Tx) (n len : ℕ) (hdr : EtharpPacket)
  | query (env : QueryEnv) (n : ℕ) (ipaddr : IpAddr) (q : Option (List Pbuf))
  | output (env : QueryEnv) (outside : ℕ → UInt8) (n : ℕ) (q : List Pbuf) (ipaddr : IpAddr)
  | etharpTmr
  | addStatic (route : Option ℕ) (ipaddr : IpAddr) (ethaddr : EthAddr)
  | removeStatic (ipaddr : IpAddr)
  | cleanup (n : ℕ)
  | autoipStart (alloc : Bool) (n : ℕ)
  | autoipNetworkChanged (n : ℕ)
  | autoipTmr (tx : ℕ → Tx)
  /-- any other change of an interface, and of the list of interfaces -/
  | configure (n : ℕ) (netif : Netif) (netifs : List ℕ)

def Op.exec (w : World) : Op → Except Fault World
  | .arpInput tx n len hdr => etharpArpInput w tx n len hdr
  | .query env n ipaddr q => Prod.fst <$> etharpQuery w env n ipaddr q
  | .output env outside n q ipaddr => Prod.fst <$> etharpOutput w env outside n q ipaddr
  | .etharpTmr => .ok (Arp.etharpTmr w)
  | .addStatic route ipaddr ethaddr => Prod.fst <$> etharpAddStaticEntry w route ipaddr ethaddr
  | .removeStatic ipaddr => Prod.fst <$> etharpRemoveStaticEntry w ipaddr
  | .cleanup n => .ok (etharpCleanupNetif w n)
  | .autoipStart alloc n => .ok (Arp.autoipStart w alloc n).1
  | .autoipNetworkChanged n => .ok (Arp.autoipNetworkChanged w n)
  | .autoipTmr tx => .ok (Arp.autoipTmr w tx)
  | .configure n netif netifs => .ok { w.setNetif n netif with netifList := netifs }

/-- The empty table, on any interfaces. -/
structure World.Start (w : World) : Prop where
  table : ∀ i, (w.table i).state = .empty ∧ (w.table i).q = none
  tickets : w.tickets = 0
  log : w.log = []

def arp : System World Op where
  start := World.Start
  step w op w' := op.exec w = .ok w'

end QuietLwip.Arp
