import Mathlib.Data.BitVec
import Mathlib.Data.Option.Basic

/-!
# Addresses and interfaces

An IPv4 address is the number that its four bytes are in network order; the address 0 is
`IP_ADDR_ANY`. An interface is kept with what the IP layer, ARP and AutoIP read of it.
-/

namespace QuietLwip.Ip

abbrev IpAddr := BitVec 32

/-- A hardware address, its first byte in front. -/
abbrev EthAddr := BitVec 48

namespace IpAddr

/-- `IP_ADDR_ANY`. -/
def any : IpAddr := 0

/-- `ip_addr_isany`. -/
def isAny (a : IpAddr) : Bool := a == any

/-- `ip_addr_netcmp`. -/
def netcmp (a b mask : IpAddr) : Bool := a &&& mask == b &&& mask

/-- `ip_addr_ismulticast`. -/
def isMulticast (a : IpAddr) : Bool := a &&& 0xf0000000#32 == 0xe0000000#32

end IpAddr

inductive AutoipState where
  | off | probing | announcing | bound
  deriving DecidableEq, Repr

/-- `struct autoip`. -/
structure Autoip where
  llipaddr : IpAddr
  state : AutoipState
  sentNum : ℕ
  ttw : ℕ
  lastconflict : ℕ
  triedLlipaddr : ℕ
  deriving DecidableEq, Repr

/-- `struct netif`. -/
structure Netif where
  ipAddr : IpAddr
  netmask : IpAddr
  gw : IpAddr
  hwaddr : EthAddr
  mtu : ℕ
  -- `NETIF_FLAG_UP`, `NETIF_FLAG_LINK_UP`, `NETIF_FLAG_BROADCAST`, `NETIF_FLAG_ETHARP`
  up : Bool
  linkUp : Bool
  broadcast : Bool
  etharp : Bool
  autoip : Option Autoip
  deriving DecidableEq, Repr

/-- `ip_addr_isbroadcast`. -/
def IpAddr.isBroadcast (addr : IpAddr) (netif : Netif) : Bool :=
  -- all ones, or all zeroes
  if ~~~addr == any || addr == any then true
  else if !netif.broadcast then false
  else if addr == netif.ipAddr then false
  else addr.netcmp netif.ipAddr netif.netmask && addr &&& ~~~netif.netmask == ~~~netif.netmask

end QuietLwip.Ip
