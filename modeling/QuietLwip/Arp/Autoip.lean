import QuietLwip.Arp.Output

/-!
# AutoIP

`autoip.c`, and the parts of `netif.c` that it uses.
-/

namespace QuietLwip.Arp

open Ip

def AUTOIP_TICKS_PER_SECOND : ℕ := 10
def PROBE_WAIT : ℕ := 1
def PROBE_MIN : ℕ := 1
def PROBE_MAX : ℕ := 2
def PROBE_NUM : ℕ := 3
def ANNOUNCE_NUM : ℕ := 2
def ANNOUNCE_INTERVAL : ℕ := 2
def ANNOUNCE_WAIT : ℕ := 2
def MAX_CONFLICTS : ℕ := 10
def RATE_LIMIT_INTERVAL : ℕ := 60
def DEFEND_INTERVAL : ℕ := 10

/-- 169.254.0.0 -/
def AUTOIP_NET : IpAddr := 0xa9fe0000#32
/-- 169.254.1.0 -/
def AUTOIP_RANGE_START : IpAddr := 0xa9fe0100#32
/-- 169.254.254.255 -/
def AUTOIP_RANGE_END : IpAddr := 0xa9fefeff#32

/-- `netif->hwaddr[i]`. -/
def hwbyte (a : EthAddr) (i : ℕ) : ℕ := (a >>> (40 - 8 * i)).toNat % 256

/-- `LWIP_AUTOIP_RAND`. -/
def autoipRand (hwaddr : EthAddr) (tried : ℕ) : ℕ :=
  (hwbyte hwaddr 5 * 2 ^ 24 + hwbyte hwaddr 3 * 2 ^ 16 + hwbyte hwaddr 2 * 2 ^ 8 + hwbyte hwaddr 4 +
    tried) % 2 ^ 32

/-- `ntohl(LWIP_AUTOIP_CREATE_SEED_ADDR(netif))`. -/
def autoipSeedAddr (hwaddr : EthAddr) : IpAddr :=
  AUTOIP_RANGE_START + BitVec.ofNat 32 (hwbyte hwaddr 4 + hwbyte hwaddr 5 * 2 ^ 8)

/-- The number of addresses in the range. -/
def autoipRangeSize : IpAddr := AUTOIP_RANGE_END - AUTOIP_RANGE_START + 1

/-- `autoip_create_addr`. -/
def autoipCreateAddr (hwaddr : EthAddr) (tried : ℕ) : IpAddr :=
  let addr := AUTOIP_NET ||| ((autoipSeedAddr hwaddr + BitVec.ofNat 32 tried) &&& 0xffff#32)
  let addr := if addr < AUTOIP_RANGE_START then addr + autoipRangeSize else addr
  if AUTOIP_RANGE_END < addr then addr - autoipRangeSize else addr

/-! ### `netif.c` -/

/-- `netif_set_down`. -/
def netifSetDown (w : World) (n : ℕ) : World :=
  let netif := w.netif n
  if netif.up then
    let w := w.setNetif n { netif with up := false }
    if netif.etharp then etharpCleanupNetif w n else w
  else w

/-- `netif_set_up`. -/
def netifSetUp (w : World) (tx : Tx) (n : ℕ) : World :=
  let netif := w.netif n
  if netif.up then w
  else
    let w := w.setNetif n { netif with up := true }
    if netif.linkUp && netif.etharp then (etharpRequest w tx n netif.ipAddr).1 else w

/-! ### `autoip.c` -/

def World.setAutoip (w : World) (n : ℕ) (autoip : Autoip) : World :=
  w.setNetif n { w.netif n with autoip := some autoip }

/-- `autoip_arp_probe`. -/
def autoipArpProbe (w : World) (tx : Tx) (n : ℕ) (llipaddr : IpAddr) : World :=
  let netif := w.netif n
  (etharpRaw w tx n netif.hwaddr ethbroadcast netif.hwaddr IpAddr.any ethzero llipaddr
    ARP_REQUEST).1

/-- `autoip_arp_announce`. -/
def autoipArpAnnounce (w : World) (tx : Tx) (n : ℕ) (llipaddr : IpAddr) : World :=
  let netif := w.netif n
  (etharpRaw w tx n netif.hwaddr ethbroadcast netif.hwaddr llipaddr ethzero llipaddr
    ARP_REQUEST).1

/-- `autoip_bind`. The interface has no address yet, or this one, so that `netif_set_ipaddr` finds no
connection to abort. -/
def autoipBind (w : World) (tx : Tx) (n : ℕ) (llipaddr : IpAddr) : World :=
  let w := w.emit (.bind n llipaddr)
  let w := w.setNetif n { w.netif n with ipAddr := llipaddr, netmask := 0xffff0000#32, gw := 0 }
  netifSetUp w tx n

/-- The time to wait before the first probe. -/
def probeWait (hwaddr : EthAddr) (tried : ℕ) : ℕ :=
  if MAX_CONFLICTS < tried then RATE_LIMIT_INTERVAL * AUTOIP_TICKS_PER_SECOND
  else autoipRand hwaddr tried % (PROBE_WAIT * AUTOIP_TICKS_PER_SECOND)

/-- `autoip_start_probing`, for the client `autoip` of the interface. -/
def autoipStartProbing (w : World) (n : ℕ) (autoip : Autoip) : World :=
  (w.emit (.probing n autoip.llipaddr)).setAutoip n
    { autoip with
      state := .probing
      sentNum := 0
      ttw := probeWait (w.netif n).hwaddr autoip.triedLlipaddr }

/-- `autoip_start`; `alloc` says whether there is memory for a new client. -/
def autoipStart (w : World) (alloc : Bool) (n : ℕ) : World × Err :=
  let w := netifSetDown w n
  let w := w.setNetif n { w.netif n with ipAddr := 0, netmask := 0, gw := 0 }
  match (w.netif n).autoip with
  | none =>
    if !alloc then (w, .mem)
    else
      (autoipStartProbing w n ⟨autoipCreateAddr (w.netif n).hwaddr 0, .off, 0, 0, 0, 0⟩, .ok)
  | some autoip =>
    (autoipStartProbing w n
      { autoip with
        state := .off
        ttw := 0
        sentNum := 0
        llipaddr := autoipCreateAddr (w.netif n).hwaddr autoip.triedLlipaddr
        lastconflict := 0 }, .ok)

/-- `autoip_network_changed`. -/
def autoipNetworkChanged (w : World) (n : ℕ) : World :=
  match (w.netif n).autoip with
  | none => w
  | some autoip =>
    if autoip.state = .off then w else autoipStartProbing (netifSetDown w n) n autoip

/-- `autoip_restart`. -/
def autoipRestart (w : World) (n : ℕ) (autoip : Autoip) : World :=
  (autoipStart
    (w.setAutoip n { autoip with triedLlipaddr := (autoip.triedLlipaddr + 1) % 256 }) true n).1

/-- `autoip_handle_arp_conflict`. -/
def autoipHandleArpConflict (w : World) (tx : Tx) (n : ℕ) (autoip : Autoip) : World :=
  if 0 < autoip.lastconflict then autoipRestart w n autoip
  else
    (autoipArpAnnounce w tx n autoip.llipaddr).setAutoip n
      { autoip with lastconflict := DEFEND_INTERVAL * AUTOIP_TICKS_PER_SECOND }

/-- From the start of probing to the end of `ANNOUNCE_WAIT`. -/
def Autoip.isProbing (autoip : Autoip) : Bool :=
  autoip.state = .probing ∨ autoip.state = .announcing ∧ autoip.sentNum = 0

/-- The packet comes from a host with the address, or is a probe of another host for it. -/
def conflicts (llipaddr : IpAddr) (hwaddr : EthAddr) (hdr : EtharpPacket) : Bool :=
  hdr.sipaddr = llipaddr ∨ hdr.dipaddr = llipaddr ∧ hwaddr ≠ hdr.shwaddr

/-- `autoip_arp_reply`. -/
def autoipArpReply (w : World) (tx : Tx) (n : ℕ) (hdr : EtharpPacket) : World :=
  let netif := w.netif n
  match netif.autoip with
  | none => w
  | some autoip =>
    if autoip.state = .off then w
    else if Autoip.isProbing autoip then
      if conflicts autoip.llipaddr netif.hwaddr hdr then autoipRestart w n autoip else w
    else if hdr.sipaddr = autoip.llipaddr ∧ netif.hwaddr ≠ hdr.shwaddr then
      autoipHandleArpConflict w tx n autoip
    else w

/-- The probing state of `autoip_tmr`. -/
def tmrProbing (w : World) (tx : Tx) (n : ℕ) (autoip : Autoip) : World :=
  if 0 < autoip.ttw then w.setAutoip n { autoip with ttw := autoip.ttw - 1 }
  else if PROBE_NUM ≤ autoip.sentNum then
    w.setAutoip n
      { autoip with
        state := .announcing
        sentNum := 0
        ttw := ANNOUNCE_WAIT * AUTOIP_TICKS_PER_SECOND }
  else
    -- what `autoip_arp_probe` returns is not looked at
    (autoipArpProbe w tx n autoip.llipaddr).setAutoip n
      { autoip with
        sentNum := autoip.sentNum + 1
        ttw := autoipRand (w.netif n).hwaddr autoip.triedLlipaddr %
          ((PROBE_MAX - PROBE_MIN) * AUTOIP_TICKS_PER_SECOND) + PROBE_MIN * AUTOIP_TICKS_PER_SECOND }

/-- The announcing state of `autoip_tmr`. -/
def tmrAnnouncing (w : World) (tx : Tx) (n : ℕ) (autoip : Autoip) : World :=
  if 0 < autoip.ttw then w.setAutoip n { autoip with ttw := autoip.ttw - 1 }
  else
    let w := if autoip.sentNum = 0 then autoipBind w tx n autoip.llipaddr
      else autoipArpAnnounce w tx n autoip.llipaddr
    if ANNOUNCE_NUM ≤ autoip.sentNum + 1 then
      w.setAutoip n { autoip with state := .bound, sentNum := 0, ttw := 0 }
    else
      w.setAutoip n
        { autoip with
          sentNum := autoip.sentNum + 1
          ttw := ANNOUNCE_INTERVAL * AUTOIP_TICKS_PER_SECOND }

/-- The body of the loop of `autoip_tmr`. -/
def autoipTmrNetif (tx : ℕ → Tx) (w : World) (n : ℕ) : World :=
  match (w.netif n).autoip with
  | none => w
  | some a =>
    let autoip := { a with lastconflict := a.lastconflict - 1 }
    match autoip.state with
    | .probing => tmrProbing w (tx n) n autoip
    | .announcing => tmrAnnouncing w (tx n) n autoip
    | .off | .bound => w.setAutoip n autoip

/-- `autoip_tmr`. -/
def autoipTmr (w : World) (tx : ℕ → Tx) : World :=
  w.netifList.foldl (autoipTmrNetif tx) (w.emit .tick)

end QuietLwip.Arp
