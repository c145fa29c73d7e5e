import QuietLwip.Foundation.Links
import QuietLwip.Ip.Address

/-!
# The UDP protocol control blocks

The functions of `udp.c` that touch the pcbs and the list `udp_pcbs`, which is threaded through a
field of the pcbs. A function is `none` when it does not return: a search in the list does not
end, or an assertion has aborted the process.
-/

namespace QuietLwip.Udp

open Links Ip

/-- `struct udp_pcb`. -/
structure UdpPcb where
  localIp : IpAddr := 0
  localPort : ℕ := 0
  remoteIp : IpAddr := 0
  remotePort : ℕ := 0
  -- `UDP_FLAGS_CONNECTED`, `UDP_FLAGS_NOCHKSUM`
  connected : Bool := false
  noChksum : Bool := false
  -- `SOF_REUSEADDR`
  reuseaddr : Bool := false
  deriving DecidableEq, Repr

/-- The results of the functions that can fail. -/
inductive Err where
  | ok | use | rte
  deriving DecidableEq, Repr

/-- `MEMP_NUM_UDP_PCB`. -/
def mempNumUdpPcb : ℕ := 4

def udpLocalPortRangeStart : ℕ := 0xc000

def udpLocalPortRangeEnd : ℕ := 0xffff

/-- What `udp_input` looks for: where a datagram comes from and goes to, and the interface. -/
structure Endpoints where
  src : ℕ
  dest : ℕ
  srcIp : IpAddr
  destIp : IpAddr
  inp : Netif

/-- The address and the port of the pcb are those that the datagram goes to. -/
def localMatch (e : Endpoints) (pcb : UdpPcb) : Bool :=
  let broadcast := e.destIp.isBroadcast e.inp
  pcb.localPort == e.dest &&
    (!broadcast && pcb.localIp.isAny || pcb.localIp == e.destIp ||
      broadcast && (pcb.localIp.isAny || pcb.localIp.netcmp e.destIp e.inp.netmask))

/-- The pcb is connected to where the datagram comes from. -/
def fullMatch (e : Endpoints) (pcb : UdpPcb) : Bool :=
  localMatch e pcb && pcb.remotePort == e.src &&
    (pcb.remoteIp.isAny || pcb.remoteIp == e.srcIp)

/-- The pcbs of the pool, the list of those that are bound and the last ephemeral port. -/
structure Stack where
  live : ℕ → Bool
  pcb : ℕ → UdpPcb
  next : ℕ → Option ℕ
  -- `udp_pcbs`
  pcbs : Option ℕ
  -- `udp_port`
  port : ℕ

namespace Stack

def modify (n : ℕ) (f : UdpPcb → UdpPcb) (t : Stack) : Stack :=
  { t with pcb := Function.update t.pcb n (f (t.pcb n)) }

/-- `pcb->next = udp_pcbs; udp_pcbs = pcb`. -/
def insert (n : ℕ) (t : Stack) : Stack :=
  { t with next := Function.update t.next n t.pcbs, pcbs := some n }

/-- The first pcb of the list that satisfies `p`, and the one in front of it. -/
def find (t : Stack) (p : UdpPcb → Bool) : Option (Option (Option ℕ × ℕ)) :=
  findFrom t.next (fun n => p (t.pcb n)) mempNumUdpPcb none t.pcbs

/-! ### Ephemeral ports -/

/-- `udp_port++`, back to the start of the range behind its end. -/
def nextPort (port : ℕ) : ℕ :=
  if port = udpLocalPortRangeEnd then udpLocalPortRangeStart else port + 1

/-- The search of `udp_new_port`, with `tries` ports to try: the port, 0 when there is none, and
`udp_port`. -/
def newPortFrom (t : Stack) : ℕ → ℕ → Option (ℕ × ℕ)
  | 0, port => some (0, port)
  | tries + 1, port =>
    (t.find fun pcb => pcb.localPort == nextPort port).bind fun found =>
      if found.isSome then t.newPortFrom tries (nextPort port)
      else some (nextPort port, nextPort port)

/-- `udp_new_port`. -/
def udpNewPort (t : Stack) : Option (ℕ × Stack) :=
  (t.newPortFrom (udpLocalPortRangeEnd - udpLocalPortRangeStart + 1) t.port).map
    fun (answer, port) => (answer, { t with port := port })

/-! ### Binding -/

/-- The addresses are the same, or one of them is any. -/
def overlap (a b : IpAddr) : Bool := a.isAny || b.isAny || a == b

/-- The loop of `udp_bind` over the pcbs from `cursor` on: whether the pcb is on the list, `ERR_USE`
when another one holds the address and the port. -/
def bindScan (t : Stack) (n : ℕ) (ip : IpAddr) (port : ℕ) :
    ℕ → Option ℕ → Bool → Option (Except Err Bool)
  | _, none, rebind => some (.ok rebind)
  | 0, some _, _ => none
  | fuel + 1, some m, rebind =>
    if n = m then
      -- `LWIP_ASSERT("rebind == 0", rebind == 0)`
      if rebind then none else t.bindScan n ip port fuel (t.next m) true
    else if !(t.pcb n).reuseaddr && !(t.pcb m).reuseaddr then
      if (t.pcb m).localPort = port && overlap (t.pcb m).localIp ip then some (.error .use)
      else t.bindScan n ip port fuel (t.next m) rebind
    else t.bindScan n ip port fuel (t.next m) rebind

/-- `pcb->local_port = port`, and onto the list unless it is there. -/
def bindTo (n port : ℕ) (rebind : Bool) (t : Stack) : Stack :=
  let t := t.modify n fun pcb => { pcb with localPort := port }
  if rebind then t else t.insert n

/-- `udp_bind`. -/
def udpBind (t : Stack) (n : ℕ) (ip : IpAddr) (port : ℕ) : Option (Stack × Err) :=
  (t.bindScan n ip port mempNumUdpPcb t.pcbs false).bind fun scan =>
    match scan with
    | .error err => some (t, err)
    | .ok rebind =>
      let t := t.modify n fun pcb => { pcb with localIp := ip }
      if port = 0 then
        t.udpNewPort.map fun (port, t) =>
          if port = 0 then (t, .use) else (t.bindTo n port rebind, .ok)
      else some (t.bindTo n port rebind, .ok)

/-- Binding to any port, unless the pcb has one. -/
def bindImplicitly (t : Stack) (n : ℕ) : Option (Stack × Err) :=
  if (t.pcb n).localPort = 0 then t.udpBind n (t.pcb n).localIp (t.pcb n).localPort
  else some (t, .ok)

/-- `udp_connect`. -/
def udpConnect (t : Stack) (n : ℕ) (ip : IpAddr) (port : ℕ) : Option (Stack × Err) :=
  (t.bindImplicitly n).bind fun (t, err) =>
    if err = .ok then
      let t := t.modify n fun pcb =>
        { pcb with remoteIp := ip, remotePort := port, connected := true }
      (findFrom t.next (fun m => n == m) mempNumUdpPcb none t.pcbs).map fun found =>
        (if found.isSome then t else t.insert n, .ok)
    else some (t, err)

/-- `udp_sendto`, up to the packet: there is a route, and the pcb is bound. -/
def udpSendto (t : Stack) (n : ℕ) (route : Bool) : Option (Stack × Err) :=
  if route then t.bindImplicitly n else some (t, .rte)

/-- `udp_disconnect`. -/
def udpDisconnect (t : Stack) (n : ℕ) : Stack :=
  t.modify n fun pcb => { pcb with remoteIp := .any, remotePort := 0, connected := false }

/-! ### Creation and removal -/

/-- `udp_new`; the pool may give an element that is not in use. -/
def udpNew (t : Stack) (answer : Option ℕ) : Stack :=
  match answer.filter fun n => n < mempNumUdpPcb && !t.live n with
  | none => t
  | some n =>
    { t with
      live := Function.update t.live n true
      pcb := Function.update t.pcb n {}
      next := Function.update t.next n none }

/-- The loop of `udp_remove`: what points to the pcb points behind it. -/
def removeFrom (n : ℕ) : ℕ → (ℕ → Option ℕ) → Option ℕ → Option (ℕ → Option ℕ)
  | _, next, none => some next
  | 0, _, some _ => none
  | fuel + 1, next, some m =>
    let next := if next m = some n then Function.update next m (next n) else next
    removeFrom n fuel next (next m)

def unlink (t : Stack) (n : ℕ) : Option Stack :=
  if t.pcbs = some n then some { t with pcbs := t.next n }
  else (removeFrom n mempNumUdpPcb t.next t.pcbs).map fun next => { t with next := next }

/-- `udp_remove`. -/
def udpRemove (t : Stack) (n : ℕ) : Option Stack :=
  (t.unlink n).map fun t => { t with live := Function.update t.live n false }

/-! ### Datagrams -/

/-- The pcb that gets the datagram: a full match moves to the front of the list, and without one
it is the first pcb that matches and is not connected. -/
def demux (t : Stack) (e : Endpoints) : Option (Stack × Option ℕ) :=
  (t.find (fullMatch e)).bind fun found =>
    match found with
    | some (some prev, n) =>
      some ({ t with
        next := Function.update (Function.update t.next prev (t.next n)) n t.pcbs
        pcbs := some n }, some n)
    | some (none, n) => some (t, some n)
    | none =>
      (t.find fun pcb => localMatch e pcb && !pcb.connected).map fun uncon =>
        (t, uncon.map Prod.snd)

end Stack

end QuietLwip.Udp
