import QuietLwip.Ip.Output
import QuietLwip.Udp.Lists

/-!
# Datagrams that are sent

The way of a datagram from `lwip_sendto` of `sockets.c` through `netbuf_ref`, `do_send` of `api_msg.c`
and `udp_sendto` of `udp.c` to `ip_output_if`. The header of UDP goes into the first pbuf of the
data where there is room for it, and otherwise into a pbuf of its own that the data is chained to. A
function is `none` when it does not return.
-/

namespace QuietLwip.Udp

open Buffers Ip

/-- The error as an `err_t`. -/
def Err.errT : Err → ErrT
  | .ok => .ok
  | .use => .use
  | .rte => .rte

/-- What a datagram meets on its way out. -/
structure Sender where
  -- `netif_list` and `netif_default`
  netifs : List Netif
  netifDefault : Option Netif
  stack : Stack
  -- `pcb->ttl` and `pcb->tos` of each pcb
  ttl : ℕ → UInt8
  tos : ℕ → UInt8
  -- `ip_id`
  ipId : ℕ
  -- what `mem_malloc` answers for a header, and `memp_malloc` for a `PBUF_REF`
  block : Option (RamBlock (layerOffset .ip + 8))
  elem : Option ℕ
  -- which payloads begin at an odd address
  odd : Pbuf → Bool

/-- The `struct udp_hdr`. -/
def udpHdr (src dest len chksum : ℕ) : List UInt8 :=
  netWord src ++ netWord dest ++ netWord len ++ memWord chksum

/-- The packet with room for the header: in the first pbuf, or in a pbuf in front of it, with the
data behind it unless there is none. -/
def addHeader (block : Option (RamBlock (layerOffset .ip + 8))) (p : List Pbuf) :
    Option (Except ErrT (List Pbuf)) :=
  (pbufHeader p 8).bind fun (failed, p) =>
    if failed = 0 then some (.ok p)
    else
      match pbufAllocRam .ip 8 (by decide) block with
      | none => some (.error .mem)
      | some q => if totLen p ≠ 0 then (pbufChain [q] p).map .ok else some (.ok [q])

/-- `inet_chksum_pseudo` of the packet; zero must become 0xffff, as zero means no checksum. -/
def udpChksum (odd : Pbuf → Bool) (c : List Pbuf) (src dest : IpAddr) : ℕ :=
  let chksum := inetChksumPseudo odd c src dest 17 (totLen c)
  if chksum = 0 then 0xffff else chksum

namespace Sender

/-- `udp_sendto_if` up to `ip_output_if`: the packet that is handed to it. -/
def udpPacket (s : Sender) (n : ℕ) (p : List Pbuf) (dstIp : IpAddr) (dstPort : ℕ) (netif : Netif) :
    Option (Stack × Except ErrT Packet) :=
  (s.stack.bindImplicitly n).bind fun (t, err) =>
    if err ≠ .ok then some (t, .error err.errT)
    else (addHeader s.block p).bind fun
      | .error err => some (t, .error err)
      | .ok c =>
        let pcb := t.pcb n
        let hdr := udpHdr pcb.localPort dstPort (totLen c)
        (writeHead (hdr 0) c).bind fun c =>
          -- the address of the pcb could be an old one
          if !pcb.localIp.isAny && pcb.localIp != netif.ipAddr then some (t, .error .val)
          else
            let src := if pcb.localIp.isAny then netif.ipAddr else pcb.localIp
            let chksum := if pcb.noChksum then 0 else udpChksum s.odd c src dstIp
            (writeHead (hdr chksum) c).map fun c =>
              (t, .ok
                { chain := c, src := src, dest := dstIp, ttl := s.ttl n, tos := s.tos n, proto := 17 })

end Sender

/-- A datagram that has left: the packet that `ip_output_if` was given, and what became of it. -/
structure Datagram where
  netif : Netif
  packet : Packet
  sent : Sent

namespace Sender

/-- `udp_sendto_if`. -/
def udpSendtoIf (s : Sender) (n : ℕ) (p : List Pbuf) (dstIp : IpAddr) (dstPort : ℕ) (netif : Netif) :
    Option (Stack × Except ErrT Datagram) :=
  (s.udpPacket n p dstIp dstPort netif).bind fun
    | (t, .error err) => some (t, .error err)
    | (t, .ok k) => (ipOutputIf netif s.ipId k).map fun r => (t, r.map (Datagram.mk netif k))

/-- `udp_sendto`. -/
def udpSendto (s : Sender) (n : ℕ) (p : List Pbuf) (dstIp : IpAddr) (dstPort : ℕ) :
    Option (Stack × Except ErrT Datagram) :=
  match ipRoute s.netifs s.netifDefault dstIp with
  | none => some (s.stack, .error .rte)
  | some netif => s.udpSendtoIf n p dstIp dstPort netif

/-- `udp_send`. -/
def udpSend (s : Sender) (n : ℕ) (p : List Pbuf) : Option (Stack × Except ErrT Datagram) :=
  s.udpSendto n p (s.stack.pcb n).remoteIp (s.stack.pcb n).remotePort

end Sender

/-- What sending reads of the `struct netconn` of a datagram socket. -/
structure Conn where
  lastErr : ErrT
  pcb : Option ℕ

namespace Sender

/-- `do_send`, for a netbuf with this chain, address and port. -/
def doSend (s : Sender) (conn : Conn) (p : List Pbuf) (addr : IpAddr) (port : ℕ) :
    Option (Stack × Except ErrT Datagram) :=
  if conn.lastErr.isFatal then some (s.stack, .error conn.lastErr)
  else
    match conn.pcb with
    | none => some (s.stack, .error .conn)
    | some n => if addr.isAny then s.udpSend n p else s.udpSendto n p addr port

/-- `lwip_sendto`, on a datagram socket and with a valid address or none; the data stays in the
memory of the application. -/
def lwipSendto (s : Sender) (conn : Conn) (data : List UInt8) (toIn : Option (IpAddr × ℕ)) :
    Option (Stack × Except ErrT Datagram) :=
  -- `LWIP_ASSERT("lwip_sendto: size must fit in u16_t", size <= 0xffff)`
  if h : data.length ≤ 0xffff then
    let (addr, port) := toIn.getD (.any, 0)
    match netbufRef data (by omega) s.elem with
    | none => some (s.stack, .error .mem)
    | some p => s.doSend conn [p] addr port
  else none

end Sender

end QuietLwip.Udp
