import QuietLwip.Buffers.Pbuf
import QuietLwip.Ip.Address
import Mathlib.Data.List.FinRange

/-!
# The ARP table

`etharp_find_entry`, `etharp_free_entry`, `etharp_tmr`, `etharp_cleanup_netif` and
`etharp_update_arp_entry` of `etharp.c`, with the entries that never expire
(`ETHARP_SUPPORT_STATIC_ENTRIES`) and one packet for each entry (`ARP_QUEUEING` is 0). The hardware
address of an interface has the six bytes that the assertions on `netif->hwaddr_len` ask for.

What leaves the module, and what is of interest later on, is written to a log.
-/

namespace QuietLwip.Arp

open Buffers Ip

def ARP_TABLE_SIZE : ℕ := 10
def ARP_MAXAGE : ℕ := 240
def ARP_AGE_REREQUEST_USED : ℕ := ARP_MAXAGE - 12
def ARP_MAXPENDING : ℕ := 2

inductive EtharpState where
  | empty | pending | stable | stableRerequesting | static
  deriving DecidableEq, Repr

/-- `state >= ETHARP_STATE_STABLE`. -/
def EtharpState.isStable : EtharpState → Bool
  | .empty | .pending => false
  | .stable | .stableRerequesting | .static => true

inductive Err where
  | ok | mem | buf | rte | arg | link
  deriving DecidableEq, Repr

/-- A packet that is kept until the next hop has answered: the chain given, referenced once more,
or a copy of its bytes in a pbuf of its own. -/
inductive Packet where
  | byRef (q : List Pbuf)
  | copy (addr : ℕ) (data : List UInt8)
  deriving DecidableEq

/-- The packet an entry owns. The number and the interface are not in the source: they say which
call it came with. -/
structure Held where
  packet : Packet
  ticket : ℕ
  netif : ℕ
  deriving DecidableEq

/-- `struct etharp_entry`. -/
structure Entry where
  q : Option Held
  ipaddr : IpAddr
  netif : Option ℕ
  ethaddr : EthAddr
  state : EtharpState
  ctime : ℕ
  -- not in the source: the interface of the query that made the entry
  askedOn : ℕ
  deriving DecidableEq

/-- An ARP packet with its Ethernet header, `struct eth_hdr` and `struct etharp_hdr`. -/
structure EtharpPacket where
  ethDest : EthAddr
  ethSrc : EthAddr
  hwtype : ℕ
  proto : ℕ
  hwlen : ℕ
  protolen : ℕ
  opcode : ℕ
  shwaddr : EthAddr
  sipaddr : IpAddr
  dhwaddr : EthAddr
  dipaddr : IpAddr
  deriving DecidableEq, Repr

inductive Event where
  /-- `etharp_query` keeps a packet, as the call `k` on the interface `n` -/
  | queued (k n : ℕ) (ip : IpAddr) (q : List Pbuf) (p : Packet)
  /-- `linkoutput` of a packet that was kept -/
  | sent (k n : ℕ) (ip : IpAddr) (eth : EthAddr) (p : Packet)
  /-- `pbuf_free` of a packet that was kept -/
  | freed (k : ℕ)
  /-- `linkoutput` of a packet given by the caller -/
  | output (n : ℕ) (eth : EthAddr) (q : List Pbuf)
  /-- `etharp_update_arp_entry` stores a pair -/
  | updated (ip : IpAddr) (eth : EthAddr)
  /-- `linkoutput` of an ARP packet, and whether it returned `ERR_OK` -/
  | arp (n : ℕ) (p : EtharpPacket) (ok : Bool)
  /-- an ARP packet is processed -/
  | arpInput (n : ℕ) (p : EtharpPacket)
  /-- `autoip_start_probing` for an address -/
  | probing (n : ℕ) (ip : IpAddr)
  /-- `autoip_tmr` is called -/
  | tick
  /-- `autoip_bind` to an address -/
  | bind (n : ℕ) (ip : IpAddr)
  deriving DecidableEq

abbrev Index : Type := Fin ARP_TABLE_SIZE

structure World where
  table : Index → Entry
  etharpCachedEntry : Index
  netif : ℕ → Netif
  netifList : List ℕ
  tickets : ℕ
  log : List Event

/-- An `LWIP_ASSERT` of `etharp.c`, or one of the functions it calls. -/
inductive Fault where
  | etharp | called
  deriving DecidableEq, Repr

/-! ### Field updates -/

namespace World

variable (w : World) (i j : Index) (e : Entry) (ev : Event)

def setEntry : World := { w with table := Function.update w.table i e }

def emit : World := { w with log := w.log ++ [ev] }

/-- `ETHARP_SET_HINT`. -/
def setHint : World := { w with etharpCachedEntry := i }

def setNetif (n : ℕ) (netif : Netif) : World :=
  { w with netif := Function.update w.netif n netif }

@[simp] theorem setEntry_self : (w.setEntry i e).table i = e := Function.update_self ..

theorem setEntry_of_ne (h : j ≠ i) : (w.setEntry i e).table j = w.table j :=
  Function.update_of_ne h ..

theorem setEntry_setEntry (e' : Entry) : (w.setEntry i e).setEntry i e' = w.setEntry i e' := by
  simp [setEntry]

@[simp] theorem setEntry_log : (w.setEntry i e).log = w.log := rfl
@[simp] theorem setEntry_netif : (w.setEntry i e).netif = w.netif := rfl
@[simp] theorem setEntry_netifList : (w.setEntry i e).netifList = w.netifList := rfl
@[simp] theorem setEntry_tickets : (w.setEntry i e).tickets = w.tickets := rfl
@[simp] theorem emit_table : (w.emit ev).table = w.table := rfl
@[simp] theorem emit_log : (w.emit ev).log = w.log ++ [ev] := rfl
@[simp] theorem emit_netif : (w.emit ev).netif = w.netif := rfl
@[simp] theorem emit_netifList : (w.emit ev).netifList = w.netifList := rfl
@[simp] theorem emit_tickets : (w.emit ev).tickets = w.tickets := rfl
@[simp] theorem setNetif_table (n : ℕ) (netif : Netif) : (w.setNetif n netif).table = w.table := rfl
@[simp] theorem setNetif_log (n : ℕ) (netif : Netif) : (w.setNetif n netif).log = w.log := rfl
@[simp] theorem setNetif_self (n : ℕ) (netif : Netif) : (w.setNetif n netif).netif n = netif :=
  Function.update_self ..
theorem setNetif_of_ne {m n : ℕ} (netif : Netif) (h : m ≠ n) :
    (w.setNetif n netif).netif m = w.netif m := Function.update_of_ne h ..

end World

/-! ### Freeing -/

/-- `pbuf_free` of the packet an entry owns. -/
def World.freeHeld (w : World) : Option Held → World
  | none => w
  | some h => w.emit (.freed h.ticket)

/-- `etharp_free_entry`. -/
def etharpFreeEntry (w : World) (i : Index) : World :=
  (w.freeHeld (w.table i).q).setEntry i { w.table i with q := none, state := .empty }

/-- The body of the loop of `etharp_tmr`. -/
def tmrEntry (w : World) (i : Index) : World :=
  let e := w.table i
  if e.state = .empty ∨ e.state = .static then w
  else
    let ctime := (e.ctime + 1) % 256
    let w := w.setEntry i { e with ctime := ctime }
    if ARP_MAXAGE ≤ ctime ∨ e.state = .pending ∧ ARP_MAXPENDING ≤ ctime then etharpFreeEntry w i
    else if e.state = .stableRerequesting then
      w.setEntry i { e with ctime := ctime, state := .stable }
    else w

/-- `etharp_tmr`. -/
def etharpTmr (w : World) : World := (List.finRange ARP_TABLE_SIZE).foldl tmrEntry w

/-- The body of the loop of `etharp_cleanup_netif`. -/
def cleanupEntry (n : ℕ) (w : World) (i : Index) : World :=
  if (w.table i).state ≠ .empty ∧ (w.table i).netif = some n then etharpFreeEntry w i else w

/-- `etharp_cleanup_netif`. -/
def etharpCleanupNetif (w : World) (n : ℕ) : World :=
  (List.finRange ARP_TABLE_SIZE).foldl (cleanupEntry n) w

/-! ### `etharp_find_entry` -/

/-- What the search remembers; `none` stands for `ARP_TABLE_SIZE`. -/
structure Candidates where
  empty : Option Index
  oldStable : Option Index
  oldPending : Option Index
  oldQueue : Option Index
  ageStable : ℕ
  agePending : ℕ
  ageQueue : ℕ

def Candidates.init : Candidates := ⟨none, none, none, none, 0, 0, 0⟩

/-- Remember an entry that is in use and does not match. -/
def Candidates.note (c : Candidates) (i : Index) (e : Entry) : Candidates :=
  if e.state = .pending then
    if e.q.isSome then
      if c.ageQueue ≤ e.ctime then { c with oldQueue := some i, ageQueue := e.ctime } else c
    else if c.agePending ≤ e.ctime then { c with oldPending := some i, agePending := e.ctime }
    else c
  -- entries that never expire are not recycled
  else if e.state = .static then c
  else if c.ageStable ≤ e.ctime then { c with oldStable := some i, ageStable := e.ctime }
  else c

/-- The loop over the table: the matching entry, or the candidates. -/
def search (table : Index → Entry) (ipaddr : IpAddr) : List Index → Candidates → Index ⊕ Candidates
  | [], c => .inr c
  | i :: is, c =>
    if (table i).state = .empty then
      search table ipaddr is (if c.empty.isNone then { c with empty := some i } else c)
    else if ipaddr = (table i).ipaddr then .inl i
    else search table ipaddr is (c.note i (table i))

/-- The entry to recycle when none is empty: the oldest stable one, the oldest pending one without
a packet, the oldest one with a packet. -/
def recycle (w : World) (c : Candidates) : Except Fault (Option Index) :=
  match c.oldStable, c.oldPending, c.oldQueue with
  | some i, _, _ => if (w.table i).q.isSome then .error .etharp else .ok (some i)
  | none, some i, _ => .ok (some i)
  | none, none, some i => .ok (some i)
  | none, none, none => .ok none

/-- The slot is set up for a new address. -/
def World.claim (w : World) (i : Index) (ipaddr : IpAddr) : Except Fault (World × Option Index) :=
  if (w.table i).state = .empty then
    .ok (w.setEntry i { w.table i with ipaddr := ipaddr, ctime := 0 }, some i)
  else .error .etharp

structure FindFlags where
  tryHard : Bool
  findOnly : Bool
  staticEntry : Bool

def ETHARP_FLAG_TRY_HARD : FindFlags := ⟨true, false, false⟩
def ETHARP_FLAG_FIND_ONLY : FindFlags := ⟨false, true, false⟩
/-- `ETHARP_FLAG_TRY_HARD | ETHARP_FLAG_STATIC_ENTRY`. -/
def ETHARP_FLAG_STATIC_ENTRY : FindFlags := ⟨true, false, true⟩

/-- `etharp_find_entry`; `none` is `ERR_MEM`. -/
def etharpFindEntry (w : World) (ipaddr : IpAddr) (flags : FindFlags) :
    Except Fault (World × Option Index) :=
  match search w.table ipaddr (List.finRange ARP_TABLE_SIZE) .init with
  | .inl i => .ok (w, some i)
  | .inr c =>
    if flags.findOnly ∨ c.empty.isNone ∧ !flags.tryHard then .ok (w, none)
    else
      match c.empty with
      | some i => w.claim i ipaddr
      | none => do
        match ← recycle w c with
        | some i => (etharpFreeEntry w i).claim i ipaddr
        | none => .ok (w, none)

/-! ### `etharp_update_arp_entry` -/

/-- The address is stored, and the packet that waited for it is sent. -/
def World.settle (w : World) (n : ℕ) (i : Index) (ethaddr : EthAddr) (state : EtharpState) : World :=
  let e := w.table i
  let w := (w.setEntry i { e with q := none, state, netif := some n, ethaddr, ctime := 0 }).emit
    (.updated e.ipaddr ethaddr)
  match e.q with
  | none => w
  | some h => (w.emit (.sent h.ticket n e.ipaddr ethaddr h.packet)).emit (.freed h.ticket)

/-- The address is that of one host on the interface. -/
def isUnicast (ipaddr : IpAddr) (netif : Netif) : Bool :=
  !(ipaddr.isAny || ipaddr.isBroadcast netif || ipaddr.isMulticast)

def etharpUpdateArpEntry (w : World) (n : ℕ) (ipaddr : IpAddr) (ethaddr : EthAddr)
    (flags : FindFlags) : Except Fault (World × Err) :=
  if !isUnicast ipaddr (w.netif n) then .ok (w, .arg)
  else do
    match ← etharpFindEntry w ipaddr flags with
    | (w, none) => .ok (w, .mem)
    | (w, some i) =>
      .ok (w.settle n i ethaddr (if flags.staticEntry then .static else .stable), .ok)

/-- `etharp_add_static_entry`; `route` is the answer of `ip_route`. -/
def etharpAddStaticEntry (w : World) (route : Option ℕ) (ipaddr : IpAddr) (ethaddr : EthAddr) :
    Except Fault (World × Err) :=
  match route with
  | none => .ok (w, .rte)
  | some n => etharpUpdateArpEntry w n ipaddr ethaddr ETHARP_FLAG_STATIC_ENTRY

/-- `etharp_remove_static_entry`. -/
def etharpRemoveStaticEntry (w : World) (ipaddr : IpAddr) : Except Fault (World × Err) := do
  match ← etharpFindEntry w ipaddr ETHARP_FLAG_FIND_ONLY with
  | (w, none) => .ok (w, .mem)
  | (w, some i) =>
    if (w.table i).state ≠ .static then .ok (w, .arg) else .ok (etharpFreeEntry w i, .ok)

end QuietLwip.Arp
