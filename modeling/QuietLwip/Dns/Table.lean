import QuietLwip.Dns.Names
import QuietLwip.Foundation.Fallible
import QuietLwip.Foundation.Transition
import QuietLwip.Ip.Text
import Mathlib.Data.List.FinRange
import Mathlib.Logic.Function.Basic

/-!
# The resolver

`dns.c` with its table of names, and with a local host list that stays as it is. The queries sent are
left out, except for what `dns_send` asserts about the server. A callback makes a list of further calls
of `dns_gethostbyname`, which can call back nothing themselves.
-/

namespace QuietLwip.Dns

open Ip Transition

def DNS_TABLE_SIZE : ℕ := 16
def DNS_MAX_NAME_LENGTH : ℕ := 256
def DNS_MAX_SERVERS : ℕ := 2
def DNS_MSG_SIZE : ℕ := 512
def DNS_MAX_RETRIES : UInt8 := 4
def DNS_MAX_TTL : UInt32 := 604800

def SIZEOF_DNS_HDR : ℕ := 12
def SIZEOF_DNS_QUERY : ℕ := 4
def SIZEOF_DNS_ANSWER : ℕ := 10

def DNS_FLAG1_RESPONSE : UInt8 := 0x80
def DNS_FLAG2_ERR_MASK : UInt8 := 0x0f

def DNS_RRTYPE_A : ℕ := 1
def DNS_RRCLASS_IN : ℕ := 1

/-- The characters of a string in front of its NUL. -/
abbrev CString := { s : List UInt8 // 0 ∉ s }

inductive DnsState where
  | unused | new | asking | done
  deriving DecidableEq, Repr

/-- `struct dns_table_entry`; the callback and its argument are addresses, and the ticket is the number
of the request. -/
structure Entry where
  state : DnsState
  numdns : ℕ
  tmr : UInt8
  retries : UInt8
  seqno : UInt8
  err : UInt8
  ttl : UInt32
  name : CString
  ipaddr : IpAddr
  found : Option ℕ
  arg : ℕ
  ticket : ℕ
  deriving DecidableEq

inductive Err where
  | ok | inprogress | arg | mem
  deriving DecidableEq, Repr

/-- A read behind the message or behind a stored name, and a failed assertion. -/
inductive Fault where
  | bounds | assertion
  deriving DecidableEq, Repr

/-- A call of `dns_gethostbyname`. -/
structure Call where
  hostname : CString
  found : Option ℕ
  arg : ℕ
  deriving DecidableEq

inductive Event where
  /-- the request is in the table, and `ERR_INPROGRESS` is returned -/
  | enqueued (ticket : ℕ) (call : Call)
  /-- `ERR_OK` is returned, and the address -/
  | resolved (name : CString) (ipaddr : IpAddr)
  /-- a response is processed for an entry that asks for the name -/
  | accepted (name : CString) (msg : List UInt8)
  /-- the callback is called -/
  | found (ticket : ℕ) (call : Call) (ipaddr : Option IpAddr)
  deriving DecidableEq

abbrev Index := Fin DNS_TABLE_SIZE

/-- The state of the module. -/
structure Resolver where
  seqno : UInt8
  table : Index → Entry
  servers : ℕ → IpAddr
  hosts : List (CString × IpAddr)
  tickets : ℕ
  log : List Event

namespace Resolver

def setEntry (s : Resolver) (i : Index) (e : Entry) : Resolver :=
  { s with table := Function.update s.table i e }

def emit (s : Resolver) (ev : Event) : Resolver := { s with log := s.log ++ [ev] }

end Resolver

/-! ### Looking up a name -/

/-- `dns_lookup_local`. -/
def dnsLookupLocal (s : Resolver) (hostname : CString) : IpAddr :=
  ((s.hosts.find? (·.1 = hostname)).map (·.2)).getD IPADDR_NONE

/-- The entry holds an answer for the name. -/
def Entry.holds (e : Entry) (name : CString) : Bool := e.state = .done ∧ name = e.name

/-- `dns_lookup`. -/
def dnsLookup (s : Resolver) (name : CString) : IpAddr :=
  if dnsLookupLocal s name ≠ IPADDR_NONE then dnsLookupLocal s name
  else match (List.finRange DNS_TABLE_SIZE).find? fun i => (s.table i).holds name with
    | some i => (s.table i).ipaddr
    | none => IPADDR_NONE

/-! ### Asking for a name -/

/-- `dns_setserver`. -/
def dnsSetserver (s : Resolver) (numdns : ℕ) (dnsserver : IpAddr) : Resolver :=
  if numdns < DNS_MAX_SERVERS ∧ !dnsserver.isAny then
    { s with servers := Function.update s.servers numdns dnsserver }
  else s

/-- The assertions of `dns_send`. -/
def dnsSend (s : Resolver) (numdns : ℕ) : Except Fault Unit :=
  if numdns < DNS_MAX_SERVERS ∧ !(s.servers numdns).isAny then .ok () else .error .assertion

/-- `dns_check_entry` for an entry in `DNS_STATE_NEW`. -/
def checkNew (s : Resolver) (i : Index) : Except Fault Resolver := do
  let s := s.setEntry i { s.table i with state := .asking, numdns := 0, tmr := 1, retries := 0 }
  dnsSend s (s.table i).numdns
  .ok s

/-- `dns_seqno - pEntry->seqno`. -/
def age (s : Resolver) (i : Index) : ℤ := s.seqno.toNat - (s.table i).seqno.toNat

/-- An unused entry, or else the oldest completed one. -/
def searchEntry (s : Resolver) : List Index → ℤ → Index → Index ⊕ Index
  | [], _, lseqi => .inr lseqi
  | i :: is, lseq, lseqi =>
    if (s.table i).state = .unused then .inl i
    else if (s.table i).state = .done ∧ lseq < age s i then searchEntry s is (age s i) i
    else searchEntry s is lseq lseqi

theorem tableSize_pos : 0 < DNS_TABLE_SIZE := by decide

/-- The entry that `dns_enqueue` uses. -/
def chooseEntry (s : Resolver) : Option Index :=
  match searchEntry s (List.finRange DNS_TABLE_SIZE) 0 ⟨0, tableSize_pos⟩ with
  | .inl i => some i
  | .inr i => if (s.table i).state = .done then some i else none

/-- The name that fits into an entry. -/
def CString.take (s : CString) (n : ℕ) : CString :=
  ⟨s.1.take n, fun h => s.2 (List.mem_of_mem_take h)⟩

/-- `dns_enqueue`. -/
def dnsEnqueue (s : Resolver) (c : Call) : Except Fault (Resolver × Err) :=
  match chooseEntry s with
  | none => .ok (s, .mem)
  | some i => do
    let s := s.setEntry i { s.table i with
      state := .new
      seqno := s.seqno
      found := c.found
      arg := c.arg
      name := CString.take c.hostname (DNS_MAX_NAME_LENGTH - 1)
      ticket := s.tickets }
    let s := { s.emit (.enqueued s.tickets c) with seqno := s.seqno + 1, tickets := s.tickets + 1 }
    let s ← checkNew s i
    .ok (s, .inprogress)

/-- `dns_gethostbyname`, with the resolver initialised. -/
def dnsGethostbyname (s : Resolver) (c : Call) : Except Fault (Resolver × Err) :=
  if c.hostname.1 = [] ∨ DNS_MAX_NAME_LENGTH ≤ c.hostname.1.length then .ok (s, .arg)
  else
    let ipaddr := ipaddrAddr c.hostname.1
    let ipaddr := if ipaddr = IPADDR_NONE then dnsLookup s c.hostname else ipaddr
    if ipaddr ≠ IPADDR_NONE then .ok (s.emit (.resolved c.hostname ipaddr), .ok)
    else dnsEnqueue s c

/-! ### Callbacks -/

def runCall (s : Resolver) (c : Call) : Except Fault Resolver := Prod.fst <$> dnsGethostbyname s c

/-- What a callback does. -/
def runCalls (s : Resolver) (calls : List Call) : Except Fault Resolver := calls.foldlM runCall s

/-- The request of the entry, as it was made. -/
def Entry.call (e : Entry) : Call := ⟨e.name, e.found, e.arg⟩

/-- `(*pEntry->found)(pEntry->name, ipaddr, pEntry->arg)`, if there is a callback. -/
def callFound (s : Resolver) (i : Index) (ipaddr : Option IpAddr) (calls : List Call) :
    Except Fault Resolver :=
  match (s.table i).found with
  | none => .ok s
  | some _ => runCalls (s.emit (.found (s.table i).ticket (s.table i).call ipaddr)) calls

/-- An entry becomes unused. -/
def flush (s : Resolver) (i : Index) : Resolver :=
  s.setEntry i { s.table i with state := .unused, found := none }

/-! ### The timer -/

/-- `dns_check_entry` for an entry in `DNS_STATE_ASKING`. -/
def checkAsking (s : Resolver) (i : Index) (calls : List Call) : Except Fault Resolver := do
  let e := { s.table i with tmr := (s.table i).tmr - 1 }
  if e.tmr = 0 then
    let e := { e with retries := e.retries + 1 }
    if e.retries = DNS_MAX_RETRIES then
      if e.numdns + 1 < DNS_MAX_SERVERS ∧ !(s.servers (e.numdns + 1)).isAny then
        .ok (s.setEntry i { e with numdns := e.numdns + 1, tmr := 1, retries := 0 })
      else
        let s ← callFound (s.setEntry i e) i none calls
        .ok (flush s i)
    else
      dnsSend s e.numdns
      .ok (s.setEntry i { e with tmr := e.retries })
  else .ok (s.setEntry i e)

/-- `dns_check_entry`. -/
def dnsCheckEntry (s : Resolver) (i : Index) (calls : List Call) : Except Fault Resolver :=
  match (s.table i).state with
  | .new => checkNew s i
  | .asking => checkAsking s i calls
  | .done =>
    let e := { s.table i with ttl := (s.table i).ttl - 1 }
    .ok (if e.ttl = 0 then flush (s.setEntry i e) i else s.setEntry i e)
  | .unused => .ok s

/-- `dns_tmr`, with the calls of each callback. -/
def dnsTmr (s : Resolver) (calls : Index → List Call) : Except Fault Resolver :=
  (List.finRange DNS_TABLE_SIZE).foldlM (fun s i => dnsCheckEntry s i (calls i)) s

/-! ### Responses -/

def word (hi lo : UInt8) : ℕ := hi.toNat * 256 + lo.toNat

/-- What is read of `struct dns_hdr`. -/
structure DnsHdr where
  id : ℕ
  flags1 : UInt8
  flags2 : UInt8
  numquestions : ℕ
  numanswers : ℕ

def dnsHdr (msg : List UInt8) : DnsHdr where
  id := word (msg.getD 0 0) (msg.getD 1 0)
  flags1 := msg.getD 2 0
  flags2 := msg.getD 3 0
  numquestions := word (msg.getD 4 0) (msg.getD 5 0)
  numanswers := word (msg.getD 6 0) (msg.getD 7 0)

/-- `struct dns_answer`. -/
structure DnsAnswer where
  type : ℕ
  cls : ℕ
  ttl : UInt32
  len : ℕ

def answerHdr (p : List UInt8) : DnsAnswer where
  type := word (p.getD 0 0) (p.getD 1 0)
  cls := word (p.getD 2 0) (p.getD 3 0)
  ttl := .ofNat (word (p.getD 4 0) (p.getD 5 0) * 65536 + word (p.getD 6 0) (p.getD 7 0))
  len := word (p.getD 8 0) (p.getD 9 0)

/-- The address in network order at `p`. -/
def addrAt (p : List UInt8) : IpAddr :=
  .ofNat 32 (word (p.getD 0 0) (p.getD 1 0) * 65536 + word (p.getD 2 0) (p.getD 3 0))

/-- An Internet address, and its size. -/
def DnsAnswer.isAddr (ans : DnsAnswer) : Bool :=
  ans.type = DNS_RRTYPE_A ∧ ans.cls = DNS_RRCLASS_IN ∧ ans.len = 4

/-- The loop over the answers: the time to live and the address of the first that is one. -/
def answerLoop : ℕ → List UInt8 → Option (Option (UInt32 × IpAddr))
  | 0, _ => some none
  | nanswers + 1, p => do
    let p ← dnsParseName p
    if p.length < SIZEOF_DNS_ANSWER then none
    else
      let ans := answerHdr p
      let data := p.drop SIZEOF_DNS_ANSWER
      if ans.isAddr then
        if data.length < 4 then none else some (some (ans.ttl, addrAt data))
      else answerLoop nanswers (data.drop ans.len)

/-- What is in memory behind the message and behind the stored name. -/
structure Behind where
  msg : List UInt8
  name : List UInt8

/-- The answer for the name in a response, if there is no error in it. -/
def dnsAnswer (name : CString) (msg : List UInt8) (behind : Behind) :
    Option (Option (UInt32 × IpAddr)) :=
  let hdr := dnsHdr msg
  if hdr.flags1 &&& DNS_FLAG1_RESPONSE = 0 ∨ hdr.flags2 &&& DNS_FLAG2_ERR_MASK ≠ 0 ∨
      hdr.numquestions ≠ 1 then some none
  else do
    let question := (msg ++ behind.msg).drop SIZEOF_DNS_HDR
    let differ ← dnsCompareName (name.1 ++ 0 :: behind.name) question
    if differ ≠ 0 then some none
    else do
      let p ← dnsParseName question
      answerLoop hdr.numanswers (p.drop SIZEOF_DNS_QUERY)

/-- The entry of a response is completed, whatever it says. -/
def complete (s : Resolver) (i : Index) (msg : List UInt8) : Resolver :=
  (s.emit (.accepted (s.table i).name msg)).setEntry i
    { s.table i with state := .done, err := (dnsHdr msg).flags2 &&& DNS_FLAG2_ERR_MASK }

/-- `dns_recv` from the check of the flags on. -/
def finish (s : Resolver) (i : Index) (calls : List Call) :
    Option (Option (UInt32 × IpAddr)) → Except Fault Resolver
  | none => .error .bounds
  | some (some (ttl, ipaddr)) =>
    callFound (s.setEntry i { s.table i with ttl := min ttl DNS_MAX_TTL, ipaddr := ipaddr }) i
      (some ipaddr) calls
  | some none => do
    let s ← callFound s i none calls
    .ok (flush s i)

/-- `dns_recv`. -/
def dnsRecv (s : Resolver) (msg : List UInt8) (behind : Behind) (calls : List Call) :
    Except Fault Resolver :=
  if DNS_MSG_SIZE < msg.length then .ok s
  else if msg.length < SIZEOF_DNS_HDR + SIZEOF_DNS_QUERY + SIZEOF_DNS_ANSWER then .ok s
  else if h : (dnsHdr msg).id < DNS_TABLE_SIZE then
    if (s.table ⟨_, h⟩).state = .asking then
      finish (complete s ⟨_, h⟩ msg) ⟨_, h⟩ calls (dnsAnswer (s.table ⟨_, h⟩).name msg behind)
    else .ok s
  else .ok s

/-! ### Runs -/

inductive Op where
  | gethostbyname (c : Call)
  | recv (msg : List UInt8) (behind : Behind) (calls : List Call)
  | tmr (calls : Index → List Call)
  | setserver (numdns : ℕ) (dnsserver : IpAddr)

def Op.exec (s : Resolver) : Op → Except Fault Resolver
  | .gethostbyname c => runCall s c
  | .recv msg behind calls => dnsRecv s msg behind calls
  | .tmr calls => dnsTmr s calls
  | .setserver numdns dnsserver => .ok (dnsSetserver s numdns dnsserver)

/-- After `dns_init`. -/
structure Resolver.Start (s : Resolver) : Prop where
  table : ∀ i, (s.table i).state = .unused
  servers : !(s.servers 0).isAny
  tickets : s.tickets = 0
  log : s.log = []

def dns : System Resolver Op where
  start := Resolver.Start
  step s op s' := op.exec s = .ok s'

end QuietLwip.Dns
