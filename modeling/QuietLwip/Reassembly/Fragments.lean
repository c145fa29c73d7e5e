import QuietLwip.Buffers.Chains
import QuietLwip.Foundation.Transition

/-!
# IP reassembly

`ip_reass` and `ip_reass_tmr` of `ip_frag.c`. The list of `struct ip_reassdata` is a
list, in which an entry is known by its position; so is the queue of a datagram, whose
`struct ip_reass_helper`s are kept beside the fragments they overwrite the headers of.
Of an IP header the fields are kept that are read or rebuilt. Statistics, the ICMP
message for a datagram that is given up and the release of dropped pbufs are left out.
A failed assertion aborts the process: the function has the value `none`.
-/

namespace QuietLwip.Reassembly

open QuietLwip.Word QuietLwip.Buffers QuietLwip.Transition

def IP_HLEN : ℕ := 20
def IP_REASS_MAX_PBUFS : ℕ := 10
def IP_REASS_MAXAGE : ℕ := 3
def MEMP_NUM_REASSDATA : ℕ := 4

structure IpHdr where
  src : ℕ
  dest : ℕ
  id : ℕ
  -- in units of 4 bytes
  hl : ℕ
  -- the total length
  len : ℕ
  -- in units of 8 bytes
  offset : ℕ
  mf : Bool
  deriving DecidableEq

/-- `IP_ADDRESSES_AND_ID_MATCH` -/
def IpHdr.match (a b : IpHdr) : Bool := a.src = b.src ∧ a.dest = b.dest ∧ a.id = b.id

/-- A fragment: the header at its payload, and its pbufs, header included. -/
structure Fragment where
  hdr : IpHdr
  pbufs : List Pbuf
  deriving DecidableEq

/-- What `ip_input` passes to `ip_reass`: a packet that is cut to its total length, with the
header, as far as it goes, in the first pbuf, and that is a fragment. -/
structure Fragment.FromInput (f : Fragment) : Prop where
  len_lt : f.hdr.len < 2 ^ 16
  offset_lt : f.hdr.offset < 2 ^ 13
  wellFormed : WellFormed f.pbufs
  totLen : totLen f.pbufs = f.hdr.len
  head : ∃ p ps, f.pbufs = p :: ps ∧ min (f.hdr.hl * 4) f.hdr.len ≤ p.len
  fragment : f.hdr.offset ≠ 0 ∨ f.hdr.mf = true

/-- `struct ip_reass_helper`, with the fragment it is in. -/
structure Helper where
  start : ℕ
  -- `end`
  stop : ℕ
  frag : Fragment
  deriving DecidableEq

structure Reassdata where
  -- the queue, in the order of `next_pbuf`
  p : List Helper
  iphdr : IpHdr
  datagramLen : ℕ
  -- `flags & IP_REASS_FLAG_LASTFRAG`
  lastFrag : Bool
  timer : ℕ
  deriving DecidableEq

structure Reass where
  reassdatagrams : List Reassdata
  pbufcount : ℕ
  deriving DecidableEq

/-- What `ip_reass` returns: the rebuilt header, the chained pbufs, and the fragments
they are of. -/
structure Datagram where
  hdr : IpHdr
  pbufs : List Pbuf
  frags : List Fragment
  deriving DecidableEq

/-- The helper struct of a fragment; `len` and `offset` are `u16_t`. -/
def helperOf (f : Fragment) : Helper where
  start := u16 (f.hdr.offset * 8)
  stop := u16 (u16 (f.hdr.offset * 8) + u16 (f.hdr.len - f.hdr.hl * 4))
  frag := f

/-! ### Giving up datagrams -/

/-- `prev` is the entry in front of `ipr`, `NULL` when that is the first. -/
def Precedes (prev : Option ℕ) (ipr : ℕ) : Prop :=
  match prev with
  | none => ipr = 0
  | some j => j + 1 = ipr

instance (prev : Option ℕ) (ipr : ℕ) : Decidable (Precedes prev ipr) :=
  match prev with
  | none => inferInstanceAs (Decidable (ipr = 0))
  | some j => inferInstanceAs (Decidable (j + 1 = ipr))

/-- `ip_reass_free_complete_datagram(ipr, prev)` for the entries at these positions: the number
of pbufs freed. -/
def freeCompleteDatagram (s : Reass) (ipr : ℕ) (prev : Option ℕ) : Option (Reass × ℕ) :=
  match s.reassdatagrams[ipr]? with
  | none => none
  | some d =>
    let freed := (d.p.map fun h => pbufClen h.frag.pbufs).sum
    -- LWIP_ASSERT prev != ipr, prev->next == ipr, pbufs_freed + clen <= 0xffff,
    -- ip_reass_pbufcount >= clen, prev != NULL for an entry that is not the first,
    -- and a look at the first of `ipr->p`
    if Precedes prev ipr ∧ d.p ≠ [] ∧ freed ≤ 0xffff ∧ freed ≤ s.pbufcount then
      some (⟨s.reassdatagrams.eraseIdx ipr, s.pbufcount - freed⟩, freed)
    else none

/-- The walk of `ip_reass_remove_oldest_datagram` over the entries from position `i` on:
the oldest one that is not of the same datagram, and how many are not. -/
def oldestLoop (fraghdr : IpHdr) :
    ℕ → Option (ℕ × ℕ) → ℕ → List Reassdata → Option (ℕ × ℕ) × ℕ
  | _, oldest, other, [] => (oldest, other)
  | i, oldest, other, r :: rs =>
    if r.iphdr.match fraghdr then oldestLoop fraghdr (i + 1) oldest other rs
    else
      let oldest' := match oldest with
        | none => (i, r.timer)
        | some (j, timer) => if r.timer ≤ timer then (i, r.timer) else (j, timer)
      oldestLoop fraghdr (i + 1) (some oldest') (other + 1) rs

/-- The `do` loop of `ip_reass_remove_oldest_datagram`; `prev` is the last entry that has
a successor. -/
def removeOldestLoop (fraghdr : IpHdr) (needed : ℕ) : ℕ → ℕ → Reass → Option (Reass × ℕ)
  | 0, _, _ => none
  | fuel + 1, freed, s =>
    let n := s.reassdatagrams.length
    let prev := if 2 ≤ n then some (n - 2) else none
    match oldestLoop fraghdr 0 none 0 s.reassdatagrams with
    | (none, _) => some (s, freed)
    | (some (oldest, _), other) => do
      let (s', current) ← freeCompleteDatagram s oldest prev
      if freed + current < needed ∧ 1 < other then
        removeOldestLoop fraghdr needed fuel (freed + current) s'
      else return (s', freed + current)

/-- `ip_reass_remove_oldest_datagram(fraghdr, pbufs_needed)`. Each turn removes an entry. -/
def removeOldestDatagram (s : Reass) (fraghdr : IpHdr) (needed : ℕ) : Option (Reass × ℕ) :=
  removeOldestLoop fraghdr needed (s.reassdatagrams.length + 1) 0 s

/-! ### Finding and queueing -/

/-- The check that another `clen` pbufs may be queued, which may give up datagrams. -/
def makeRoom (s : Reass) (fraghdr : IpHdr) (clen : ℕ) : Option (Reass × Bool) :=
  if s.pbufcount + clen > IP_REASS_MAX_PBUFS then do
    let (s', freed) ← removeOldestDatagram s fraghdr clen
    return (s', !(freed = 0 ∨ s'.pbufcount + clen > IP_REASS_MAX_PBUFS))
  else some (s, true)

/-- A new entry, at the front of the list. -/
def newDatagram (s : Reass) (fraghdr : IpHdr) : Reass :=
  { s with reassdatagrams := ⟨[], fraghdr, 0, false, IP_REASS_MAXAGE⟩ :: s.reassdatagrams }

/-- `ip_reass_enqueue_new_datagram(fraghdr, clen)`. `memp_malloc` fails when all the
structs are in the list. -/
def enqueueNewDatagram (s : Reass) (fraghdr : IpHdr) (clen : ℕ) : Option (Reass × Bool) :=
  if s.reassdatagrams.length < MEMP_NUM_REASSDATA then some (newDatagram s fraghdr, true)
  else do
    let (s', freed) ← removeOldestDatagram s fraghdr clen
    if clen ≤ freed ∧ s'.reassdatagrams.length < MEMP_NUM_REASSDATA then
      return (newDatagram s' fraghdr, true)
    else return (s', false)

/-- The entry the fragment belongs to: the header of the first fragment is kept in it. -/
def lookUp (s : Reass) (fraghdr : IpHdr) (clen : ℕ) : Option (Reass × Option (ℕ × Reassdata)) :=
  match s.reassdatagrams.findIdx? fun d => d.iphdr.match fraghdr with
  | none => do
    let (s', enqueued) ← enqueueNewDatagram s fraghdr clen
    return (s', if enqueued then s'.reassdatagrams[0]?.map fun d => (0, d) else none)
  | some i =>
    some (s, s.reassdatagrams[i]?.map fun d =>
      (i, if fraghdr.offset = 0 ∧ d.iphdr.offset ≠ 0 then { d with iphdr := fraghdr } else d))

/-- The check for 'no more fragments'. -/
def noteLastFragment (ipr : Reassdata) (f : Fragment) : Reassdata :=
  if f.hdr.mf = false then
    { ipr with lastFrag := true, datagramLen := (helperOf f).stop }
  else ipr

/-- What became of a fragment. -/
inductive Chained where
  | dropped
  -- queued between `front` and `back`; `valid` as left by the walk
  | queued (valid : Bool) (front back : List Helper)

/-- The walk to the place of the new fragment; `front` is what was walked over. -/
def chainLoop (new : Helper) : Bool → List Helper → List Helper → Option Chained
  | valid, front, [] =>
    match front.getLast? with
    | none => some (.queued valid front [])
    | some prev =>
      -- LWIP_ASSERT("check fragments don't overlap", iprh_prev->end <= iprh->start)
      if prev.stop ≤ new.start then some (.queued (valid && prev.stop = new.start) front [])
      else none
  | valid, front, tmp :: rest =>
    if new.start < tmp.start then
      match front.getLast? with
      | none => some (.queued valid front (tmp :: rest))
      | some prev =>
        if new.start < prev.stop ∨ new.stop > tmp.start then some .dropped
        else some (.queued valid front (tmp :: rest))
    else if new.start = tmp.start then some .dropped
    else if new.start < tmp.stop then some .dropped
    else
      let valid' := match front.getLast? with
        | none => valid
        | some prev => valid && prev.stop = tmp.start
      chainLoop new valid' (front ++ [tmp]) rest

/-- The walk from the new fragment on: no holes up to the last fragment, which is returned. -/
def restLoop (prev : Helper) : List Helper → Option Helper
  | [] => some prev
  | q :: qs => if prev.stop = q.start then restLoop q qs else none

/-- The validation part: the inner value is `valid`. -/
def validate (ipr : Reassdata) (valid : Bool) (new : Helper) (front back : List Helper) :
    Option Bool :=
  if ipr.lastFrag ∧ valid then
    match front ++ new :: back with
    | [] => none
    | first :: _ =>
      if first.start ≠ 0 then some false
      else
        match restLoop new back with
        | none => some false
        | some last =>
          -- LWIP_ASSERT("sanity check", ..), ("validate_datagram:datagram end!=datagram len", ..)
          if front ++ back ≠ [] ∧ last.stop = ipr.datagramLen then some true else none
  else some false

/-- The pbufs of the queue behind the first one are chained to it without their headers. -/
def chainPbufs (p : List Pbuf) : List Helper → Option (List Pbuf)
  | [] => some p
  | r :: rs => do
    let (_, c) ← pbufHeader r.frag.pbufs (-IP_HLEN)
    let p' ← pbufCat p c
    chainPbufs p' rs

/-- The original header, copied back to the first pbuf. -/
def rebuiltHdr (ipr : Reassdata) : IpHdr :=
  { ipr.iphdr with len := u16 (ipr.datagramLen + IP_HLEN), offset := 0, mf := false }

/-- `ip_reass(p)` -/
def ipReass (s : Reass) (f : Fragment) : Option (Reass × Option Datagram) :=
  if f.hdr.hl * 4 ≠ IP_HLEN then some (s, none)
  else do
    let clen := pbufClen f.pbufs
    let (s, room) ← makeRoom s f.hdr clen
    if room = false then return (s, none)
    else
      match ← lookUp s f.hdr clen with
      | (s, none) => return (s, none)
      | (s, some (i, ipr)) => do
        let count := u16 (s.pbufcount + clen)
        let ipr := noteLastFragment ipr f
        match ← chainLoop (helperOf f) true [] ipr.p with
        | .dropped =>
          return (⟨s.reassdatagrams.set i ipr, u16 (count - pbufClen f.pbufs)⟩, none)
        | .queued valid front back =>
          let p := front ++ helperOf f :: back
          if ← validate ipr valid (helperOf f) front back then
            match p with
            | [] => none
            | first :: rest => do
              let c ← chainPbufs first.frag.pbufs rest
              return (⟨s.reassdatagrams.eraseIdx i, u16 (count - pbufClen c)⟩,
                some ⟨rebuiltHdr ipr, c, p.map Helper.frag⟩)
          else return (⟨s.reassdatagrams.set i { ipr with p := p }, count⟩, none)

/-! ### The timer -/

/-- The walk of `ip_reass_tmr`; `kept` is what was walked over. -/
def tmrLoop (kept : List Reassdata) (count : ℕ) : List Reassdata → Option Reass
  | [] => some ⟨kept, count⟩
  | r :: rs =>
    if 0 < r.timer then tmrLoop (kept ++ [{ r with timer := r.timer - 1 }]) count rs
    else do
      let prev := if kept = [] then none else some (kept.length - 1)
      let (s, _) ← freeCompleteDatagram ⟨kept ++ r :: rs, count⟩ kept.length prev
      tmrLoop kept s.pbufcount rs

/-- `ip_reass_tmr` -/
def ipReassTmr (s : Reass) : Option Reass := tmrLoop [] s.pbufcount s.reassdatagrams

/-! ### Runs -/

inductive Event where
  | fragment (f : Fragment)
  | tick

/-- The reassembly state, and what the last step returned. -/
structure State where
  reass : Reass
  returned : Option Datagram

def Event.exec (s : State) : Event → Option State
  | fragment f => (ipReass s.reass f).map fun r => ⟨r.1, r.2⟩
  | tick => (ipReassTmr s.reass).map fun r => ⟨r, none⟩

def Event.Allowed : Event → Prop
  | fragment f => f.FromInput
  | tick => True

def reassSystem : System State Event where
  start s := s = ⟨⟨[], 0⟩, none⟩
  step s e s' := e.Allowed ∧ e.exec s = some s'

end QuietLwip.Reassembly
