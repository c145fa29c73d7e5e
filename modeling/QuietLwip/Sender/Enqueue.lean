import QuietLwip.Sender.Pcb

/-!
# `tcp_write`

Data is copied into the room at the end of the last unsent segment, chained to that segment, and put
into new segments. Nothing of the pcb changes before all of it has succeeded.
-/

namespace QuietLwip.Sender

open Serial Word Tcp QuietLwip.Stream

/-- `apiflags`, and for how many new pbufs and segments there is memory. -/
structure WriteArgs where
  copy : Bool := true
  more : Bool := false
  allocs : ℕ
  deriving DecidableEq, Repr

/-- What `tcp_write` returns. -/
inductive WriteErr where
  | ok
  | mem
  | conn
  deriving DecidableEq, Repr

/-- The local variables of `tcp_write`: the copied and the chained part of the data, the new
segments, and `pos`, `oversize`, `queuelen`. -/
structure Draft (α : Type*) where
  copied : List α := []
  chained : List α := []
  queue : List (OutSeg α) := []
  pos : ℕ := 0
  oversize : ℕ := 0
  queuelen : ℕ
  allocs : ℕ
  deriving DecidableEq, Repr

namespace Snd

variable {α : Type*}

/-- Segments are not made longer than half the largest window that has been offered. -/
def mssLocal (pcb : Snd α) : ℕ := min pcb.mss (pcb.sndWndMax / 2)

/-- `tcp_write_checks` -/
def tcpWriteChecks (len : ℕ) (pcb : Snd α) : Option WriteErr :=
  if pcb.state ≠ .established ∧ pcb.state ≠ .closeWait ∧ pcb.state ≠ .synSent ∧
      pcb.state ≠ .synRcvd then some .conn
  else if len = 0 then none
  else if pcb.sndBuf < len ∨ tcpSndQueuelen ≤ pcb.sndQueuelen then some .mem
  else none

/-- `*oversize` of `tcp_pbuf_prealloc`; `MEM_ALIGNMENT` is 1. -/
def tcpPbufPrealloc (args : WriteArgs) (length maxLength : ℕ) (firstSeg : Bool) (pcb : Snd α) : ℕ :=
  if length < maxLength ∧ (args.more = true ∨ pcb.nodelay = false ∧
      (firstSeg = false ∨ pcb.unsent ≠ [] ∨ pcb.unacked ≠ [])) then
    min maxLength (length + tcpMss) - length
  else 0

/-- `space`, in 16 bits: what `mss_local` leaves at the end of a segment of `len` bytes -/
def space (len : ℕ) (pcb : Snd α) : ℕ := u16 ((pcb.mssLocal : ℤ) - len)

/-- Phase 1: the room at the end of the last segment. -/
def copyInto (data : List α) (pcb : Snd α) : Draft α :=
  let used := min pcb.unsentOversize data.length
  { copied := data.take used
    pos := used
    oversize := pcb.unsentOversize - used
    queuelen := pcb.sndQueuelen
    allocs := 0 }

/-- Phase 2: a pbuf chained to the last segment. -/
def chainTo (args : WriteArgs) (data : List α) (last : OutSeg α) (d : Draft α) (pcb : Snd α) :
    Option (Draft α) :=
  let space := u16 ((pcb.space last.len : ℤ) - d.pos)
  if d.pos < data.length ∧ 0 < space ∧ 0 < last.len then
    match d.allocs with
    | 0 => none
    | allocs + 1 =>
      let seglen := min space (data.length - d.pos)
      some { d with
        chained := (data.drop d.pos).take seglen
        pos := d.pos + seglen
        oversize := if args.copy then pcb.tcpPbufPrealloc args seglen space true else d.oversize
        queuelen := d.queuelen + 1
        allocs := allocs }
  else some d

/-- A turn of phase 3: a new segment, of a pbuf that holds the data or of two. -/
def nextSegment (args : WriteArgs) (data : List α) (d : Draft α) (pcb : Snd α) :
    Option (Draft α) :=
  let seglen := min (data.length - d.pos) pcb.mssLocal
  let clen := if args.copy then 1 else 2
  match d.allocs with
  | 0 => none
  | allocs + 1 =>
    if tcpSndQueuelen < d.queuelen + clen then none
    else
      some { d with
        queue := d.queue ++ [{
          seqno := pcb.sndLbb + (d.pos : Seq)
          len := seglen
          p := (data.drop d.pos).take seglen
          clen := clen }]
        pos := d.pos + seglen
        oversize :=
          if args.copy then pcb.tcpPbufPrealloc args seglen pcb.mssLocal d.queue.isEmpty
          else d.oversize
        queuelen := d.queuelen + clen
        allocs := allocs }

/-- Phase 3. Every turn adds to the length of the queue, so there are not more than it may have. -/
def segmentLoop (args : WriteArgs) (data : List α) (pcb : Snd α) : ℕ → Draft α → Option (Draft α)
  | turns, d =>
    if d.pos < data.length then
      match turns with
      | 0 => none
      | turns + 1 => (pcb.nextSegment args data d).bind (segmentLoop args data pcb turns)
    else some d

/-- The three phases. -/
def segmentation (args : WriteArgs) (data : List α) (pcb : Snd α) : Option (Draft α) :=
  let chained := match unsnoc pcb.unsent with
    | some (_, last) =>
      pcb.chainTo args data last { pcb.copyInto data with allocs := args.allocs }
    | none => some { queuelen := pcb.sndQueuelen, allocs := args.allocs }
  chained.bind (pcb.segmentLoop args data (tcpSndQueuelen + 1))

/-- The last segment with what phases 1 and 2 have put there. -/
def extend (last : OutSeg α) (d : Draft α) : OutSeg α :=
  { last with
    len := last.len + d.copied.length + d.chained.length
    p := last.p ++ d.copied ++ d.chained
    clen := if d.chained = [] then last.clen else last.clen + 1 }

/-- The end of `tcp_write`. -/
def commit (len : ℕ) (d : Draft α) (pcb : Snd α) : Snd α :=
  { pcb with
    unsent := (match unsnoc pcb.unsent with
      | some (front, last) => front ++ [extend last d]
      | none => []) ++ d.queue
    unsentOversize := d.oversize
    sndLbb := pcb.sndLbb + (len : Seq)
    sndBuf := pcb.sndBuf - len
    sndQueuelen := d.queuelen }

/-- `tcp_write` -/
def tcpWrite (args : WriteArgs) (data : List α) (pcb : Snd α) : Snd α × WriteErr :=
  match pcb.tcpWriteChecks data.length with
  | some .mem => ({ pcb with nagleMemErr := true }, .mem)
  | some err => (pcb, err)
  | none =>
    match pcb.segmentation args data with
    | none => ({ pcb with nagleMemErr := true }, .mem)
    | some d => (pcb.commit data.length d, .ok)

end Snd

end QuietLwip.Sender
