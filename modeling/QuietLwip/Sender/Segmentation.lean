import QuietLwip.Buffers.Headers
import QuietLwip.Sender.Enqueue

/-!
# `tcp_write` and its memory

`tcp_write` once more, over the pbufs of the segments. Every pbuf and every segment is asked for, and is
released again where a later step finds no memory. `none` is a failed assertion, or an access outside the
memory of a pbuf.
-/

namespace QuietLwip.Sender.Segmentation

open Serial Word Tcp Buffers QuietLwip.Stream

/-- `TCP_SNDQUEUELEN_OVERFLOW` -/
def tcpSndQueuelenOverflow : ℕ := 0xffff - 3

def tcpHlen : ℕ := 20

/-- `TCP_PSH` -/
def tcpPsh : ℕ := 0x08

def sizeofStructPbuf : ℕ := 24

/-- `LWIP_TCP_OPT_LENGTH`, for `TF_SEG_OPTS_MSS` and `TF_SEG_OPTS_TS` -/
def lwipTcpOptLength (flags : ℕ) : ℕ :=
  (if flags.testBit 0 then 4 else 0) + (if flags.testBit 1 then 12 else 0)

/-! ### Memory -/

/-- What the allocators are going to answer, what is in memory that has not been written, and the objects
that are allocated. -/
structure Memory where
  answers : List (Option ℕ)
  contents : ℕ → ℕ → UInt8
  live : Multiset ℕ

namespace Memory

/-- `mem_malloc` or `memp_malloc` -/
def alloc (m : Memory) : Option ℕ × Memory :=
  match m.answers with
  | [] => (none, m)
  | none :: answers => (none, { m with answers := answers })
  | some addr :: answers => (some addr, { m with answers := answers, live := addr ::ₘ m.live })

/-- `mem_free` and `memp_free` -/
def release (objects : Multiset ℕ) (m : Memory) : Memory := { m with live := m.live - objects }

theorem block_length (m : Memory) (addr size : ℕ) :
    ((List.range size).map (m.contents addr)).length = size := by
  rw [List.length_map, List.length_range]

/-- The memory behind a struct -/
def block (m : Memory) (addr size : ℕ) : RamBlock size :=
  ⟨addr, (List.range size).map (m.contents addr), m.block_length addr size⟩

end Memory

/-- `pbuf_free` -/
def freeChain (c : List Pbuf) (m : Memory) : Option Memory :=
  (pbufFree c).map fun r => m.release (r.freed.map Pbuf.addr)

/-! ### Data -/

/-- `arg` and `len` -/
structure Data where
  bytes : List UInt8
  lt : bytes.length < 2 ^ 16

namespace Data

def len (arg : Data) : ℕ := arg.bytes.length

theorem slice_lt (arg : Data) (pos n : ℕ) : ((arg.bytes.drop pos).take n).length < 2 ^ 16 := by
  have := arg.lt
  rw [List.length_take, List.length_drop]
  omega

/-- `n` bytes from `pos` on -/
def slice (arg : Data) (pos n : ℕ) : Data := ⟨(arg.bytes.drop pos).take n, arg.slice_lt pos n⟩

end Data

/-- The bits of `apiflags` -/
structure ApiFlags where
  copy : Bool
  more : Bool
  deriving DecidableEq, Repr

/-! ### The pcb -/

/-- A header: where it is in the memory of the first pbuf, and what is filled in when the segment is
created. -/
structure TcpHdr where
  pos : ℕ
  src : ℕ
  dest : ℕ
  seqno : Seq
  hdrlen : ℕ
  flags : ℕ
  urgp : ℕ
  deriving DecidableEq, Repr

/-- `struct tcp_seg` -/
structure TcpSeg where
  addr : ℕ
  p : List Pbuf
  len : ℕ
  flags : ℕ
  tcphdr : TcpHdr
  deriving DecidableEq

/-- Where the payload of the first pbuf begins -/
def payloadPos : List Pbuf → ℕ
  | [] => 0
  | p :: _ => p.payload

namespace TcpSeg

def optlen (seg : TcpSeg) : ℕ := lwipTcpOptLength seg.flags

/-- `seg->p->payload` points to the header, or to the headers that the layers below have put in front of it
when the segment was sent. -/
def below (seg : TcpSeg) : ℕ := seg.tcphdr.pos - payloadPos seg.p

/-- What comes after the header and its options -/
def data (seg : TcpSeg) : List UInt8 := (bytes seg.p).drop (seg.below + tcpHlen + seg.optlen)

/-- The segment and its pbufs -/
def objects (seg : TcpSeg) : Multiset ℕ := seg.addr ::ₘ (seg.p.map Pbuf.addr : List ℕ)

/-- `TCPH_SET_FLAG` -/
def setFlag (flag : ℕ) (seg : TcpSeg) : TcpSeg :=
  { seg with tcphdr := { seg.tcphdr with flags := seg.tcphdr.flags ||| flag } }

end TcpSeg

/-- The fields of a `tcp_pcb` that `tcp_write` looks at -/
structure WritePcb where
  state : TcpState
  localPort : ℕ
  remotePort : ℕ
  mss : ℕ
  sndWndMax : ℕ
  -- `TF_NODELAY`, `TF_NAGLEMEMERR`
  nodelay : Bool
  nagleMemErr : Bool
  sndLbb : Seq
  sndBuf : ℕ
  sndQueuelen : ℕ
  unsentOversize : ℕ
  unsent : List TcpSeg
  unacked : List TcpSeg

/-! ### Allocation -/

/-- `pbuf_alloc(PBUF_RAW or PBUF_TRANSPORT, len, PBUF_ROM)`, with the data as its payload -/
def romPbuf (data : Data) (addr : ℕ) : Pbuf := { dataPbuf data.bytes data.lt addr with type := .rom }

theorem transport_lt : 0 < 2 ^ 16 := by decide

/-- The pbuf for a header alone -/
def headerPbuf (addr : ℕ) (m : Memory) : Pbuf :=
  ramPbuf .transport 0 transport_lt (m.block addr (layerOffset .transport + 0))

/-- What `tcp_pbuf_prealloc` returns for `length` bytes: a pbuf, and the bytes behind those. -/
structure Prealloc (length : ℕ) where
  p : Pbuf
  oversize : ℕ
  len_eq : p.len = length

theorem request_lt {layer : PbufLayer} {alloc : ℕ}
    (h : sizeofStructPbuf + layerOffset layer + alloc < 2 ^ 16) : alloc < 2 ^ 16 :=
  (Nat.le_add_left alloc _).trans_lt h

theorem trimmed_lt {length alloc : ℕ} (hle : length ≤ alloc) (hlt : alloc < 2 ^ 16) :
    length < 2 ^ 16 := hle.trans_lt hlt

theorem trimmed_inMem {layer : PbufLayer} {length alloc : ℕ} (hle : length ≤ alloc)
    (b : RamBlock (layerOffset layer + alloc)) : layerOffset layer + length ≤ b.mem.length := by
  rw [b.memLen]
  exact Nat.add_le_add_left hle _

/-- `p->len` is trimmed to what is in use. -/
def prealloc {layer : PbufLayer} {length alloc : ℕ} (hle : length ≤ alloc) (hlt : alloc < 2 ^ 16)
    (b : RamBlock (layerOffset layer + alloc)) : Prealloc length where
  p := { ramPbuf layer alloc hlt b with
    totLen := length
    len := length
    inMem := trimmed_inMem hle b
    lenLt := trimmed_lt hle hlt
    totLt := trimmed_lt hle hlt }
  oversize := alloc - length
  len_eq := rfl

theorem Prealloc.holds {data : Data} (r : Prealloc data.bytes.length) : data.bytes.length ≤ r.p.len :=
  r.len_eq.ge

/-- `TCP_DATA_COPY2` to the payload -/
def Prealloc.copy {data : Data} (r : Prealloc data.bytes.length) : Pbuf := r.p.write data.bytes r.holds

namespace WritePcb

/-- `mss_local` -/
def mssLocal (pcb : WritePcb) : ℕ := min pcb.mss (pcb.sndWndMax / 2)

/-- `alloc`; `TCP_OVERSIZE` is `TCP_MSS`, and `MEM_ALIGNMENT` is 1. -/
def allocLen (length maxLength : ℕ) (flags : ApiFlags) (firstSeg : Bool) (pcb : WritePcb) : ℕ :=
  if length < maxLength ∧ (flags.more = true ∨ pcb.nodelay = false ∧
      (firstSeg = false ∨ pcb.unsent ≠ [] ∨ pcb.unacked ≠ [])) then
    min maxLength (length + tcpMss)
  else length

theorem le_allocLen (length maxLength : ℕ) (flags : ApiFlags) (firstSeg : Bool) (pcb : WritePcb) :
    length ≤ pcb.allocLen length maxLength flags firstSeg := by
  rw [allocLen]
  split
  · omega
  · exact le_rfl

/-- `tcp_pbuf_prealloc`. The size of the block has to fit in a `mem_size_t`. -/
def tcpPbufPrealloc (layer : PbufLayer) (length maxLength : ℕ) (flags : ApiFlags) (firstSeg : Bool)
    (m : Memory) (pcb : WritePcb) : Option (Option (Prealloc length) × Memory) :=
  let alloc := pcb.allocLen length maxLength flags firstSeg
  if h : sizeofStructPbuf + layerOffset layer + alloc < 2 ^ 16 then
    match m.alloc with
    | (none, m) => some (none, m)
    | (some addr, m) =>
      some (some (prealloc (pcb.le_allocLen length maxLength flags firstSeg) (request_lt h)
        (m.block addr (layerOffset layer + alloc))), m)
  else none

end WritePcb

/-- `tcp_seg_free` -/
def tcpSegFree (seg : TcpSeg) (m : Memory) : Option Memory :=
  (freeChain seg.p m).map (Memory.release {seg.addr})

/-- `tcp_segs_free` -/
def tcpSegsFree (queue : List TcpSeg) (m : Memory) : Option Memory :=
  queue.foldlM (fun m seg => tcpSegFree seg m) m

/-- The fields of a new segment and of its header -/
def newSegment (addr len : ℕ) (p : List Pbuf) (seqno : Seq) (pcb : WritePcb) : TcpSeg where
  addr := addr
  p := p
  len := len
  flags := 0
  tcphdr := {
    pos := payloadPos p
    src := pcb.localPort
    dest := pcb.remotePort
    seqno := seqno
    hdrlen := 5
    flags := 0
    urgp := 0 }

/-- `tcp_create_segment`, for a segment without flags and without options -/
def tcpCreateSegment (p : List Pbuf) (seqno : Seq) (m : Memory) (pcb : WritePcb) :
    Option (Option TcpSeg × Memory) :=
  match m.alloc with
  | (none, m) => (freeChain p m).map fun m => (none, m)
  | (some addr, m) =>
    (pbufHeader p tcpHlen).bind fun
      | (0, p') => some (some (newSegment addr (totLen p) p' seqno pcb), m)
      | (_, p') => (tcpSegFree (newSegment addr (totLen p) p' seqno pcb) m).map fun m => (none, m)

/-! ### The three phases -/

/-- The local variables of `tcp_write`. `seg` is whether the variable is set: it then is the last segment
of `queue`, or the last unsent one when `queue` is empty. -/
structure Draft where
  concatP : Option Pbuf := none
  queue : List TcpSeg := []
  seg : Bool := false
  pos : ℕ := 0
  oversize : ℕ := 0
  oversizeUsed : ℕ := 0
  queuelen : ℕ
  memory : Memory

namespace WritePcb

/-- `space`, in 16 bits -/
def space (last : TcpSeg) (pcb : WritePcb) : ℕ := u16 ((pcb.mssLocal : ℤ) - (last.len + last.optlen : ℕ))

/-- Phase 1: the data for the oversized pbuf is only counted. -/
def useOversize (arg : Data) (d : Draft) (pcb : WritePcb) : Draft :=
  if 0 < pcb.unsentOversize then
    let oversizeUsed := if pcb.unsentOversize < arg.len then pcb.unsentOversize else arg.len
    { d with
      seg := true
      oversizeUsed := oversizeUsed
      pos := d.pos + oversizeUsed
      oversize := pcb.unsentOversize - oversizeUsed }
  else { d with oversize := pcb.unsentOversize }

/-- A pbuf with a copy of the data or a reference to it, and the new `oversize` -/
def concatPbuf (flags : ApiFlags) (data : Data) (space oversize : ℕ) (m : Memory) (pcb : WritePcb) :
    Option (Option (Pbuf × ℕ) × Memory) :=
  if flags.copy then
    (pcb.tcpPbufPrealloc .raw data.bytes.length space flags true m).map fun
      | (none, m) => (none, m)
      | (some r, m) => (some (r.copy, r.oversize), m)
  else
    match m.alloc with
    | (none, m) => some (none, m)
    | (some addr, m) => some (some (romPbuf data addr, oversize), m)

/-- Phase 2: a pbuf for the end of the last segment. `.error` is the jump to `memerr`. -/
def chainPbuf (flags : ApiFlags) (arg : Data) (last : TcpSeg) (space : ℕ) (d : Draft) (pcb : WritePcb) :
    Option (Except Draft Draft) :=
  if d.pos < arg.len ∧ 0 < space ∧ 0 < last.len then
    let seglen := if space < arg.len - d.pos then space else arg.len - d.pos
    (pcb.concatPbuf flags (arg.slice d.pos seglen) space d.oversize d.memory).map fun
      | (none, m) => .error { d with seg := true, memory := m }
      | (some (p, oversize), m) => .ok { d with
          concatP := some p
          seg := true
          pos := d.pos + seglen
          oversize := oversize
          queuelen := u16 (d.queuelen + pbufClen [p])
          memory := m }
  else some (.ok d)

/-- Phases 1 and 2, and the assertions on `oversize` -/
def extendTail (flags : ApiFlags) (arg : Data) (d : Draft) (pcb : WritePcb) :
    Option (Except Draft Draft) :=
  match Snd.unsnoc pcb.unsent with
  | none => if pcb.unsentOversize = 0 then some (.ok d) else none
  | some (_, last) =>
    let d := pcb.useOversize arg d
    if d.oversize = 0 ∨ d.pos = arg.len then
      pcb.chainPbuf flags arg last (u16 ((pcb.space last : ℤ) - d.oversizeUsed)) d
    else none

/-- The pbufs of a new segment and the new `oversize`: one with a copy of the data, or one for the header in
front of one with a reference to the data. -/
def segmentPbufs (flags : ApiFlags) (data : Data) (firstSeg : Bool) (oversize : ℕ) (m : Memory)
    (pcb : WritePcb) : Option (Option (List Pbuf × ℕ) × Memory) :=
  if flags.copy then
    (pcb.tcpPbufPrealloc .transport data.bytes.length pcb.mssLocal flags firstSeg m).map fun
      | (none, m) => (none, m)
      | (some r, m) => (some ([r.copy], r.oversize), m)
  else if oversize = 0 then
    match m.alloc with
    | (none, m) => some (none, m)
    | (some addr, m) =>
      match m.alloc with
      | (none, m) => (freeChain [romPbuf data addr] m).map fun m => (none, m)
      | (some hdr, m) => (pbufCat [headerPbuf hdr m] [romPbuf data addr]).map fun p => (some (p, oversize), m)
  else none

/-- A turn of phase 3 -/
def nextSegment (flags : ApiFlags) (arg : Data) (d : Draft) (pcb : WritePcb) :
    Option (Except Draft Draft) :=
  let left := arg.len - d.pos
  let seglen := if left > pcb.mssLocal then pcb.mssLocal else left
  (pcb.segmentPbufs flags (arg.slice d.pos seglen) d.queue.isEmpty d.oversize d.memory).bind fun
    | (none, m) => some (.error { d with memory := m })
    | (some (p, oversize), m) =>
      let queuelen := u16 (d.queuelen + pbufClen p)
      if queuelen > tcpSndQueuelen ∨ queuelen > tcpSndQueuelenOverflow then
        (freeChain p m).map fun m => .error { d with memory := m }
      else
        (tcpCreateSegment p (pcb.sndLbb + (d.pos : Seq)) m pcb).map fun
          | (none, m) => .error { d with memory := m }
          | (some seg, m) => .ok { d with
              queue := d.queue ++ [seg]
              seg := true
              pos := d.pos + seglen
              oversize := oversize
              queuelen := queuelen
              memory := m }

/-- Phase 3. Every turn adds to `queuelen`, which bounds their number. -/
def segmentLoop (flags : ApiFlags) (arg : Data) (pcb : WritePcb) : ℕ → Draft → Option (Except Draft Draft)
  | turns, d =>
    if d.pos < arg.len then
      match turns with
      | 0 => none
      | turns + 1 => (pcb.nextSegment flags arg d).bind fun
        | .error d => some (.error d)
        | .ok d => segmentLoop flags arg pcb turns d
    else some (.ok d)

/-- The three phases -/
def segmentation (flags : ApiFlags) (arg : Data) (m : Memory) (pcb : WritePcb) :
    Option (Except Draft Draft) :=
  (pcb.extendTail flags arg { queuelen := pcb.sndQueuelen, memory := m }).bind fun
    | .error d => some (.error d)
    | .ok d => pcb.segmentLoop flags arg (tcpSndQueuelen + 1) d

end WritePcb

/-! ### The end of `tcp_write` -/

theorem extend_lt (p : Pbuf) (l : List UInt8) : u16 ((p.len : ℤ) + l.length) < 2 ^ 16 := wrapU_lt 16 _

theorem extend_totLt (p : Pbuf) (l : List UInt8) : u16 ((p.totLen : ℤ) + l.length) < 2 ^ 16 := wrapU_lt 16 _

theorem extend_inMem (p : Pbuf) (l : List UInt8) (h : p.payload + p.len + l.length ≤ p.mem.length) :
    p.payload + u16 ((p.len : ℤ) + l.length) ≤
      (p.mem.take (p.payload + p.len) ++ (l ++ p.mem.drop (p.payload + p.len + l.length))).length := by
  have hle : u16 ((p.len : ℤ) + l.length) ≤ p.len + l.length := by
    simp only [u16, wrapU]
    omega
  simp only [List.length_append, List.length_take, List.length_drop]
  omega

/-- The bytes are copied behind the payload, and are then part of it. -/
def extend (p : Pbuf) (l : List UInt8) (h : p.payload + p.len + l.length ≤ p.mem.length) : Pbuf where
  addr := p.addr
  mem := p.mem.take (p.payload + p.len) ++ (l ++ p.mem.drop (p.payload + p.len + l.length))
  payload := p.payload
  totLen := u16 ((p.totLen : ℤ) + l.length)
  len := u16 ((p.len : ℤ) + l.length)
  type := p.type
  flags := p.flags
  ref := p.ref
  inMem := extend_inMem p l h
  lenLt := extend_lt p l
  totLt := extend_totLt p l
  refLt := p.refLt

/-- Bump `tot_len` of the whole chain, `len` of its tail. -/
def bumpChain (l : List UInt8) : List Pbuf → Option (List Pbuf)
  | [] => some []
  | [p] => if h : p.payload + p.len + l.length ≤ p.mem.length then some [extend p l h] else none
  | p :: q :: ps => (bumpChain l (q :: ps)).map (p.setTotLen (p.totLen + l.length) :: ·)

/-- The last unsent segment, with what phase 1 has counted -/
def commitOversize (arg : Data) (d : Draft) (last : TcpSeg) : Option TcpSeg :=
  if 0 < d.oversizeUsed then
    (bumpChain (arg.bytes.take d.oversizeUsed) last.p).map fun p =>
      { last with p := p, len := u16 (last.len + d.oversizeUsed) }
  else some last

/-- The last unsent segment, with the pbuf of phase 2 -/
def commitConcat (d : Draft) (last : TcpSeg) : Option TcpSeg :=
  match d.concatP with
  | none => some last
  | some p => (pbufCat last.p [p]).map fun c => { last with p := c, len := u16 (last.len + p.totLen) }

/-- `TCP_PSH` is set in the last segment. -/
def pushLast (queue : List TcpSeg) : List TcpSeg :=
  match Snd.unsnoc queue with
  | none => []
  | some (front, last) => front ++ [last.setFlag tcpPsh]

namespace WritePcb

/-- `pcb->unsent` after the call -/
def commitUnsent (arg : Data) (d : Draft) (pcb : WritePcb) : Option (List TcpSeg) :=
  match Snd.unsnoc pcb.unsent with
  | none => some d.queue
  | some (front, last) =>
    ((commitOversize arg d last).bind (commitConcat d)).map fun last => front ++ last :: d.queue

/-- `tcp_write: valid queue length` -/
def queuelenValid (pcb : WritePcb) : Prop := pcb.sndQueuelen ≠ 0 → pcb.unacked ≠ [] ∨ pcb.unsent ≠ []

instance (pcb : WritePcb) : Decidable pcb.queuelenValid :=
  inferInstanceAs (Decidable (pcb.sndQueuelen ≠ 0 → pcb.unacked ≠ [] ∨ pcb.unsent ≠ []))

/-- The transaction is committed. -/
def commit (flags : ApiFlags) (arg : Data) (d : Draft) (pcb : WritePcb) :
    Option (WriteErr × WritePcb × Memory) :=
  (pcb.commitUnsent arg d).bind fun unsent =>
    let pcb := { pcb with
      unsent := unsent
      unsentOversize := d.oversize
      sndLbb := pcb.sndLbb + (arg.len : Seq)
      sndBuf := u16 ((pcb.sndBuf : ℤ) - arg.len)
      sndQueuelen := d.queuelen }
    if pcb.queuelenValid then
      some (.ok, { pcb with
        unsent := if d.seg && !flags.more then pushLast unsent else unsent }, d.memory)
    else none

/-- `memerr` -/
def memerr (d : Draft) (pcb : WritePcb) : Option (WriteErr × WritePcb × Memory) :=
  let pcb := { pcb with nagleMemErr := true }
  let freed := match d.concatP with
    | none => some d.memory
    | some p => freeChain [p] d.memory
  (freed.bind (tcpSegsFree d.queue)).bind fun m =>
    if pcb.queuelenValid then some (.mem, pcb, m) else none

/-- `tcp_write_checks`, with its assertions -/
def tcpWriteChecks (len : ℕ) (pcb : WritePcb) : Option (WriteErr × WritePcb) :=
  if pcb.state ≠ .established ∧ pcb.state ≠ .closeWait ∧ pcb.state ≠ .synSent ∧
      pcb.state ≠ .synRcvd then some (.conn, pcb)
  else if len = 0 then some (.ok, pcb)
  else if len > pcb.sndBuf then some (.mem, { pcb with nagleMemErr := true })
  else if pcb.sndQueuelen ≥ tcpSndQueuelen ∨ pcb.sndQueuelen > tcpSndQueuelenOverflow then
    some (.mem, { pcb with nagleMemErr := true })
  else if (pcb.sndQueuelen ≠ 0 ∧ (pcb.unacked ≠ [] ∨ pcb.unsent ≠ [])) ∨
      (pcb.sndQueuelen = 0 ∧ pcb.unacked = [] ∧ pcb.unsent = []) then some (.ok, pcb)
  else none

/-- `tcp_write`, with an `arg` that is not `NULL` -/
def tcpWrite (flags : ApiFlags) (arg : Data) (m : Memory) (pcb : WritePcb) :
    Option (WriteErr × WritePcb × Memory) :=
  (pcb.tcpWriteChecks arg.len).bind fun
    | (.ok, pcb) => (pcb.segmentation flags arg m).bind fun
      | .error d => pcb.memerr d
      | .ok d => pcb.commit flags arg d
    | (err, pcb) => some (err, pcb, m)

end WritePcb

end QuietLwip.Sender.Segmentation
