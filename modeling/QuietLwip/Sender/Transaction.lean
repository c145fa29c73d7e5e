import QuietLwip.Sender.Segmentation

/-!
# `tcp_write` is a transaction

What has been allocated is in the local variables, until it is released at `memerr` or becomes part of the
queues. The local variables hold the data up to `pos` in three parts: what fits into the oversized pbuf, the
pbuf for the end of the last segment, and the new segments.
-/

namespace QuietLwip.Sender.Segmentation

open Serial Word Tcp Buffers QuietLwip.Stream

/-! ### The queues -/

/-- Behind the last pbuf there is memory for `n` bytes. -/
def Room (n : ℕ) (c : List Pbuf) : Prop := ∀ p ∈ c.getLast?, p.payload + p.len + n ≤ p.mem.length

/-- A segment whose lengths are those of its pbufs -/
structure TcpSeg.Sound (seg : TcpSeg) : Prop where
  ne_nil : seg.p ≠ []
  wellFormed : WellFormed seg.p
  len_eq : totLen seg.p = seg.below + tcpHlen + seg.optlen + seg.len

/-- The number of the pbufs of a queue -/
def clen (queue : List TcpSeg) : ℕ := (queue.map fun seg => seg.p.length).sum

/-- The bytes of a queue -/
def queueData (queue : List TcpSeg) : List UInt8 := queue.flatMap TcpSeg.data

/-- The queue invariants. What the last segment holds and what is left of `snd_buf` are parts of
`TCP_SND_BUF`, far from the end of 16 bits. -/
structure QueueInv (pcb : WritePcb) : Prop where
  unacked : ∀ seg ∈ pcb.unacked, seg.Sound
  unsent : ∀ seg ∈ pcb.unsent, seg.Sound
  queuelen : pcb.sndQueuelen = clen pcb.unacked + clen pcb.unsent
  oversize : pcb.unsent = [] → pcb.unsentOversize = 0
  room : ∀ seg ∈ pcb.unsent.getLast?, Room pcb.unsentOversize seg.p
  sndBuf : pcb.sndBuf ≤ tcpSndBuf
  fits : ∀ seg ∈ pcb.unsent.getLast?, totLen seg.p + pcb.sndBuf < 2 ^ 16

variable {m m' : Memory} {base : Multiset ℕ} {addr n : ℕ} {c t : List Pbuf} {p : Pbuf} {l : List UInt8}
  {seg : TcpSeg} {queue : List TcpSeg} {arg data : Data} {flags : ApiFlags} {pcb : WritePcb}
  {d : Draft}

theorem clen_cons (seg : TcpSeg) (queue : List TcpSeg) : clen (seg :: queue) = seg.p.length + clen queue :=
  rfl

theorem clen_append (q₁ q₂ : List TcpSeg) : clen (q₁ ++ q₂) = clen q₁ + clen q₂ := by
  rw [clen, List.map_append, List.sum_append]
  rfl

theorem queueData_append (q₁ q₂ : List TcpSeg) : queueData (q₁ ++ q₂) = queueData q₁ ++ queueData q₂ :=
  List.flatMap_append

/-- Every segment has a pbuf. -/
theorem clen_eq_zero (h : ∀ seg ∈ queue, seg.Sound) : clen queue = 0 ↔ queue = [] := by
  cases queue with
  | nil => exact iff_of_true rfl rfl
  | cons seg queue =>
    have hpos := List.length_pos_iff.mpr (h seg List.mem_cons_self).ne_nil
    rw [clen_cons]
    exact iff_of_false (by omega) (List.cons_ne_nil seg queue)

theorem QueueInv.queuelen_eq_zero (h : QueueInv pcb) :
    pcb.sndQueuelen = 0 ↔ pcb.unacked = [] ∧ pcb.unsent = [] := by
  rw [h.queuelen, Nat.add_eq_zero_iff, clen_eq_zero h.unacked, clen_eq_zero h.unsent]

/-- The data fits in `snd_buf`, and that in 16 bits. -/
theorem QueueInv.sndBuf_sub (h : QueueInv pcb) (hlen : n ≤ pcb.sndBuf) :
    u16 ((pcb.sndBuf : ℤ) - n) = pcb.sndBuf - n := by
  have hbound := h.sndBuf
  rw [tcpSndBuf] at hbound
  rw [← Int.natCast_sub hlen]
  exact u16_natCast (by omega)

/-- The assertion on the length of the queue -/
theorem queuelenValid_of_clen (h : pcb.sndQueuelen = clen pcb.unacked + clen pcb.unsent) :
    pcb.queuelenValid := by
  intro hne
  by_contra hno
  obtain ⟨hunacked, hunsent⟩ := not_or.mp hno
  rw [not_not.mp hunacked, not_not.mp hunsent] at h
  exact hne h

theorem unsnoc_nil {β : Type*} : Snd.unsnoc ([] : List β) = none := rfl

theorem unsnoc_snoc {β : Type*} (front : List β) (last : β) :
    Snd.unsnoc (front ++ [last]) = some (front, last) := by
  rw [Snd.unsnoc, List.getLast?_concat]
  dsimp only
  rw [List.dropLast_concat]

/-! ### Memory -/

namespace Memory

theorem alloc_none (h : m.alloc = (none, m')) : m'.live = m.live := by
  rw [alloc] at h
  split at h <;> cases h <;> rfl

theorem alloc_some (h : m.alloc = (some addr, m')) : m'.live = m.live + {addr} := by
  rw [alloc] at h
  split at h <;> cases h
  rw [Multiset.add_comm]
  rfl

/-- What has been added to the objects is released. -/
theorem release_live {objects : Multiset ℕ} (h : m.live = base + objects) :
    (m.release objects).live = base := by
  rw [release, h]
  exact Multiset.add_sub_cancel_right

end Memory

/-- A chain of new pbufs goes back to the memory it came from. -/
theorem freeChain_new (hne : c ≠ []) (hone : ∀ p ∈ c, p.ref = 1)
    (hlive : m.live = base + (c.map Pbuf.addr : List ℕ)) :
    ∃ m', freeChain c m = some m' ∧ m'.live = base := by
  obtain ⟨p, ps, rfl⟩ := List.exists_cons_of_ne_nil hne
  obtain ⟨r, hr, hfreed⟩ := freeLoop_ones hone 0
  have hobjects : r.freed.map Pbuf.addr = (p :: ps).map Pbuf.addr := by
    rw [hfreed, List.map_map]
    rfl
  refine ⟨m.release (r.freed.map Pbuf.addr), ?_, ?_⟩
  · rw [freeChain, pbufFree, hr]
    rfl
  · rw [hobjects]
    exact Memory.release_live hlive

theorem tcpSegFree_new (hne : seg.p ≠ []) (hone : ∀ p ∈ seg.p, p.ref = 1)
    (hlive : m.live = base + seg.objects) : ∃ m', tcpSegFree seg m = some m' ∧ m'.live = base := by
  have hchain : m.live = base + {seg.addr} + (seg.p.map Pbuf.addr : List ℕ) := by
    rw [hlive, TcpSeg.objects, ← Multiset.singleton_add, add_assoc]
  obtain ⟨m', hm', hlive'⟩ := freeChain_new hne hone hchain
  refine ⟨m'.release {seg.addr}, ?_, Memory.release_live hlive'⟩
  rw [tcpSegFree, hm']
  rfl

theorem tcpSegsFree_new (hqueue : ∀ seg ∈ queue, seg.p ≠ [] ∧ ∀ p ∈ seg.p, p.ref = 1)
    (hlive : m.live = base + (queue.map TcpSeg.objects).sum) :
    ∃ m', tcpSegsFree queue m = some m' ∧ m'.live = base := by
  induction queue generalizing m with
  | nil =>
    rw [List.map_nil, List.sum_nil, add_zero] at hlive
    exact ⟨m, rfl, hlive⟩
  | cons seg queue ih =>
    obtain ⟨⟨hne, hone⟩, hqueue⟩ := List.forall_mem_cons.mp hqueue
    have hlive' : m.live = base + (queue.map TcpSeg.objects).sum + seg.objects := by
      rw [hlive, List.map_cons, List.sum_cons, add_assoc, add_comm seg.objects]
    obtain ⟨m₁, hm₁, hlive₁⟩ := tcpSegFree_new hne hone hlive'
    obtain ⟨m', hm', hlive'⟩ := ih hqueue hlive₁
    refine ⟨m', ?_, hlive'⟩
    rw [tcpSegsFree, List.foldlM_cons, hm₁]
    exact hm'

/-- A call that may find no memory: it then leaves nothing behind, and otherwise has allocated the objects
of its result. -/
def Gets {β : Type} (base : Multiset ℕ) (objects : β → Multiset ℕ) (I : β → Prop)
    (r : Option (Option β × Memory)) : Prop :=
  (∃ m', r = some (none, m') ∧ m'.live = base) ∨
    ∃ b m', r = some (some b, m') ∧ m'.live = base + objects b ∧ I b

/-! ### New pbufs -/

/-- A pbuf by itself that holds the data, with `oversize` bytes behind it -/
structure Fresh (data : List UInt8) (oversize : ℕ) (p : Pbuf) : Prop where
  ref : p.ref = 1
  totLen_eq : p.totLen = p.len
  data_eq : p.data = data
  room : p.payload + p.len + oversize ≤ p.mem.length

theorem copy_fresh {layer : PbufLayer} {alloc : ℕ} (hle : data.bytes.length ≤ alloc) (hlt : alloc < 2 ^ 16)
    (b : RamBlock (layerOffset layer + alloc)) :
    Fresh data.bytes (prealloc hle hlt b).oversize (prealloc hle hlt b).copy := by
  refine ⟨rfl, rfl, ?_, ?_⟩
  · have hdata := (prealloc hle hlt b).p.write_data data.bytes (prealloc hle hlt b).holds
    have hlen : (prealloc hle hlt b).p.data.length = data.bytes.length := Pbuf.data_length _
    rw [List.drop_of_length_le hlen.le, List.append_nil] at hdata
    exact hdata
  · have hmem : (prealloc hle hlt b).copy.mem.length = layerOffset layer + alloc := by
      have hb := b.memLen
      have hwrite : (prealloc hle hlt b).copy.mem = b.mem.take (layerOffset layer) ++
        (data.bytes ++ b.mem.drop (layerOffset layer + data.bytes.length)) := rfl
      rw [hwrite]
      simp only [List.length_append, List.length_take, List.length_drop]
      omega
    rw [hmem]
    change layerOffset layer + data.bytes.length + (alloc - data.bytes.length) ≤ _
    omega

theorem romPbuf_fresh (data : Data) (addr : ℕ) : Fresh data.bytes 0 (romPbuf data addr) :=
  ⟨rfl, rfl, List.take_length, (Nat.zero_add data.bytes.length).le⟩

/-- A request for memory that is not larger than a block can be -/
theorem request_fits (layer : PbufLayer) (hlen : n ≤ tcpSndBuf) (maxLength : ℕ) (firstSeg : Bool) :
    sizeofStructPbuf + layerOffset layer + pcb.allocLen n maxLength flags firstSeg < 2 ^ 16 := by
  have halloc : pcb.allocLen n maxLength flags firstSeg ≤ n + tcpMss := by
    rw [WritePcb.allocLen]
    split <;> omega
  have hoffset := layerOffset_le layer
  have hsize : PBUF_POOL_BUFSIZE_ALIGNED = 1078 := rfl
  rw [sizeofStructPbuf]
  rw [tcpMss] at halloc
  rw [tcpSndBuf] at hlen
  omega

/-- The pbuf for a copy of the data -/
theorem tcpPbufPrealloc_gets (pcb : WritePcb) (flags : ApiFlags) (layer : PbufLayer)
    (hlen : data.bytes.length ≤ tcpSndBuf) (maxLength : ℕ) (firstSeg : Bool) (m : Memory) :
    Gets m.live (fun r => {r.copy.addr})
      (fun r => Fresh data.bytes r.oversize r.copy ∧ r.copy.type = .ram ∧ r.copy.payload = layerOffset layer)
      (pcb.tcpPbufPrealloc layer data.bytes.length maxLength flags firstSeg m) := by
  rw [WritePcb.tcpPbufPrealloc, dif_pos (request_fits layer hlen maxLength firstSeg)]
  cases halloc : m.alloc with
  | mk answer m₁ =>
    cases answer with
    | none => exact .inl ⟨m₁, rfl, Memory.alloc_none halloc⟩
    | some addr => exact .inr ⟨_, m₁, rfl, Memory.alloc_some halloc, copy_fresh _ _ _, rfl, rfl⟩

/-- The pbuf of phase 2 -/
theorem concatPbuf_gets (pcb : WritePcb) (flags : ApiFlags) {oversize : ℕ}
    (hlen : data.bytes.length ≤ tcpSndBuf) (hidle : flags.copy = false → oversize = 0) (space : ℕ) (m : Memory) :
    Gets m.live (fun r => {r.1.addr})
      (fun r => Fresh data.bytes r.2 r.1 ∧ (flags.copy = false → r.2 = 0))
      (pcb.concatPbuf flags data space oversize m) := by
  rw [WritePcb.concatPbuf]
  by_cases hcopy : flags.copy = true
  · rw [if_pos hcopy]
    obtain ⟨m', hr, hlive⟩ | ⟨r, m', hr, hlive, hfresh, -, -⟩ :=
      tcpPbufPrealloc_gets pcb flags .raw hlen space true m
    · rw [hr]
      exact .inl ⟨m', rfl, hlive⟩
    · rw [hr]
      exact .inr ⟨_, m', rfl, hlive, hfresh, fun hno => absurd (hcopy.symm.trans hno) (by decide)⟩
  · rw [if_neg hcopy]
    have hzero := hidle (Bool.not_eq_true _ ▸ hcopy)
    cases halloc : m.alloc with
    | mk answer m₁ =>
      cases answer with
      | none => exact .inl ⟨m₁, rfl, Memory.alloc_none halloc⟩
      | some addr =>
        exact .inr ⟨_, m₁, rfl, Memory.alloc_some halloc, hzero ▸ romPbuf_fresh data addr, fun _ => hzero⟩

/-- The pbufs of a new segment: room for the headers comes before the data. -/
structure NewChain (data : List UInt8) (oversize : ℕ) (c : List Pbuf) : Prop where
  head : ∃ p ps, c = p :: ps ∧ p.type = .ram ∧ p.payload = layerOffset .transport
  ref : ∀ p ∈ c, p.ref = 1
  wellFormed : WellFormed c
  bytes_eq : bytes c = data
  room : Room oversize c
  length_le : c.length ≤ 2

theorem NewChain.ne_nil {oversize : ℕ} (h : NewChain l oversize c) : c ≠ [] := by
  obtain ⟨p, ps, rfl, -, -⟩ := h.head
  exact List.cons_ne_nil p ps

theorem NewChain.one {oversize : ℕ} (h : Fresh l oversize p) (htype : p.type = .ram)
    (hpayload : p.payload = layerOffset .transport) : NewChain l oversize [p] := by
  refine ⟨⟨p, [], rfl, htype, hpayload⟩, ?_, ⟨h.totLen_eq, trivial⟩, ?_, ?_, Nat.le_succ 1⟩
  · intro q hq
    rw [List.mem_singleton.mp hq]
    exact h.ref
  · rw [bytes_cons, bytes_nil, List.append_nil, h.data_eq]
  · intro q hq
    cases hq
    exact h.room

/-- A header in front of a reference to the data -/
theorem pbufCat_new (data : Data) (addr hdr : ℕ) (m : Memory) :
    ∃ c, pbufCat [headerPbuf hdr m] [romPbuf data addr] = some c ∧ NewChain data.bytes 0 c ∧
      c.map Pbuf.addr = [hdr, addr] := by
  have hrom := romPbuf_fresh data addr
  have hlt : 0 + (romPbuf data addr).totLen < 2 ^ 16 := by
    rw [Nat.zero_add]
    exact (romPbuf data addr).totLt
  obtain ⟨c, hc, hwf, -, hbytes⟩ := pbufCat_spec (h := [headerPbuf hdr m]) (t := [romPbuf data addr])
    (List.cons_ne_nil _ _) (List.cons_ne_nil _ _) ⟨rfl, trivial⟩ ⟨rfl, trivial⟩ hlt
  have heq := pbufCat_eq hc
  refine ⟨c, hc, ⟨⟨_, _, heq, rfl, rfl⟩, ?_, hwf, ?_, ?_, ?_⟩, ?_⟩
  · intro p hp
    rw [heq] at hp
    rcases List.mem_cons.mp hp with rfl | hp
    · rfl
    · rw [List.mem_singleton.mp hp]
      exact hrom.ref
  · have hempty : (headerPbuf hdr m).data = [] := List.length_eq_zero_iff.mp (Pbuf.data_length _)
    rw [hbytes, bytes_cons, bytes_cons, hempty, hrom.data_eq]
    exact List.append_nil _
  · intro p hp
    rw [heq] at hp
    cases hp
    exact hrom.room
  · rw [heq]
    exact le_rfl
  · rw [heq]
    rfl

/-- The pbufs of a turn of phase 3 -/
theorem segmentPbufs_gets (pcb : WritePcb) (flags : ApiFlags) {oversize : ℕ}
    (hlen : data.bytes.length ≤ tcpSndBuf) (hidle : flags.copy = false → oversize = 0) (firstSeg : Bool) (m : Memory) :
    Gets m.live (fun r => (r.1.map Pbuf.addr : List ℕ))
      (fun r => NewChain data.bytes r.2 r.1 ∧ (flags.copy = false → r.2 = 0))
      (pcb.segmentPbufs flags data firstSeg oversize m) := by
  rw [WritePcb.segmentPbufs]
  by_cases hcopy : flags.copy = true
  · rw [if_pos hcopy]
    obtain ⟨m', hr, hlive⟩ | ⟨r, m', hr, hlive, hfresh, htype, hpayload⟩ :=
      tcpPbufPrealloc_gets pcb flags .transport hlen pcb.mssLocal firstSeg m
    · rw [hr]
      exact .inl ⟨m', rfl, hlive⟩
    · rw [hr]
      exact .inr ⟨_, m', rfl, hlive, .one hfresh htype hpayload,
        fun hno => absurd (hcopy.symm.trans hno) (by decide)⟩
  · have hzero := hidle (Bool.not_eq_true _ ▸ hcopy)
    rw [if_neg hcopy, if_pos hzero]
    cases halloc : m.alloc with
    | mk answer m₁ =>
      cases answer with
      | none => exact .inl ⟨m₁, rfl, Memory.alloc_none halloc⟩
      | some addr =>
        have hlive := Memory.alloc_some halloc
        dsimp only
        cases halloc₁ : m₁.alloc with
        | mk answer₁ m₂ =>
          cases answer₁ with
          | none =>
            -- the data pbuf is deallocated as well
            have hone : ∀ p ∈ [romPbuf data addr], p.ref = 1 := fun p hp => by
              rw [List.mem_singleton.mp hp]
              rfl
            obtain ⟨m', hm', hlive'⟩ := freeChain_new (List.cons_ne_nil _ _) hone
              ((Memory.alloc_none halloc₁).trans hlive)
            refine .inl ⟨m', ?_, hlive'⟩
            dsimp only
            rw [hm']
            rfl
          | some hdr =>
            obtain ⟨c, hc, hnew, haddr⟩ := pbufCat_new data addr hdr m₂
            refine .inr ⟨(c, oversize), m₂, ?_, ?_, hzero ▸ hnew, fun _ => hzero⟩
            · dsimp only
              rw [hc]
              rfl
            · dsimp only
              rw [Memory.alloc_some halloc₁, hlive, haddr, add_assoc]
              congr 1
              exact Multiset.add_comm _ _

/-- A new segment that holds the data -/
structure NewSeg (data : List UInt8) (oversize count : ℕ) (seg : TcpSeg) : Prop where
  sound : seg.Sound
  ref : ∀ p ∈ seg.p, p.ref = 1
  data_eq : seg.data = data
  len_eq : seg.len = data.length
  totLen_eq : totLen seg.p = tcpHlen + seg.len
  room : Room oversize seg.p
  length_eq : seg.p.length = count

/-- The segment over a new chain, when the header has been put in front of the data -/
theorem NewSeg.of_shown {oversize : ℕ} {q : Pbuf} {ps : List Pbuf} (hnew : NewChain l oversize (p :: ps))
    (hlen : l.length ≤ tcpSndBuf) (hshown : Shown tcpHlen p q) (hp : seg.p = q :: ps)
    (hseglen : seg.len = totLen (p :: ps)) (hflags : seg.flags = 0) (hpos : seg.tcphdr.pos = q.payload) :
    NewSeg l oversize (p :: ps).length seg := by
  have htot : p.totLen = l.length := by
    rw [← hnew.bytes_eq, hnew.wellFormed.bytes_length]
    rfl
  have hfits : p.totLen + tcpHlen < 2 ^ 16 := by
    simp only [tcpSndBuf, tcpHlen] at hlen ⊢
    omega
  obtain ⟨hwf, hqtot, hqlen, hqbytes⟩ := hshown.spec hnew.wellFormed hfits
  have hoptlen : seg.optlen = 0 := by
    rw [TcpSeg.optlen, hflags]
    decide
  have hbelow : seg.below = 0 := by
    rw [TcpSeg.below, hp, hpos]
    exact Nat.sub_self q.payload
  have hsegtot : totLen seg.p = tcpHlen + seg.len := by
    rw [hp, hseglen]
    exact hqtot.trans (Nat.add_comm _ _)
  refine ⟨⟨hp ▸ List.cons_ne_nil q ps, hp ▸ hwf, ?_⟩, ?_, ?_, hseglen.trans htot, hsegtot, ?_, hp ▸ rfl⟩
  · rw [hsegtot, hbelow, hoptlen, Nat.zero_add, Nat.add_zero]
  · intro r hr
    rw [hp] at hr
    rcases List.mem_cons.mp hr with rfl | hr
    · exact hshown.ref.trans (hnew.ref p List.mem_cons_self)
    · exact hnew.ref r (List.mem_cons_of_mem p hr)
  · rw [TcpSeg.data, hbelow, hoptlen, hp, Nat.zero_add, Nat.add_zero, hqbytes, hnew.bytes_eq]
  · intro r hr
    rw [hp] at hr
    cases ps with
    | nil =>
      obtain rfl : q = r := Option.some.inj hr
      have hlast := hnew.room p rfl
      have hback := hshown.room
      rw [hshown.payload, hqlen, hshown.mem]
      omega
    | cons p₂ ps => exact hnew.room r hr

/-- The memory of the pbufs is released where there is none for the segment. -/
theorem tcpCreateSegment_gets (pcb : WritePcb) {oversize : ℕ} (hnew : NewChain l oversize c)
    (hlen : l.length ≤ tcpSndBuf) (hlive : m.live = base + (c.map Pbuf.addr : List ℕ)) (seqno : Seq) :
    Gets base TcpSeg.objects (NewSeg l oversize c.length) (tcpCreateSegment c seqno m pcb) := by
  rw [tcpCreateSegment]
  cases halloc : m.alloc with
  | mk answer m₁ =>
    cases answer with
    | none =>
      obtain ⟨m', hm', hlive'⟩ := freeChain_new hnew.ne_nil hnew.ref
        ((Memory.alloc_none halloc).trans hlive)
      refine .inl ⟨m', ?_, hlive'⟩
      dsimp only
      rw [hm']
      rfl
    | some addr =>
      obtain ⟨p, ps, rfl, htype, hpayload⟩ := hnew.head
      have hroom : tcpHlen ≤ p.payload := by
        rw [hpayload]
        decide
      obtain ⟨q, hq, hshown⟩ := pbufHeader_shows ps (by decide : 0 < tcpHlen) hroom htype
      have haddr := pbufHeader_addr hq
      refine .inr ⟨newSegment addr (totLen (p :: ps)) (q :: ps) seqno pcb, m₁, ?_, ?_, ?_⟩
      · dsimp only
        rw [hq]
        rfl
      · rw [Memory.alloc_some halloc, hlive, ← haddr, add_assoc]
        congr 1
        exact Multiset.add_comm _ _
      · exact .of_shown hnew hlen hshown rfl rfl rfl rfl

/-! ### The local variables -/

/-- What has been allocated for the call -/
def Draft.objects (d : Draft) : Multiset ℕ :=
  (d.concatP.toList.map Pbuf.addr : List ℕ) + (d.queue.map TcpSeg.objects).sum

theorem Draft.objects_eq_zero (hconcat : d.concatP = none) (hqueue : d.queue = []) : d.objects = 0 := by
  rw [objects, hconcat, hqueue]
  rfl

/-- Everything allocated since the call is in the local variables, and can be released from there. -/
structure Allocated (base : Multiset ℕ) (d : Draft) : Prop where
  live : d.memory.live = base + d.objects
  concat_ref : ∀ p ∈ d.concatP, p.ref = 1
  queue_ref : ∀ seg ∈ d.queue, seg.p ≠ [] ∧ ∀ p ∈ seg.p, p.ref = 1

/-- The local variables between the phases -/
structure Drafting (base : Multiset ℕ) (flags : ApiFlags) (arg : Data) (pcb : WritePcb) (d : Draft) : Prop
    extends Allocated base d where
  pos_le : d.pos ≤ arg.len
  data_eq : arg.bytes.take d.oversizeUsed ++ bytes d.concatP.toList ++ queueData d.queue =
    arg.bytes.take d.pos
  used_le : d.oversizeUsed ≤ arg.len
  used_oversize : d.oversizeUsed ≤ pcb.unsentOversize
  concat_totLen : ∀ p ∈ d.concatP, p.totLen = p.len
  segs : ∀ seg ∈ d.queue, seg.Sound ∧ totLen seg.p = tcpHlen + seg.len ∧ seg.len ≤ arg.len
  queuelen_eq : d.queuelen = pcb.sndQueuelen + d.concatP.toList.length + clen d.queue
  queuelen_le : 0 < arg.len → d.queuelen ≤ tcpSndQueuelen
  idle : flags.copy = false → d.pos < arg.len → d.oversize = 0
  -- phases 1 and 2 are about the last unsent segment
  alone : pcb.unsent = [] → d.oversizeUsed = 0 ∧ d.concatP = none
  -- where the room is that `oversize` counts
  unsent_oversize : d.queue = [] → d.concatP = none → d.oversizeUsed + d.oversize ≤ pcb.unsentOversize
  concat_room : d.queue = [] → ∀ p ∈ d.concatP, p.payload + p.len + d.oversize ≤ p.mem.length
  queue_room : ∀ seg ∈ d.queue.getLast?, Room d.oversize seg.p

/-- A phase either jumps to `memerr`, or goes on. -/
def Lands (base : Multiset ℕ) (I : Draft → Prop) (r : Option (Except Draft Draft)) : Prop :=
  (∃ d, r = some (.error d) ∧ Allocated base d) ∨ ∃ d, r = some (.ok d) ∧ I d

theorem slice_bytes_length {pos : ℕ} (h : pos + n ≤ arg.len) : (arg.slice pos n).bytes.length = n := by
  rw [Data.len] at h
  rw [Data.slice, List.length_take, List.length_drop]
  omega

theorem take_slice (arg : Data) (pos n : ℕ) :
    arg.bytes.take pos ++ (arg.slice pos n).bytes = arg.bytes.take (pos + n) := List.take_add.symm

/-- `queuelen += pbuf_clen(p)` -/
theorem queuelen_add (hn : n ≤ tcpSndQueuelen) (hc : c.length ≤ 2) :
    u16 ((n : ℤ) + pbufClen c) = n + c.length := by
  have hclen : pbufClen c = c.length := by
    rw [pbufClen_eq]
    exact Nat.mod_eq_of_lt (by omega)
  rw [tcpSndQueuelen] at hn
  rw [hclen, ← Nat.cast_add]
  exact u16_natCast (by omega)

/-! ### Phases 1 and 2 -/

/-- Before phase 2 there is only what phase 1 has counted. -/
theorem drafting_start (h : QueueInv pcb) (hroom : 0 < arg.len → pcb.sndQueuelen < tcpSndQueuelen)
    (hconcat : d.concatP = none) (hqueue : d.queue = []) (hqueuelen : d.queuelen = pcb.sndQueuelen)
    (hlive : d.memory.live = base) (hpos : d.pos = d.oversizeUsed) (hused : d.oversizeUsed ≤ arg.len)
    (hsum : d.oversizeUsed + d.oversize ≤ pcb.unsentOversize)
    (hidle : d.oversizeUsed < arg.len → d.oversize = 0) :
    Drafting base flags arg pcb d where
  live := by rw [Draft.objects_eq_zero hconcat hqueue, add_zero, hlive]
  concat_ref := fun p hp => absurd (hconcat ▸ hp) (Option.not_mem_none p)
  queue_ref := fun seg hseg => absurd (hqueue ▸ hseg) List.not_mem_nil
  pos_le := hpos ▸ hused
  data_eq := by
    rw [hconcat, hqueue, hpos]
    exact (List.append_nil _).trans (List.append_nil _)
  used_le := hused
  used_oversize := (Nat.le_add_right _ _).trans hsum
  concat_totLen := fun p hp => absurd (hconcat ▸ hp) (Option.not_mem_none p)
  segs := fun seg hseg => absurd (hqueue ▸ hseg) List.not_mem_nil
  queuelen_eq := by
    rw [hqueuelen, hconcat, hqueue]
    rfl
  queuelen_le := fun hlen => hqueuelen ▸ (hroom hlen).le
  idle := fun _ hlt => hidle (hpos ▸ hlt)
  alone := fun hnil => by
    have hzero := h.oversize hnil
    exact ⟨by omega, hconcat⟩
  unsent_oversize := fun _ _ => hsum
  concat_room := fun _ p hp => absurd (hconcat ▸ hp) (Option.not_mem_none p)
  queue_room := by
    rw [hqueue]
    exact fun seg hseg => absurd hseg (Option.not_mem_none seg)

/-- Phase 1 uses all of the oversized pbuf, or comes to the end of the data. -/
theorem useOversize_drafting (flags : ApiFlags) (h : QueueInv pcb)
    (hroom : 0 < arg.len → pcb.sndQueuelen < tcpSndQueuelen) (m : Memory) :
    ∃ d, pcb.useOversize arg { queuelen := pcb.sndQueuelen, memory := m } = d ∧
      Drafting m.live flags arg pcb d ∧ (d.oversize = 0 ∨ d.pos = arg.len) ∧ d.concatP = none ∧
      d.queue = [] := by
  refine ⟨_, rfl, ?_⟩
  rw [WritePcb.useOversize]
  by_cases hover : 0 < pcb.unsentOversize
  · rw [if_pos hover]
    dsimp only
    rw [Nat.zero_add]
    by_cases hlt : pcb.unsentOversize < arg.len
    · rw [if_pos hlt, Nat.sub_self]
      exact ⟨drafting_start h hroom rfl rfl rfl rfl rfl hlt.le le_rfl fun _ => rfl, .inl rfl, rfl, rfl⟩
    · rw [if_neg hlt]
      have hsum : arg.len + (pcb.unsentOversize - arg.len) ≤ pcb.unsentOversize := by omega
      exact ⟨drafting_start h hroom rfl rfl rfl rfl rfl le_rfl hsum fun hno => absurd hno (lt_irrefl _),
        .inr rfl, rfl, rfl⟩
  · have hzero : pcb.unsentOversize = 0 := by omega
    rw [if_neg hover, hzero]
    exact ⟨drafting_start h hroom rfl rfl rfl rfl rfl (Nat.zero_le _) (Nat.zero_le _) fun _ => rfl,
      .inl rfl, rfl, rfl⟩

/-- A pbuf for the end of the last segment -/
theorem Drafting.chain {oversize seglen : ℕ} (hd : Drafting base flags arg pcb d)
    (hconcat : d.concatP = none) (hqueue : d.queue = []) (hunsent : pcb.unsent ≠ [])
    (hfresh : Fresh (arg.slice d.pos seglen).bytes oversize p) (hle : d.pos + seglen ≤ arg.len)
    (hlive : m.live = d.memory.live + {p.addr}) (hroom : d.queuelen < tcpSndQueuelen)
    (hidle : flags.copy = false → oversize = 0) :
    Drafting base flags arg pcb { d with
      concatP := some p, seg := true, pos := d.pos + seglen, oversize := oversize,
      queuelen := d.queuelen + 1, memory := m } where
  live := by
    rw [hlive, hd.live, Draft.objects_eq_zero hconcat hqueue, Draft.objects, hqueue, List.map_nil,
      List.sum_nil, add_zero, add_zero]
    rfl
  concat_ref := fun q hq => Option.some.inj hq ▸ hfresh.ref
  queue_ref := hd.queue_ref
  pos_le := hle
  data_eq := by
    have hdata := hd.data_eq
    rw [hconcat, hqueue] at hdata
    have hprefix : arg.bytes.take d.oversizeUsed = arg.bytes.take d.pos := by
      rw [← hdata]
      exact ((List.append_nil _).trans (List.append_nil _)).symm
    have hnew : bytes (some p).toList = (arg.slice d.pos seglen).bytes := by
      rw [Option.toList_some, bytes_cons, bytes_nil, List.append_nil, hfresh.data_eq]
    dsimp only
    rw [hqueue, hprefix, hnew, take_slice]
    exact List.append_nil _
  used_le := hd.used_le
  used_oversize := hd.used_oversize
  concat_totLen := fun q hq => Option.some.inj hq ▸ hfresh.totLen_eq
  segs := hd.segs
  queuelen_eq := by
    have hcount := hd.queuelen_eq
    rw [hconcat, hqueue] at hcount
    rw [hcount, hqueue]
    rfl
  queuelen_le := fun _ => hroom
  idle := fun hcopy _ => hidle hcopy
  alone := fun hnil => absurd hnil hunsent
  unsent_oversize := fun _ hnone => absurd hnone (Option.some_ne_none p)
  concat_room := fun _ q hq => Option.some.inj hq ▸ hfresh.room
  queue_room := by
    rw [hqueue]
    exact fun seg hseg => absurd hseg (Option.not_mem_none seg)

/-- Phase 2 -/
theorem chainPbuf_lands (hd : Drafting base flags arg pcb d) (hconcat : d.concatP = none)
    (hqueue : d.queue = []) (hlen : arg.len ≤ tcpSndBuf) (hunsent : pcb.unsent ≠ [])
    (hroom : 0 < arg.len → d.queuelen < tcpSndQueuelen) (last : TcpSeg) (space : ℕ) :
    Lands base (Drafting base flags arg pcb) (pcb.chainPbuf flags arg last space d) := by
  rw [WritePcb.chainPbuf]
  split
  · rename_i hmore
    obtain ⟨hpos, -, -⟩ := hmore
    have hmin : (if space < arg.len - d.pos then space else arg.len - d.pos) ≤ arg.len - d.pos := by
      split <;> omega
    generalize (if space < arg.len - d.pos then space else arg.len - d.pos) = seglen at hmin ⊢
    have hle : d.pos + seglen ≤ arg.len := by omega
    have hslice := slice_bytes_length hle
    obtain ⟨m, hr, hm⟩ | ⟨⟨p, oversize⟩, m, hr, hm, hfresh, hzero⟩ :=
      concatPbuf_gets pcb flags (hslice.trans_le (by omega)) (fun hcopy => hd.idle hcopy hpos) space
        d.memory
    · refine .inl ⟨{ d with seg := true, memory := m }, by dsimp only; rw [hr]; rfl, ?_⟩
      exact ⟨(hm.trans hd.live : m.live = base + d.objects), hd.concat_ref, hd.queue_ref⟩
    · have hshort : d.queuelen < tcpSndQueuelen := hroom (by omega)
      have hqueuelen : u16 ((d.queuelen : ℤ) + pbufClen [p]) = d.queuelen + 1 :=
        queuelen_add hshort.le (Nat.le_succ 1)
      refine .inr ⟨_, by dsimp only; rw [hr]; rfl, ?_⟩
      dsimp only at hm hfresh hzero ⊢
      rw [hqueuelen]
      exact hd.chain hconcat hqueue hunsent hfresh hle hm hshort hzero
  · exact .inr ⟨d, rfl, hd⟩

/-- Phases 1 and 2 -/
theorem extendTail_lands (flags : ApiFlags) (h : QueueInv pcb) (hlen : arg.len ≤ tcpSndBuf)
    (hroom : 0 < arg.len → pcb.sndQueuelen < tcpSndQueuelen) (m : Memory) :
    Lands m.live (Drafting m.live flags arg pcb)
      (pcb.extendTail flags arg { queuelen := pcb.sndQueuelen, memory := m }) := by
  rw [WritePcb.extendTail]
  rcases List.eq_nil_or_concat pcb.unsent with hnil | ⟨front, last, hsnoc⟩
  · rw [hnil, unsnoc_nil]
    dsimp only
    rw [if_pos (h.oversize hnil)]
    exact .inr ⟨_, rfl, drafting_start h hroom rfl rfl rfl rfl rfl (Nat.zero_le _) (Nat.zero_le _) fun _ => rfl⟩
  · have hne : pcb.unsent ≠ [] := by simp [hsnoc]
    obtain ⟨d, hd, hdrafting, hfull, hconcat, hqueue⟩ := useOversize_drafting flags h hroom m
    have hsame : d.queuelen = pcb.sndQueuelen := by
      rw [hdrafting.queuelen_eq, hconcat, hqueue]
      rfl
    rw [hsnoc, List.concat_eq_append, unsnoc_snoc]
    dsimp only
    rw [hd, if_pos hfull]
    exact chainPbuf_lands hdrafting hconcat hqueue hlen hne (hsame ▸ hroom) last _

/-! ### Phase 3 -/

theorem Allocated.congr (h : Allocated base d) (hm : m.live = d.memory.live) :
    Allocated base { d with memory := m } :=
  ⟨hm.trans h.live, h.concat_ref, h.queue_ref⟩

/-- A new segment comes to the end of the local queue. -/
theorem Drafting.snoc {oversize count seglen : ℕ} (hd : Drafting base flags arg pcb d)
    (hseg : NewSeg (arg.slice d.pos seglen).bytes oversize count seg) (hle : d.pos + seglen ≤ arg.len)
    (hlive : m.live = d.memory.live + seg.objects) (hcount : d.queuelen + count ≤ tcpSndQueuelen)
    (hidle : flags.copy = false → oversize = 0) :
    Drafting base flags arg pcb { d with
      queue := d.queue ++ [seg], seg := true, pos := d.pos + seglen, oversize := oversize,
      queuelen := d.queuelen + count, memory := m } := by
  have hslice := slice_bytes_length hle
  have hne : d.queue ++ [seg] ≠ [] := by simp
  have hlast : (d.queue ++ [seg]).getLast? = some seg := List.getLast?_concat
  exact {
    live := by
      have hsum : ((d.queue ++ [seg]).map TcpSeg.objects).sum =
          (d.queue.map TcpSeg.objects).sum + seg.objects := by
        rw [List.map_append, List.sum_append, List.map_singleton, List.sum_singleton]
      rw [hlive, hd.live, Draft.objects, Draft.objects, hsum, add_assoc, add_assoc]
    concat_ref := hd.concat_ref
    queue_ref := fun s hs => by
      rcases List.mem_append.mp hs with hs | hs
      · exact hd.queue_ref s hs
      · rw [List.mem_singleton.mp hs]
        exact ⟨hseg.sound.ne_nil, hseg.ref⟩
    pos_le := hle
    data_eq := by
      have hone : queueData [seg] = (arg.slice d.pos seglen).bytes := by
        rw [queueData, List.flatMap_singleton, hseg.data_eq]
      dsimp only
      rw [queueData_append, hone, ← List.append_assoc, hd.data_eq, take_slice]
    used_le := hd.used_le
    used_oversize := hd.used_oversize
    concat_totLen := hd.concat_totLen
    segs := fun s hs => by
      rcases List.mem_append.mp hs with hs | hs
      · exact hd.segs s hs
      · rw [List.mem_singleton.mp hs]
        refine ⟨hseg.sound, hseg.totLen_eq, ?_⟩
        rw [hseg.len_eq, hslice]
        omega
    queuelen_eq := by
      have hone : clen [seg] = count := by
        rw [clen_cons, hseg.length_eq]
        rfl
      dsimp only
      rw [hd.queuelen_eq, clen_append, hone, ← Nat.add_assoc]
    queuelen_le := fun _ => hcount
    idle := fun hcopy _ => hidle hcopy
    alone := hd.alone
    unsent_oversize := fun hnil => absurd hnil hne
    concat_room := fun hnil => absurd hnil hne
    queue_room := fun s hs => by
      rw [hlast] at hs
      exact Option.some.inj hs ▸ hseg.room }

/-- A turn of phase 3 -/
theorem nextSegment_lands (hd : Drafting base flags arg pcb d) (hlen : arg.len ≤ tcpSndBuf)
    (hpos : d.pos < arg.len) :
    Lands base (fun d' => Drafting base flags arg pcb d' ∧ d.queuelen < d'.queuelen)
      (pcb.nextSegment flags arg d) := by
  rw [WritePcb.nextSegment]
  have hmin : (if arg.len - d.pos > pcb.mssLocal then pcb.mssLocal else arg.len - d.pos) ≤
      arg.len - d.pos := by
    split <;> omega
  dsimp only
  generalize (if arg.len - d.pos > pcb.mssLocal then pcb.mssLocal else arg.len - d.pos) = seglen at hmin ⊢
  have hle : d.pos + seglen ≤ arg.len := by omega
  have hslice := slice_bytes_length hle
  have hdata : (arg.slice d.pos seglen).bytes.length ≤ tcpSndBuf := by omega
  obtain ⟨m, hr, hm⟩ | ⟨⟨c, oversize⟩, m, hr, hm, hnew, hzero⟩ :=
    segmentPbufs_gets pcb flags hdata (fun hcopy => hd.idle hcopy hpos) d.queue.isEmpty d.memory
  · rw [hr, Option.bind_some]
    exact .inl ⟨_, rfl, hd.toAllocated.congr hm⟩
  · have hqueuelen : u16 ((d.queuelen : ℤ) + pbufClen c) = d.queuelen + c.length :=
      queuelen_add (hd.queuelen_le (by omega)) hnew.length_le
    rw [hr, Option.bind_some]
    dsimp only at hm hnew hzero ⊢
    rw [hqueuelen]
    split
    · -- the queue is too long
      obtain ⟨m', hm', hlive⟩ := freeChain_new hnew.ne_nil hnew.ref hm
      rw [hm']
      exact .inl ⟨_, rfl, hd.toAllocated.congr hlive⟩
    · rename_i hshort
      obtain ⟨m', hs, hlive⟩ | ⟨seg, m', hs, hlive, hseg⟩ :=
        tcpCreateSegment_gets pcb hnew hdata hm (pcb.sndLbb + (d.pos : Seq))
      · rw [hs]
        exact .inl ⟨_, rfl, hd.toAllocated.congr hlive⟩
      · have hcount : 0 < c.length := List.length_pos_iff.mpr hnew.ne_nil
        rw [hs]
        exact .inr ⟨_, rfl, hd.snoc hseg hle hlive (by omega) hzero, Nat.lt_add_of_pos_right hcount⟩

/-- The loop ends before its turns do, since every turn adds to the length of the queue. -/
theorem segmentLoop_lands (hd : Drafting base flags arg pcb d) (hlen : arg.len ≤ tcpSndBuf) {turns : ℕ}
    (hturns : d.pos < arg.len → tcpSndQueuelen < turns + d.queuelen) :
    Lands base (fun d' => Drafting base flags arg pcb d' ∧ d'.pos = arg.len)
      (pcb.segmentLoop flags arg turns d) := by
  induction turns generalizing d with
  | zero =>
    have hle := hd.pos_le
    have hend : ¬ d.pos < arg.len := fun hlt => by
      have hshort := hd.queuelen_le (by omega)
      have hlong := hturns hlt
      omega
    rw [WritePcb.segmentLoop, if_neg hend]
    exact .inr ⟨d, rfl, hd, by omega⟩
  | succ turns ih =>
    rw [WritePcb.segmentLoop]
    by_cases hlt : d.pos < arg.len
    · rw [if_pos hlt]
      obtain ⟨d', hr, hd'⟩ | ⟨d', hr, hd', hmore⟩ := nextSegment_lands hd hlen hlt
      · rw [hr]
        exact .inl ⟨d', rfl, hd'⟩
      · have hlong := hturns hlt
        rw [hr]
        exact ih hd' fun _ => by omega
    · have hle := hd.pos_le
      rw [if_neg hlt]
      exact .inr ⟨d, rfl, hd, by omega⟩

/-- The three phases -/
theorem segmentation_lands (flags : ApiFlags) (h : QueueInv pcb) (hlen : arg.len ≤ tcpSndBuf)
    (hroom : 0 < arg.len → pcb.sndQueuelen < tcpSndQueuelen) (m : Memory) :
    Lands m.live (fun d => Drafting m.live flags arg pcb d ∧ d.pos = arg.len)
      (pcb.segmentation flags arg m) := by
  rw [WritePcb.segmentation]
  obtain ⟨d, hr, hd⟩ | ⟨d, hr, hd⟩ := extendTail_lands flags h hlen hroom m
  · rw [hr]
    exact .inl ⟨d, rfl, hd⟩
  · rw [hr]
    exact segmentLoop_lands hd hlen fun _ => by omega

/-! ### The end of the call -/

/-- At `memerr` everything is released. -/
theorem memerr_spec (h : QueueInv pcb) (hd : Allocated base d) :
    ∃ m', pcb.memerr d = some (.mem, { pcb with nagleMemErr := true }, m') ∧ m'.live = base := by
  have hvalid : ({ pcb with nagleMemErr := true } : WritePcb).queuelenValid :=
    queuelenValid_of_clen h.queuelen
  have hlive := hd.live
  rw [Draft.objects] at hlive
  rw [WritePcb.memerr]
  cases hconcat : d.concatP with
  | none =>
    rw [hconcat, Option.toList_none, List.map_nil, Multiset.coe_nil, zero_add] at hlive
    obtain ⟨m', hm', hlive'⟩ := tcpSegsFree_new hd.queue_ref hlive
    refine ⟨m', ?_, hlive'⟩
    dsimp only
    rw [Option.bind_some, hm', Option.bind_some, if_pos hvalid]
  | some p =>
    have hone : ∀ q ∈ [p], q.ref = 1 := fun q hq => by
      rw [List.mem_singleton.mp hq]
      exact hd.concat_ref p hconcat
    rw [hconcat, Option.toList_some, add_comm (List.map Pbuf.addr [p] : Multiset ℕ), ← add_assoc] at hlive
    obtain ⟨m₁, hm₁, hlive₁⟩ := freeChain_new (List.cons_ne_nil p []) hone hlive
    obtain ⟨m', hm', hlive'⟩ := tcpSegsFree_new hd.queue_ref hlive₁
    refine ⟨m', ?_, hlive'⟩
    dsimp only
    rw [hm₁, Option.bind_some, hm', Option.bind_some, if_pos hvalid]

theorem extend_len (h : p.payload + p.len + l.length ≤ p.mem.length) (hlt : p.len + l.length < 2 ^ 16) :
    (extend p l h).len = p.len + l.length := by
  have hlen : (extend p l h).len = u16 ((p.len : ℤ) + l.length) := rfl
  rw [hlen, ← Nat.cast_add]
  exact u16_natCast hlt

theorem extend_data (h : p.payload + p.len + l.length ≤ p.mem.length) (hlt : p.len + l.length < 2 ^ 16) :
    (extend p l h).data = p.data ++ l := by
  have hmem : (extend p l h).mem.drop p.payload =
      p.data ++ (l ++ p.mem.drop (p.payload + p.len + l.length)) := by
    have hle : p.payload ≤ (p.mem.take (p.payload + p.len)).length := by
      rw [List.length_take]
      omega
    have heq : (extend p l h).mem =
      p.mem.take (p.payload + p.len) ++ (l ++ p.mem.drop (p.payload + p.len + l.length)) := rfl
    rw [heq, List.drop_append_of_le_length hle, List.drop_take, Nat.add_sub_cancel_left, Pbuf.data]
  have hdata : (extend p l h).data = ((extend p l h).mem.drop p.payload).take (extend p l h).len := rfl
  rw [hdata, hmem, extend_len h hlt, ← List.append_assoc]
  exact List.take_left' (by rw [List.length_append, Pbuf.data_length])

/-- The bytes take up the room. -/
theorem extend_room (h : p.payload + p.len + l.length ≤ p.mem.length) (hlt : p.len + l.length < 2 ^ 16)
    (hroom : Room (l.length + n) [p]) : Room n [extend p l h] := by
  intro q hq
  have hmore := hroom p rfl
  obtain rfl : extend p l h = q := Option.some.inj hq
  have hmem : (extend p l h).mem.length = p.mem.length := by
    have heq : (extend p l h).mem =
      p.mem.take (p.payload + p.len) ++ (l ++ p.mem.drop (p.payload + p.len + l.length)) := rfl
    rw [heq, List.length_append, List.length_append, List.length_take, List.length_drop]
    omega
  have hpayload : (extend p l h).payload = p.payload := rfl
  rw [hmem, extend_len h hlt, hpayload]
  omega

/-- The chain `c'` is `c` with the bytes behind it. -/
structure Longer (c : List Pbuf) (l : List UInt8) (c' : List Pbuf) : Prop where
  ne_nil : c' ≠ []
  wellFormed : WellFormed c'
  totLen_eq : totLen c' = totLen c + l.length
  bytes_eq : bytes c' = bytes c ++ l
  payloadPos_eq : payloadPos c' = payloadPos c

theorem bumpChain_spec (hne : c ≠ []) (hwf : WellFormed c) (hroom : Room l.length c)
    (hfits : totLen c + l.length < 2 ^ 16) :
    ∃ c', bumpChain l c = some c' ∧ Longer c l c' ∧ c'.map Pbuf.addr = c.map Pbuf.addr ∧
      ∀ n, Room (l.length + n) c → Room n c' := by
  induction c with
  | nil => exact absurd rfl hne
  | cons p ps ih =>
    obtain ⟨hsum, hps⟩ := hwf
    have htot : u16 ((p.totLen : ℤ) + l.length) = p.totLen + l.length := by
      rw [← Nat.cast_add]
      exact u16_natCast hfits
    have hfits' : p.totLen + l.length < 2 ^ 16 := hfits
    cases ps with
    | nil =>
      have hend := hroom p rfl
      have hlen := extend_len hend (by omega)
      refine ⟨[extend p l hend], ?_, ⟨List.cons_ne_nil _ _, ⟨?_, trivial⟩, htot, ?_, rfl⟩, rfl, ?_⟩
      · rw [bumpChain, dif_pos hend]
      · have heq : (extend p l hend).totLen = u16 ((p.totLen : ℤ) + l.length) := rfl
        have hzero : totLen [] = 0 := rfl
        rw [hlen, heq, htot, hsum, hzero]
        omega
      · rw [bytes_cons, bytes_cons, bytes_nil, List.append_nil, List.append_nil]
        exact extend_data hend (by omega)
      · exact fun n hn => extend_room hend (by omega) hn
    | cons q qs =>
      have hle : totLen (q :: qs) + l.length < 2 ^ 16 := by omega
      obtain ⟨c', hc', hlonger, haddr, hrest⟩ := ih (List.cons_ne_nil q qs) hps hroom hle
      obtain ⟨q', qs', rfl⟩ := List.exists_cons_of_ne_nil hlonger.ne_nil
      refine ⟨p.setTotLen (p.totLen + l.length) :: q' :: qs', ?_,
        ⟨List.cons_ne_nil _ _, ⟨?_, hlonger.wellFormed⟩, htot, ?_, rfl⟩, ?_, ?_⟩
      · rw [bumpChain, hc']
        rfl
      · rw [Pbuf.setTotLen_totLen, Pbuf.setTotLen_len, htot, hlonger.totLen_eq, hsum, Nat.add_assoc]
      · rw [bytes_cons, hlonger.bytes_eq, Pbuf.setTotLen_data, bytes_cons p, List.append_assoc]
      · rw [List.map_cons, haddr]
        rfl
      · exact fun n hn => hrest n hn

/-- The segment `seg'` is `seg` with the bytes behind it, and with the objects of new pbufs. -/
structure Extends (l : List UInt8) (objects : List ℕ) (seg seg' : TcpSeg) : Prop where
  sound : seg'.Sound
  totLen_eq : totLen seg'.p = totLen seg.p + l.length
  data_eq : seg'.data = seg.data ++ l
  addr_eq : seg'.addr = seg.addr
  objects_eq : seg'.p.map Pbuf.addr = seg.p.map Pbuf.addr ++ objects

theorem Extends.of_longer {seg' : TcpSeg} {objects : List ℕ} (h : seg.Sound) (hp : Longer seg.p l seg'.p)
    (haddr : seg'.addr = seg.addr) (hlen : seg'.len = seg.len + l.length)
    (hflags : seg'.flags = seg.flags) (hhdr : seg'.tcphdr = seg.tcphdr)
    (hobjects : seg'.p.map Pbuf.addr = seg.p.map Pbuf.addr ++ objects) :
    Extends l objects seg seg' := by
  have hopt : seg'.optlen = seg.optlen := by rw [TcpSeg.optlen, hflags, TcpSeg.optlen]
  have hbelow : seg'.below = seg.below := by rw [TcpSeg.below, hhdr, hp.payloadPos_eq, TcpSeg.below]
  have hbytes := h.wellFormed.bytes_length
  have htot := h.len_eq
  refine ⟨⟨hp.ne_nil, hp.wellFormed, ?_⟩, hp.totLen_eq, ?_, haddr, hobjects⟩
  · rw [hp.totLen_eq, htot, hbelow, hopt, hlen, Nat.add_assoc]
  · rw [TcpSeg.data, hbelow, hopt, hp.bytes_eq, List.drop_append_of_le_length (by omega), TcpSeg.data]

theorem commitOversize_extends (arg : Data) {last : TcpSeg} (h : last.Sound)
    (hused : d.oversizeUsed ≤ arg.len) (hroom : Room d.oversizeUsed last.p)
    (hfits : totLen last.p + d.oversizeUsed < 2 ^ 16) :
    ∃ last', commitOversize arg d last = some last' ∧
      Extends (arg.bytes.take d.oversizeUsed) [] last last' ∧
      ∀ n, Room (d.oversizeUsed + n) last.p → Room n last'.p := by
  have hlen : (arg.bytes.take d.oversizeUsed).length = d.oversizeUsed := List.length_take_of_le hused
  rw [commitOversize]
  split
  · rw [← hlen] at hroom hfits
    obtain ⟨c, hc, hlonger, haddr, hrest⟩ := bumpChain_spec h.ne_nil h.wellFormed hroom hfits
    have hseg : u16 ((last.len : ℤ) + d.oversizeUsed) = last.len + d.oversizeUsed := by
      have htot := h.len_eq
      rw [← Nat.cast_add]
      exact u16_natCast (by omega)
    rw [hlen] at hrest
    refine ⟨{ last with p := c, len := u16 ((last.len : ℤ) + d.oversizeUsed) }, by rw [hc]; rfl, ?_, hrest⟩
    refine .of_longer h hlonger rfl ?_ rfl rfl ?_
    · rw [hlen]
      exact hseg
    · rw [List.append_nil]
      exact haddr
  · have hzero : d.oversizeUsed = 0 := by omega
    refine ⟨last, rfl, ?_, fun n hn => ?_⟩
    · rw [hzero, List.take_zero]
      exact ⟨h, rfl, (List.append_nil _).symm, rfl, (List.append_nil _).symm⟩
    · rwa [hzero, Nat.zero_add] at hn

theorem commitConcat_extends {last : TcpSeg} (h : last.Sound) (hconcat : ∀ p ∈ d.concatP, p.totLen = p.len)
    (hfits : totLen last.p + (bytes d.concatP.toList).length < 2 ^ 16) :
    ∃ last', commitConcat d last = some last' ∧
      Extends (bytes d.concatP.toList) (d.concatP.toList.map Pbuf.addr) last last' ∧
      (d.concatP = none → last'.p = last.p) ∧
      ∀ n, ∀ p ∈ d.concatP, p.payload + p.len + n ≤ p.mem.length → Room n last'.p := by
  rw [commitConcat]
  cases hp : d.concatP with
  | none =>
    refine ⟨last, rfl, ?_, fun _ => rfl, fun n p hp' => absurd hp' (Option.not_mem_none p)⟩
    exact ⟨h, rfl, (List.append_nil _).symm, rfl, (List.append_nil _).symm⟩
  | some p =>
    have htotp := hconcat p hp
    have hbytes : bytes (some p).toList = p.data := by
      rw [Option.toList_some, bytes_cons, bytes_nil, List.append_nil]
    rw [hp, hbytes, Pbuf.data_length] at hfits
    have hsum : totLen last.p + totLen [p] < 2 ^ 16 := by
      have heq : totLen [p] = p.totLen := rfl
      omega
    obtain ⟨c, hc, hwf, htot, hcbytes⟩ :=
      pbufCat_spec h.ne_nil (List.cons_ne_nil p []) h.wellFormed ⟨htotp, trivial⟩ hsum
    have heq := pbufCat_eq hc
    have hne : c ≠ [] := by simp [heq]
    have hlonger : Longer last.p p.data c := by
      refine ⟨hne, hwf, ?_, ?_, ?_⟩
      · rw [htot, Pbuf.data_length]
        exact congrArg _ htotp
      · rw [hcbytes, bytes_cons, bytes_nil, List.append_nil]
      · obtain ⟨q, qs, hq⟩ := List.exists_cons_of_ne_nil h.ne_nil
        rw [heq, hq]
        rfl
    have hlen : u16 ((last.len : ℤ) + p.totLen) = last.len + p.data.length := by
      have hlast := h.len_eq
      rw [Pbuf.data_length, htotp, ← Nat.cast_add]
      exact u16_natCast (by omega)
    refine ⟨{ last with p := c, len := u16 ((last.len : ℤ) + p.totLen) }, by dsimp only; rw [hc]; rfl, ?_,
      fun hno => absurd hno (Option.some_ne_none p), ?_⟩
    · rw [hbytes]
      refine .of_longer h hlonger rfl hlen rfl rfl ?_
      dsimp only
      rw [heq, List.map_append, List.map_map]
      rfl
    · intro n q hq hn r hr
      obtain rfl : p = q := Option.some.inj hq
      dsimp only at hr
      rw [heq, List.getLast?_concat] at hr
      exact Option.some.inj hr ▸ hn

theorem Extends.trans {l₁ l₂ : List UInt8} {o₁ o₂ : List ℕ} {seg₁ seg₂ : TcpSeg}
    (h₁ : Extends l₁ o₁ seg seg₁) (h₂ : Extends l₂ o₂ seg₁ seg₂) :
    Extends (l₁ ++ l₂) (o₁ ++ o₂) seg seg₂ where
  sound := h₂.sound
  totLen_eq := by rw [h₂.totLen_eq, h₁.totLen_eq, List.length_append, Nat.add_assoc]
  data_eq := by rw [h₂.data_eq, h₁.data_eq, List.append_assoc]
  addr_eq := h₂.addr_eq.trans h₁.addr_eq
  objects_eq := by rw [h₂.objects_eq, h₁.objects_eq, List.append_assoc]

theorem Extends.length_eq {objects : List ℕ} {seg' : TcpSeg} (h : Extends l objects seg seg') :
    seg'.p.length = seg.p.length + objects.length := by
  have hlen := congrArg List.length h.objects_eq
  rwa [List.length_append, List.length_map, List.length_map] at hlen

theorem Extends.allocated {objects : List ℕ} {seg' : TcpSeg} (h : Extends l objects seg seg') :
    seg'.objects = seg.objects + (objects : Multiset ℕ) := by
  rw [TcpSeg.objects, h.addr_eq, h.objects_eq, TcpSeg.objects, Multiset.cons_add, Multiset.coe_add]

/-- The objects of a queue -/
def owned (queue : List TcpSeg) : Multiset ℕ := (queue.map TcpSeg.objects).sum

theorem owned_append (q₁ q₂ : List TcpSeg) : owned (q₁ ++ q₂) = owned q₁ + owned q₂ := by
  rw [owned, List.map_append, List.sum_append, owned, owned]

/-- `unsent`, with the data behind it -/
structure Committed (arg : Data) (d : Draft) (pcb : WritePcb) (unsent : List TcpSeg) : Prop where
  sound : ∀ seg ∈ unsent, seg.Sound
  data_eq : queueData unsent = queueData pcb.unsent ++ arg.bytes
  clen_eq : clen pcb.unacked + clen unsent = d.queuelen
  owned_eq : owned unsent = owned pcb.unsent + d.objects
  oversize : unsent = [] → d.oversize = 0
  room : ∀ seg ∈ unsent.getLast?, Room d.oversize seg.p
  fits : ∀ seg ∈ unsent.getLast?, totLen seg.p + (pcb.sndBuf - arg.len) < 2 ^ 16

theorem Room.mono {k : ℕ} (h : Room n c) (hle : k ≤ n) : Room k c := fun p hp =>
  (Nat.add_le_add_left hle _).trans (h p hp)

/-- What phases 1 and 2 have is not more than the data. -/
theorem Drafting.parts_le (hd : Drafting base flags arg pcb d) :
    d.oversizeUsed + (bytes d.concatP.toList).length ≤ arg.len := by
  have hlen := congrArg List.length hd.data_eq
  have hused := hd.used_le
  have hpos := hd.pos_le
  rw [Data.len] at hused hpos ⊢
  simp only [List.length_append, List.length_take] at hlen
  omega

/-- The last segment with what phases 1 and 2 have for it -/
theorem commitTail_extends {last : TcpSeg} (hd : Drafting base flags arg pcb d) (h : last.Sound)
    (hroom : Room pcb.unsentOversize last.p) (hfits : totLen last.p + arg.len < 2 ^ 16) :
    ∃ last', (commitOversize arg d last).bind (commitConcat d) = some last' ∧
      Extends (arg.bytes.take d.oversizeUsed ++ bytes d.concatP.toList)
        (d.concatP.toList.map Pbuf.addr) last last' ∧
      (d.queue = [] → Room d.oversize last'.p) := by
  have hlen : (arg.bytes.take d.oversizeUsed).length = d.oversizeUsed := List.length_take_of_le hd.used_le
  have hsum := hd.parts_le
  obtain ⟨last₁, hlast₁, hext₁, hrest⟩ :=
    commitOversize_extends arg h hd.used_le (hroom.mono hd.used_oversize) (by omega)
  have htot := hext₁.totLen_eq
  obtain ⟨last₂, hlast₂, hext₂, hsame, hroom₂⟩ :=
    commitConcat_extends hext₁.sound hd.concat_totLen (by omega)
  refine ⟨last₂, by rw [hlast₁]; exact hlast₂, hext₁.trans hext₂, fun hqueue => ?_⟩
  cases hp : d.concatP with
  | none =>
    rw [hsame hp]
    exact hrest _ (hroom.mono (hd.unsent_oversize hqueue hp))
  | some p => exact hroom₂ _ p hp (hd.concat_room hqueue p hp)

theorem Drafting.data_all (hd : Drafting base flags arg pcb d) (hpos : d.pos = arg.len) :
    arg.bytes.take d.oversizeUsed ++ bytes d.concatP.toList ++ queueData d.queue = arg.bytes := by
  have hall : arg.bytes.take d.pos = arg.bytes := List.take_of_length_le (by rw [hpos, Data.len])
  rw [hd.data_eq, hall]

/-- A new segment at the end leaves room in 16 bits. -/
theorem Drafting.queue_fits (hd : Drafting base flags arg pcb d) (h : QueueInv pcb)
    (hlen : arg.len ≤ pcb.sndBuf) :
    ∀ seg ∈ d.queue, totLen seg.p + (pcb.sndBuf - arg.len) < 2 ^ 16 := by
  intro seg hseg
  obtain ⟨-, htot, hle⟩ := hd.segs seg hseg
  have hbuf := h.sndBuf
  rw [tcpHlen] at htot
  rw [tcpSndBuf] at hbuf
  omega

/-- Without an unsent segment the new ones are the queue. -/
theorem Committed.of_nil (hd : Drafting base flags arg pcb d) (h : QueueInv pcb) (hpos : d.pos = arg.len)
    (hlen : arg.len ≤ pcb.sndBuf) (hnil : pcb.unsent = []) : Committed arg d pcb d.queue := by
  obtain ⟨hused, hconcat⟩ := hd.alone hnil
  refine ⟨fun seg hseg => (hd.segs seg hseg).1, ?_, ?_, ?_, fun hqueue => ?_, hd.queue_room,
    fun seg hseg => hd.queue_fits h hlen seg (List.mem_of_getLast? hseg)⟩
  · have hdata := hd.data_all hpos
    rw [hused, hconcat] at hdata
    rw [hnil, ← hdata]
    rfl
  · have hcount := hd.queuelen_eq
    rw [hconcat, h.queuelen, hnil] at hcount
    exact hcount.symm
  · rw [hnil, Draft.objects, hconcat]
    simp only [owned, Option.toList_none, List.map_nil, List.sum_nil, Multiset.coe_nil, zero_add]
  · have hsum := hd.unsent_oversize hqueue hconcat
    have hzero := h.oversize hnil
    omega

/-- The last unsent segment has been extended, and the new ones come behind it. -/
theorem Committed.of_snoc {front : List TcpSeg} {last last' : TcpSeg} (hd : Drafting base flags arg pcb d)
    (h : QueueInv pcb) (hpos : d.pos = arg.len) (hlen : arg.len ≤ pcb.sndBuf)
    (hsnoc : pcb.unsent = front ++ [last])
    (hext : Extends (arg.bytes.take d.oversizeUsed ++ bytes d.concatP.toList)
      (d.concatP.toList.map Pbuf.addr) last last')
    (hroom : d.queue = [] → Room d.oversize last'.p) :
    Committed arg d pcb (front ++ last' :: d.queue) := by
  have hsplit : front ++ last' :: d.queue = front ++ [last'] ++ d.queue := by
    rw [List.append_assoc, List.singleton_append]
  -- the last segment of all is a new one, or the extended one
  have hlast : ∀ seg ∈ (front ++ last' :: d.queue).getLast?,
      seg ∈ d.queue.getLast? ∨ d.queue = [] ∧ last' = seg := by
    intro seg hseg
    rcases List.eq_nil_or_concat d.queue with hnil | ⟨init, s, hs⟩
    · rw [hnil, List.getLast?_concat] at hseg
      exact .inr ⟨hnil, Option.some.inj hseg⟩
    · rw [hsplit, hs, List.concat_eq_append, ← List.append_assoc, List.getLast?_concat] at hseg
      rw [hs, List.concat_eq_append, List.getLast?_concat]
      exact .inl hseg
  refine ⟨?_, ?_, ?_, ?_, fun hnil => absurd hnil (by simp), ?_, ?_⟩
  · intro seg hseg
    rcases List.mem_append.mp hseg with hseg | hseg
    · exact h.unsent seg (hsnoc ▸ List.mem_append_left [last] hseg)
    · rcases List.mem_cons.mp hseg with rfl | hseg
      · exact hext.sound
      · exact (hd.segs seg hseg).1
  · have hdata := hd.data_all hpos
    have hone : queueData [last'] =
        queueData [last] ++ (arg.bytes.take d.oversizeUsed ++ bytes d.concatP.toList) := by
      rw [queueData, List.flatMap_singleton, hext.data_eq, queueData, List.flatMap_singleton]
    rw [hsplit, queueData_append, queueData_append, hone, hsnoc, queueData_append]
    simp only [List.append_assoc] at hdata ⊢
    rw [hdata]
  · have hcount := hd.queuelen_eq
    have hlength := hext.length_eq
    have hzero : clen [] = 0 := rfl
    rw [h.queuelen, hsnoc, clen_append, clen_cons] at hcount
    rw [List.length_map] at hlength
    rw [hcount, clen_append, clen_cons, hlength]
    omega
  · rw [hsplit, owned_append, owned_append, hsnoc, owned_append, Draft.objects]
    simp only [owned, List.map_cons, List.map_nil, List.sum_cons, List.sum_nil, add_zero, hext.allocated,
      add_assoc]
  · intro seg hseg
    obtain hqueue | ⟨hnil, rfl⟩ := hlast seg hseg
    · exact hd.queue_room seg hqueue
    · exact hroom hnil
  · intro seg hseg
    obtain hqueue | ⟨-, rfl⟩ := hlast seg hseg
    · exact hd.queue_fits h hlen seg (List.mem_of_getLast? hqueue)
    · have hfits := h.fits last (by rw [hsnoc, List.getLast?_concat]; rfl)
      have htot := hext.totLen_eq
      have hused : (arg.bytes.take d.oversizeUsed).length = d.oversizeUsed :=
        List.length_take_of_le hd.used_le
      have hparts := hd.parts_le
      rw [List.length_append, hused] at htot
      omega

/-- The data of the call is behind that of the queue. -/
theorem commitUnsent_spec (h : QueueInv pcb) (hd : Drafting base flags arg pcb d) (hpos : d.pos = arg.len)
    (hlen : arg.len ≤ pcb.sndBuf) :
    ∃ unsent, pcb.commitUnsent arg d = some unsent ∧ Committed arg d pcb unsent := by
  rw [WritePcb.commitUnsent]
  rcases List.eq_nil_or_concat pcb.unsent with hnil | ⟨front, last, hsnoc⟩
  · refine ⟨d.queue, ?_, .of_nil hd h hpos hlen hnil⟩
    rw [hnil, unsnoc_nil]
  · rw [List.concat_eq_append] at hsnoc
    have hmem : last ∈ pcb.unsent := hsnoc ▸ List.mem_append_right front List.mem_cons_self
    have hlast : pcb.unsent.getLast? = some last := by rw [hsnoc, List.getLast?_concat]
    have hfits := h.fits last hlast
    obtain ⟨last', hlast', hext, hroom⟩ :=
      commitTail_extends hd (h.unsent last hmem) (h.room last hlast) (by omega)
    refine ⟨front ++ last' :: d.queue, ?_, .of_snoc hd h hpos hlen hsnoc hext hroom⟩
    rw [hsnoc, unsnoc_snoc]
    dsimp only
    rw [hlast']
    rfl

/-- A flag of the last segment is not part of what is queued. -/
theorem Committed.pushLast {unsent : List TcpSeg} (h : Committed arg d pcb unsent) :
    Committed arg d pcb (pushLast unsent) := by
  rcases List.eq_nil_or_concat unsent with rfl | ⟨front, last, rfl⟩
  · exact h
  · rw [List.concat_eq_append] at h ⊢
    have hpush : Segmentation.pushLast (front ++ [last]) = front ++ [last.setFlag tcpPsh] := by
      rw [Segmentation.pushLast, unsnoc_snoc]
    have hlast : (front ++ [last]).getLast? = some last := List.getLast?_concat
    rw [hpush]
    refine ⟨?_, ?_, ?_, ?_, ?_, ?_, ?_⟩
    · intro seg hseg
      rcases List.mem_append.mp hseg with hseg | hseg
      · exact h.sound seg (List.mem_append_left [last] hseg)
      · rw [List.mem_singleton.mp hseg]
        have hsound := h.sound last (List.mem_append_right front List.mem_cons_self)
        exact ⟨hsound.ne_nil, hsound.wellFormed, hsound.len_eq⟩
    · rw [← h.data_eq, queueData_append, queueData_append]
      rfl
    · rw [← h.clen_eq, clen_append, clen_append]
      rfl
    · rw [← h.owned_eq, owned_append, owned_append]
      rfl
    · exact fun hnil => absurd hnil (by simp)
    · intro seg hseg
      rw [List.getLast?_concat] at hseg
      exact Option.some.inj hseg ▸ h.room last hlast
    · intro seg hseg
      rw [List.getLast?_concat] at hseg
      exact Option.some.inj hseg ▸ h.fits last hlast

/-- Nothing of the queues and of what is said about them has changed. -/
structure SameQueues (pcb pcb' : WritePcb) : Prop where
  unsent : pcb'.unsent = pcb.unsent
  unacked : pcb'.unacked = pcb.unacked
  sndLbb : pcb'.sndLbb = pcb.sndLbb
  sndBuf : pcb'.sndBuf = pcb.sndBuf
  sndQueuelen : pcb'.sndQueuelen = pcb.sndQueuelen
  unsentOversize : pcb'.unsentOversize = pcb.unsentOversize

/-- The data is behind that of `unsent`. -/
structure Enqueued (arg : Data) (pcb pcb' : WritePcb) : Prop where
  unacked : pcb'.unacked = pcb.unacked
  data : queueData pcb'.unsent = queueData pcb.unsent ++ arg.bytes
  sndLbb : pcb'.sndLbb = pcb.sndLbb + (arg.len : Seq)
  sndBuf : pcb'.sndBuf + arg.len = pcb.sndBuf
  queuelen : pcb'.sndQueuelen = clen pcb'.unacked + clen pcb'.unsent

/-- What has been allocated is part of the queues. -/
def Balanced (m m' : Memory) (pcb pcb' : WritePcb) : Prop :=
  m'.live + owned pcb.unsent = m.live + owned pcb'.unsent

theorem SameQueues.queueInv {pcb' : WritePcb} (hsame : SameQueues pcb pcb') (h : QueueInv pcb) :
    QueueInv pcb' where
  unacked := hsame.unacked ▸ h.unacked
  unsent := hsame.unsent ▸ h.unsent
  queuelen := by rw [hsame.sndQueuelen, hsame.unacked, hsame.unsent, h.queuelen]
  oversize := by
    rw [hsame.unsent, hsame.unsentOversize]
    exact h.oversize
  room := by
    rw [hsame.unsent, hsame.unsentOversize]
    exact h.room
  sndBuf := hsame.sndBuf ▸ h.sndBuf
  fits := by
    rw [hsame.unsent, hsame.sndBuf]
    exact h.fits

/-- The commit of a draft that has come to the end of the data -/
theorem commit_spec (h : QueueInv pcb) (hd : Drafting base flags arg pcb d) (hpos : d.pos = arg.len)
    (hlen : arg.len ≤ pcb.sndBuf) :
    ∃ pcb', pcb.commit flags arg d = some (.ok, pcb', d.memory) ∧ Enqueued arg pcb pcb' ∧
      QueueInv pcb' ∧ d.memory.live + owned pcb.unsent = base + owned pcb'.unsent := by
  obtain ⟨unsent, hunsent, hcommitted⟩ := commitUnsent_spec h hd hpos hlen
  have hfinal : Committed arg d pcb (if d.seg && !flags.more then pushLast unsent else unsent) := by
    split
    · exact hcommitted.pushLast
    · exact hcommitted
  have hbuf := h.sndBuf_sub hlen
  generalize hlist : (if d.seg && !flags.more then pushLast unsent else unsent) = final at hfinal
  refine ⟨{ pcb with
      unsent := final
      unsentOversize := d.oversize
      sndLbb := pcb.sndLbb + (arg.len : Seq)
      sndBuf := u16 ((pcb.sndBuf : ℤ) - arg.len)
      sndQueuelen := d.queuelen },
    ?_, ⟨rfl, hfinal.data_eq, rfl, ?_, hfinal.clen_eq.symm⟩,
    ⟨h.unacked, hfinal.sound, hfinal.clen_eq.symm, hfinal.oversize, hfinal.room, ?_, ?_⟩, ?_⟩
  · rw [WritePcb.commit, hunsent, Option.bind_some, ← hlist]
    exact if_pos (queuelenValid_of_clen hcommitted.clen_eq.symm)
  · dsimp only
    rw [hbuf]
    omega
  · dsimp only
    rw [hbuf]
    exact (Nat.sub_le _ _).trans h.sndBuf
  · dsimp only
    rw [hbuf]
    exact hfinal.fits
  · dsimp only
    rw [hfinal.owned_eq, hd.live, add_assoc, add_comm d.objects]

/-- What is refused is refused before anything is allocated. -/
theorem tcpWriteChecks_spec (h : QueueInv pcb) (len : ℕ) :
    (∃ err pcb', pcb.tcpWriteChecks len = some (err, pcb') ∧ err ≠ .ok ∧ SameQueues pcb pcb') ∨
      pcb.tcpWriteChecks len = some (.ok, pcb) ∧ len ≤ pcb.sndBuf ∧
        (0 < len → pcb.sndQueuelen < tcpSndQueuelen) := by
  have hsame : SameQueues pcb { pcb with nagleMemErr := true } := ⟨rfl, rfl, rfl, rfl, rfl, rfl⟩
  rw [WritePcb.tcpWriteChecks]
  split
  · exact .inl ⟨.conn, pcb, rfl, WriteErr.noConfusion, ⟨rfl, rfl, rfl, rfl, rfl, rfl⟩⟩
  · by_cases hzero : len = 0
    · rw [if_pos hzero]
      exact .inr ⟨rfl, by omega, fun hpos => by omega⟩
    · rw [if_neg hzero]
      split
      · exact .inl ⟨.mem, _, rfl, WriteErr.noConfusion, hsame⟩
      · split
        · exact .inl ⟨.mem, _, rfl, WriteErr.noConfusion, hsame⟩
        · rename_i hlen hroom
          have hassert : (pcb.sndQueuelen ≠ 0 ∧ (pcb.unacked ≠ [] ∨ pcb.unsent ≠ [])) ∨
              (pcb.sndQueuelen = 0 ∧ pcb.unacked = [] ∧ pcb.unsent = []) := by
            by_cases hempty : pcb.sndQueuelen = 0
            · exact .inr ⟨hempty, h.queuelen_eq_zero.mp hempty⟩
            · exact .inl ⟨hempty, queuelenValid_of_clen h.queuelen hempty⟩
          rw [if_pos hassert]
          exact .inr ⟨rfl, by omega, fun _ => by omega⟩

/-- `tcp_write` comes to its end: with an error and without a trace, or with the data in the queue. -/
theorem tcpWrite_spec (h : QueueInv pcb) (flags : ApiFlags) (arg : Data) (m : Memory) :
    (∃ err pcb' m', pcb.tcpWrite flags arg m = some (err, pcb', m') ∧ err ≠ .ok ∧ SameQueues pcb pcb' ∧
      m'.live = m.live) ∨
    ∃ pcb' m', pcb.tcpWrite flags arg m = some (.ok, pcb', m') ∧ Enqueued arg pcb pcb' ∧ QueueInv pcb' ∧
      Balanced m m' pcb pcb' := by
  obtain ⟨err, pcb', hchecks, hne, hsame⟩ | ⟨hchecks, hlen, hroom⟩ := tcpWriteChecks_spec h arg.len
  · refine .inl ⟨err, pcb', m, ?_, hne, hsame, rfl⟩
    rw [WritePcb.tcpWrite, hchecks, Option.bind_some]
    cases err with
    | ok => exact absurd rfl hne
    | mem => rfl
    | conn => rfl
  · obtain ⟨d, hr, hd⟩ | ⟨d, hr, hd, hpos⟩ :=
      segmentation_lands flags h (hlen.trans h.sndBuf) hroom m
    · obtain ⟨m', hm', hlive⟩ := memerr_spec h hd
      refine .inl ⟨.mem, { pcb with nagleMemErr := true }, m', ?_, WriteErr.noConfusion,
        ⟨rfl, rfl, rfl, rfl, rfl, rfl⟩, hlive⟩
      rw [WritePcb.tcpWrite, hchecks, Option.bind_some]
      dsimp only
      rw [hr, Option.bind_some]
      exact hm'
    · obtain ⟨pcb', hcommit, henqueued, hinv, hlive⟩ := commit_spec h hd hpos hlen
      refine .inr ⟨pcb', d.memory, ?_, henqueued, hinv, hlive⟩
      rw [WritePcb.tcpWrite, hchecks, Option.bind_some]
      dsimp only
      rw [hr, Option.bind_some]
      exact hcommit

/-- `tcp_write` is a transaction: an error leaves the queues and what is allocated as they were, and without
one the data is behind that of the queue. -/
theorem tcpWrite_transactional (h : QueueInv pcb) (flags : ApiFlags) (arg : Data) (m : Memory) :
    ∃ err pcb' m', pcb.tcpWrite flags arg m = some (err, pcb', m') ∧
      (err ≠ .ok → SameQueues pcb pcb' ∧ m'.live = m.live) ∧
      (err = .ok → Enqueued arg pcb pcb' ∧ Balanced m m' pcb pcb') ∧ QueueInv pcb' := by
  obtain ⟨err, pcb', m', hwrite, hne, hsame, hlive⟩ | ⟨pcb', m', hwrite, henqueued, hinv, hlive⟩ :=
    tcpWrite_spec h flags arg m
  · exact ⟨err, pcb', m', hwrite, fun _ => ⟨hsame, hlive⟩, fun hok => absurd hok hne, hsame.queueInv h⟩
  · exact ⟨.ok, pcb', m', hwrite, fun hne => absurd rfl hne, fun _ => ⟨henqueued, hlive⟩, hinv⟩

/-- A pcb with nothing in its queues -/
def emptyPcb : WritePcb where
  state := .established
  localPort := 80
  remotePort := 49152
  mss := 1024
  sndWndMax := 4096
  nodelay := false
  nagleMemErr := false
  sndLbb := 1
  sndBuf := tcpSndBuf
  sndQueuelen := 0
  unsentOversize := 0
  unsent := []
  unacked := []

theorem emptyPcb_queueInv : QueueInv emptyPcb where
  unacked := fun _ hseg => absurd hseg List.not_mem_nil
  unsent := fun _ hseg => absurd hseg List.not_mem_nil
  queuelen := rfl
  oversize := fun _ => rfl
  room := fun _ hseg => absurd hseg (Option.not_mem_none _)
  sndBuf := le_rfl
  fits := fun _ hseg => absurd hseg (Option.not_mem_none _)

theorem three_lt : [0x61, 0x62, 0x63].length < 2 ^ 16 := by decide

def threeBytes : Data := ⟨[0x61, 0x62, 0x63], three_lt⟩

/-- Memory for a pbuf and for a segment, and then for nothing more -/
def twoObjects : Memory := ⟨[some 1, some 2], fun _ _ => 0, 0⟩

theorem tcpWrite_three : ∃ err pcb' m',
    emptyPcb.tcpWrite ⟨true, true⟩ threeBytes twoObjects = some (err, pcb', m') ∧
      (err ≠ .ok → SameQueues emptyPcb pcb' ∧ m'.live = twoObjects.live) ∧
      (err = .ok → Enqueued threeBytes emptyPcb pcb' ∧ Balanced twoObjects m' emptyPcb pcb') ∧
      QueueInv pcb' :=
  tcpWrite_transactional emptyPcb_queueInv ⟨true, true⟩ threeBytes twoObjects

/-! ### Runs -/

/-- Calls one after the other, with the data of those that return `ERR_OK` -/
def writes : List (ApiFlags × Data) → Memory → WritePcb → Option (List Data × WritePcb × Memory)
  | [], m, pcb => some ([], pcb, m)
  | (flags, arg) :: calls, m, pcb =>
    (pcb.tcpWrite flags arg m).bind fun (err, pcb, m) =>
      (writes calls m pcb).map fun (taken, pcb, m) => (if err = .ok then arg :: taken else taken, pcb, m)

/-- Over any calls, the queue gets the data that has been taken, and owns what has been allocated. -/
theorem writes_spec (h : QueueInv pcb) (calls : List (ApiFlags × Data)) (m : Memory) :
    ∃ taken pcb' m', writes calls m pcb = some (taken, pcb', m') ∧ QueueInv pcb' ∧
      pcb'.unacked = pcb.unacked ∧
      queueData pcb'.unsent = queueData pcb.unsent ++ taken.flatMap Data.bytes ∧
      pcb'.sndBuf + (taken.map Data.len).sum = pcb.sndBuf ∧ Balanced m m' pcb pcb' := by
  induction calls generalizing m pcb with
  | nil => exact ⟨[], pcb, m, rfl, h, rfl, (List.append_nil _).symm, rfl, rfl⟩
  | cons call calls ih =>
    obtain ⟨flags, arg⟩ := call
    obtain ⟨err, pcb₁, m₁, hwrite, hne, hsame, hlive⟩ | ⟨pcb₁, m₁, hwrite, henqueued, hinv, hbalanced⟩ :=
      tcpWrite_spec h flags arg m
    · obtain ⟨taken, pcb', m', hrun, hinv', hunacked, hdata, hbuf, hbalanced⟩ := ih (hsame.queueInv h) m₁
      refine ⟨taken, pcb', m', ?_, hinv', hunacked.trans hsame.unacked, ?_, ?_, ?_⟩
      · rw [writes, hwrite, Option.bind_some]
        dsimp only
        rw [hrun, Option.map_some]
        dsimp only
        rw [if_neg hne]
      · rw [hdata, hsame.unsent]
      · rw [hbuf, hsame.sndBuf]
      · rw [Balanced, ← hlive, ← hsame.unsent]
        exact hbalanced
    · obtain ⟨taken, pcb', m', hrun, hinv', hunacked, hdata, hbuf, hbalanced'⟩ := ih hinv m₁
      refine ⟨arg :: taken, pcb', m', ?_, hinv', hunacked.trans henqueued.unacked, ?_, ?_, ?_⟩
      · rw [writes, hwrite, Option.bind_some]
        dsimp only
        rw [hrun, Option.map_some]
        dsimp only
        rw [if_pos rfl]
      · rw [hdata, henqueued.data, List.flatMap_cons, List.append_assoc]
      · have hfirst := henqueued.sndBuf
        rw [List.map_cons, List.sum_cons]
        omega
      · rw [Balanced] at hbalanced hbalanced' ⊢
        -- what the first call has allocated is owned by the queue between the two
        have hsum : m'.live + owned pcb.unsent + owned pcb₁.unsent =
            m.live + owned pcb'.unsent + owned pcb₁.unsent := by
          rw [add_right_comm, hbalanced', add_right_comm, hbalanced, add_right_comm]
        exact add_right_cancel hsum

end QuietLwip.Sender.Segmentation
