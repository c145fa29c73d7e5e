import QuietLwip.Sender.Input
import QuietLwip.Sender.Transaction

/-!
# `tcp_write` without its pbufs

What is forgotten of a segment are its pbufs, but for their number and the bytes of the data. The calls over
pbufs are calls over bytes, for some number of allocations that succeed.
-/

namespace QuietLwip.Sender.Segmentation

open Serial Word Tcp Buffers QuietLwip.Stream

/-- The segment as it is seen without its pbufs -/
def TcpSeg.forget (seg : TcpSeg) : OutSeg UInt8 where
  seqno := seg.tcphdr.seqno
  len := seg.len
  p := seg.data
  syn := seg.tcphdr.flags.testBit 1
  fin := seg.tcphdr.flags.testBit 0
  clen := seg.p.length

/-- The pcb as it is seen without the pbufs, with the fields that `tcp_write` does not look at -/
def WritePcb.forget (rest : Snd UInt8) (pcb : WritePcb) : Snd UInt8 :=
  { rest with
    state := pcb.state
    mss := pcb.mss
    sndWndMax := pcb.sndWndMax
    nodelay := pcb.nodelay
    nagleMemErr := pcb.nagleMemErr
    sndLbb := pcb.sndLbb
    sndBuf := pcb.sndBuf
    sndQueuelen := pcb.sndQueuelen
    unsentOversize := pcb.unsentOversize
    unsent := pcb.unsent.map TcpSeg.forget
    unacked := pcb.unacked.map TcpSeg.forget }

/-- The local variables, with the number of allocations that are left -/
def Draft.forget (arg : Data) (allocs : ℕ) (d : Draft) : Sender.Draft UInt8 where
  copied := arg.bytes.take d.oversizeUsed
  chained := bytes d.concatP.toList
  queue := d.queue.map TcpSeg.forget
  pos := d.pos
  oversize := d.oversize
  queuelen := d.queuelen
  allocs := allocs

/-- The flags, with a number of allocations -/
def ApiFlags.args (flags : ApiFlags) (allocs : ℕ) : WriteArgs := ⟨flags.copy, flags.more, allocs⟩

variable {base : Multiset ℕ} {m m' : Memory} {flags : ApiFlags} {arg data : Data} {pcb : WritePcb}
  {d d' : Draft} {last : TcpSeg} {n : ℕ} (rest : Snd UInt8) (a : ℕ)

theorem Gets.of_some {β : Type} {objects : β → Multiset ℕ} {I : β → Prop} {r : Option (Option β × Memory)}
    {b : β} (h : Gets base objects I r) (hr : r = some (some b, m)) : m.live = base + objects b ∧ I b := by
  obtain ⟨m', hnone, -⟩ | ⟨b', m', hsome, hlive, hb⟩ := h
  · cases hnone.symm.trans hr
  · cases hsome.symm.trans hr
    exact ⟨hlive, hb⟩

theorem Lands.of_ok {I : Draft → Prop} {r : Option (Except Draft Draft)} (h : Lands base I r)
    (hr : r = some (.ok d)) : I d := by
  obtain ⟨e, herror, -⟩ | ⟨d', hok, hd⟩ := h
  · cases herror.symm.trans hr
  · cases hok.symm.trans hr
    exact hd

/-! ### Allocation -/

/-- The room that is asked for beyond the data -/
theorem allocLen_sub (length maxLength : ℕ) (firstSeg : Bool) :
    pcb.allocLen length maxLength flags firstSeg - length =
      (pcb.forget rest).tcpPbufPrealloc (flags.args a) length maxLength firstSeg := by
  have hunsent : (pcb.forget rest).unsent ≠ [] ↔ pcb.unsent ≠ [] := not_congr List.map_eq_nil_iff
  have hunacked : (pcb.forget rest).unacked ≠ [] ↔ pcb.unacked ≠ [] := not_congr List.map_eq_nil_iff
  have hmore : (flags.args a).more = flags.more := rfl
  have hnodelay : (pcb.forget rest).nodelay = pcb.nodelay := rfl
  rw [WritePcb.allocLen, Snd.tcpPbufPrealloc, hmore, hnodelay]
  simp only [hunsent, hunacked]
  split
  · rfl
  · exact Nat.sub_self length

theorem tcpPbufPrealloc_oversize {layer : PbufLayer} {length maxLength : ℕ} {firstSeg : Bool}
    {r : Prealloc length}
    (h : pcb.tcpPbufPrealloc layer length maxLength flags firstSeg m = some (some r, m')) :
    r.oversize = (pcb.forget rest).tcpPbufPrealloc (flags.args a) length maxLength firstSeg := by
  rw [WritePcb.tcpPbufPrealloc] at h
  split at h
  · split at h
    · cases h
    · cases h
      exact allocLen_sub rest a length maxLength firstSeg
  · cases h

theorem concatPbuf_oversize {space oversize oversize' : ℕ} {p : Pbuf}
    (h : pcb.concatPbuf flags data space oversize m = some (some (p, oversize'), m')) :
    oversize' = if flags.copy = true then
      (pcb.forget rest).tcpPbufPrealloc (flags.args a) data.bytes.length space true else oversize := by
  rw [WritePcb.concatPbuf] at h
  by_cases hcopy : flags.copy = true
  · rw [if_pos hcopy] at h ⊢
    obtain ⟨⟨r, m₁⟩, hr, h⟩ := Option.map_eq_some_iff.mp h
    cases r with
    | none => cases h
    | some r =>
      cases h
      exact tcpPbufPrealloc_oversize rest a hr
  · rw [if_neg hcopy] at h ⊢
    split at h
    · cases h
    · cases h
      rfl

theorem segmentPbufs_oversize {firstSeg : Bool} {oversize oversize' : ℕ} {c : List Pbuf}
    (h : pcb.segmentPbufs flags data firstSeg oversize m = some (some (c, oversize'), m')) :
    oversize' = (if flags.copy = true then
      (pcb.forget rest).tcpPbufPrealloc (flags.args a) data.bytes.length pcb.mssLocal firstSeg
      else oversize) ∧ c.length = if flags.copy = true then 1 else 2 := by
  rw [WritePcb.segmentPbufs] at h
  by_cases hcopy : flags.copy = true
  · rw [if_pos hcopy] at h ⊢
    rw [if_pos hcopy]
    obtain ⟨⟨r, m₁⟩, hr, h⟩ := Option.map_eq_some_iff.mp h
    cases r with
    | none => cases h
    | some r =>
      cases h
      exact ⟨tcpPbufPrealloc_oversize rest a hr, rfl⟩
  · rw [if_neg hcopy] at h ⊢
    rw [if_neg hcopy]
    split at h
    · split at h
      · cases h
      · split at h
        · obtain ⟨m₁, -, h⟩ := Option.map_eq_some_iff.mp h
          cases h
        · obtain ⟨c', hc, h⟩ := Option.map_eq_some_iff.mp h
          cases h
          exact ⟨rfl, pbufCat_length hc⟩
    · cases h

theorem tcpCreateSegment_fields {c : List Pbuf} {seqno : Seq} {seg : TcpSeg}
    (h : tcpCreateSegment c seqno m pcb = some (some seg, m')) :
    seg.tcphdr.seqno = seqno ∧ seg.tcphdr.flags = 0 := by
  rw [tcpCreateSegment] at h
  split at h
  · obtain ⟨m₁, -, h⟩ := Option.map_eq_some_iff.mp h
    cases h
  · obtain ⟨⟨k, p⟩, -, h⟩ := Option.bind_eq_some_iff.mp h
    cases k with
    | zero =>
      cases h
      exact ⟨rfl, rfl⟩
    | succ k =>
      obtain ⟨m₁, -, h⟩ := Option.map_eq_some_iff.mp h
      cases h

/-! ### The three phases -/

/-- A phase over pbufs ends as the phase `F` over bytes does: with as many allocations as are needed, and
with any number that is left after them. -/
def Mirrors (arg : Data) (F : Sender.Draft UInt8 → Option (Sender.Draft UInt8)) (d : Draft) :
    Except Draft Draft → Prop
  | .error _ => ∃ n, F (d.forget arg n) = none
  | .ok d' => ∃ n, ∀ k, F (d.forget arg (n + k)) = some (d'.forget arg k)

theorem Mirrors.bind {F G : Sender.Draft UInt8 → Option (Sender.Draft UInt8)} {r : Except Draft Draft}
    (hF : Mirrors arg F d (.ok d')) (hG : Mirrors arg G d' r) :
    Mirrors arg (fun d => (F d).bind G) d r := by
  obtain ⟨n, hn⟩ := hF
  cases r with
  | error e =>
    obtain ⟨n', hn'⟩ := hG
    refine ⟨n + n', ?_⟩
    dsimp only
    rw [hn n', Option.bind_some, hn']
  | ok d'' =>
    obtain ⟨n', hn'⟩ := hG
    refine ⟨n + n', fun k => ?_⟩
    dsimp only
    rw [Nat.add_assoc, hn (n' + k), Option.bind_some, hn']

theorem Mirrors.bind_error {F G : Sender.Draft UInt8 → Option (Sender.Draft UInt8)}
    (hF : Mirrors arg F d (.error d')) : Mirrors arg (fun d => (F d).bind G) d (.error d') := by
  obtain ⟨n, hn⟩ := hF
  refine ⟨n, ?_⟩
  dsimp only
  rw [hn, Option.bind_none]

theorem Mirrors.congr {F G : Sender.Draft UInt8 → Option (Sender.Draft UInt8)} {r : Except Draft Draft}
    (hF : Mirrors arg F d r) (heq : ∀ n, G (d.forget arg n) = F (d.forget arg n)) : Mirrors arg G d r := by
  cases r with
  | error e =>
    obtain ⟨n, hn⟩ := hF
    exact ⟨n, (heq n).trans hn⟩
  | ok d' =>
    obtain ⟨n, hn⟩ := hF
    exact ⟨n, fun k => (heq (n + k)).trans (hn k)⟩

theorem Mirrors.run {F : Sender.Draft UInt8 → Option (Sender.Draft UInt8)} {r : Except Draft Draft}
    (h : Mirrors arg F d r) : ∃ n, F (d.forget arg n) = r.toOption.map (Draft.forget arg 0) := by
  cases r with
  | error e => exact h
  | ok d' =>
    obtain ⟨n, hn⟩ := h
    exact ⟨n, hn 0⟩

/-- Phase 1 -/
theorem useOversize_forget (arg : Data) (m : Memory) :
    (pcb.useOversize arg { queuelen := pcb.sndQueuelen, memory := m }).forget arg n =
      { (pcb.forget rest).copyInto arg.bytes with allocs := n } := by
  have hmin : min pcb.unsentOversize arg.bytes.length =
      if pcb.unsentOversize < arg.len then pcb.unsentOversize else arg.len := by
    rw [Data.len]
    split <;> omega
  have hover : (pcb.forget rest).unsentOversize = pcb.unsentOversize := rfl
  rw [Snd.copyInto, hover, hmin, WritePcb.useOversize]
  by_cases hpos : 0 < pcb.unsentOversize
  · rw [if_pos hpos]
    dsimp only [Draft.forget]
    rw [Nat.zero_add]
    rfl
  · have hzero : pcb.unsentOversize = 0 := by omega
    rw [if_neg hpos, hzero]
    dsimp only [Draft.forget]
    have hused : (if 0 < arg.len then 0 else arg.len) = 0 := by
      split <;> omega
    rw [hused]
    rfl

/-- Phase 2 -/
theorem chainPbuf_mirrors (hd : Drafting base flags arg pcb d) (hlen : arg.len ≤ tcpSndBuf)
    (hroom : 0 < arg.len → d.queuelen < tcpSndQueuelen)
    {space : ℕ} {r : Except Draft Draft} (hspace : 0 < last.len →
      u16 (((pcb.forget rest).space last.len : ℤ) - d.pos) = space)
    (h : pcb.chainPbuf flags arg last space d = some r) :
    Mirrors arg (fun d => (pcb.forget rest).chainTo (flags.args a) arg.bytes last.forget d) d r := by
  have hbytes : arg.bytes.length = arg.len := rfl
  have hpos' : ∀ n, (d.forget arg n).pos = d.pos := fun _ => rfl
  have hlast : last.forget.len = last.len := rfl
  have hallocs : ∀ n, (d.forget arg n).allocs = n := fun _ => rfl
  rw [WritePcb.chainPbuf] at h
  by_cases hmore : d.pos < arg.len ∧ 0 < space ∧ 0 < last.len
  · obtain ⟨hpos, hfree, hne⟩ := hmore
    have hmore' : d.pos < arg.len ∧
        0 < u16 (((pcb.forget rest).space last.len : ℤ) - d.pos) ∧ 0 < last.len :=
      ⟨hpos, (hspace hne).symm ▸ hfree, hne⟩
    rw [if_pos ⟨hpos, hfree, hne⟩] at h
    have hmin : (if space < arg.len - d.pos then space else arg.len - d.pos) =
        min space (arg.len - d.pos) := by
      split <;> omega
    dsimp only at h
    rw [hmin] at h
    have hle : d.pos + min space (arg.len - d.pos) ≤ arg.len := by omega
    have hslice := slice_bytes_length hle
    obtain ⟨⟨r', m'⟩, hr, h⟩ := Option.map_eq_some_iff.mp h
    cases r' with
    | none =>
      cases h
      refine ⟨0, ?_⟩
      dsimp only
      rw [Snd.chainTo]
      simp only [hbytes, hpos', hlast, hallocs]
      rw [if_pos hmore']
    | some r' =>
      obtain ⟨p, oversize⟩ := r'
      cases h
      have hgets := concatPbuf_gets pcb flags (hslice.trans_le (by omega)) (fun hcopy => hd.idle hcopy hpos)
        space d.memory
      obtain ⟨-, hfresh, -⟩ := hgets.of_some hr
      have hover := concatPbuf_oversize rest a hr
      have hqueuelen : u16 ((d.queuelen : ℤ) + pbufClen [p]) = d.queuelen + 1 :=
        queuelen_add (hroom (by omega)).le (Nat.le_succ 1)
      refine ⟨1, fun k => ?_⟩
      dsimp only
      rw [Snd.chainTo]
      simp only [hbytes, hpos', hlast, hallocs]
      rw [if_pos hmore', Nat.add_comm 1 k, hspace hne]
      dsimp only [Draft.forget]
      rw [hqueuelen, hover, hslice, Option.toList_some, bytes_cons, bytes_nil, List.append_nil,
        hfresh.data_eq]
      rfl
  · have hmore' : ¬ (d.pos < arg.len ∧
        0 < u16 (((pcb.forget rest).space last.len : ℤ) - d.pos) ∧ 0 < last.len) := by
      rintro ⟨hpos, hfree, hne⟩
      exact hmore ⟨hpos, hspace hne ▸ hfree, hne⟩
    rw [if_neg hmore] at h
    cases h
    refine ⟨0, fun k => ?_⟩
    dsimp only
    rw [Snd.chainTo]
    simp only [hbytes, hpos', hlast, hallocs]
    rw [if_neg hmore', Nat.zero_add]

/-- A new segment, as it is seen without its pbufs -/
theorem NewSeg.forget {oversize count : ℕ} {seg : TcpSeg} {seqno : Seq}
    (h : NewSeg data.bytes oversize count seg) (hseqno : seg.tcphdr.seqno = seqno) (hflags : seg.tcphdr.flags = 0) :
    seg.forget = { seqno := seqno, len := data.bytes.length, p := data.bytes, clen := count } := by
  have hsyn : seg.tcphdr.flags.testBit 1 = false := by
    rw [hflags]
    exact Nat.zero_testBit 1
  have hfin : seg.tcphdr.flags.testBit 0 = false := by
    rw [hflags]
    exact Nat.zero_testBit 0
  rw [TcpSeg.forget, hsyn, hfin, hseqno, h.len_eq, h.data_eq, h.length_eq]

/-- A turn of phase 3 -/
theorem nextSegment_mirrors (hd : Drafting base flags arg pcb d) (hlen : arg.len ≤ tcpSndBuf)
    (hpos : d.pos < arg.len) {r : Except Draft Draft} (h : pcb.nextSegment flags arg d = some r) :
    Mirrors arg (fun d => (pcb.forget rest).nextSegment (flags.args a) arg.bytes d) d r := by
  have hmin : (if arg.len - d.pos > pcb.mssLocal then pcb.mssLocal else arg.len - d.pos) =
      min (arg.len - d.pos) pcb.mssLocal := by
    split <;> omega
  have hle : d.pos + min (arg.len - d.pos) pcb.mssLocal ≤ arg.len := by omega
  have hslice := slice_bytes_length hle
  have hdata : (arg.slice d.pos (min (arg.len - d.pos) pcb.mssLocal)).bytes.length ≤ tcpSndBuf := by omega
  have hqueue : (d.queue.map TcpSeg.forget).isEmpty = d.queue.isEmpty := List.isEmpty_map
  rw [WritePcb.nextSegment] at h
  dsimp only at h
  rw [hmin] at h
  obtain ⟨⟨r', m'⟩, hr, h⟩ := Option.bind_eq_some_iff.mp h
  cases r' with
  | none =>
    cases h
    exact ⟨0, rfl⟩
  | some r' =>
    obtain ⟨c, oversize⟩ := r'
    have hgets := segmentPbufs_gets pcb flags hdata (fun hcopy => hd.idle hcopy hpos) d.queue.isEmpty d.memory
    obtain ⟨hlive, hnew, -⟩ := hgets.of_some hr
    obtain ⟨hover, hcount⟩ := segmentPbufs_oversize rest a hr
    have hqueuelen : u16 ((d.queuelen : ℤ) + pbufClen c) = d.queuelen + c.length :=
      queuelen_add (hd.queuelen_le (by omega)) hnew.length_le
    dsimp only at h hlive hnew
    rw [hqueuelen] at h
    have hnext : ∀ k, (pcb.forget rest).nextSegment (flags.args a) arg.bytes (d.forget arg (k + 1)) =
        if tcpSndQueuelen < d.queuelen + c.length then none
        else some { d.forget arg k with
          queue := d.queue.map TcpSeg.forget ++ [{
            seqno := pcb.sndLbb + (d.pos : Seq)
            len := min (arg.len - d.pos) pcb.mssLocal
            p := (arg.slice d.pos (min (arg.len - d.pos) pcb.mssLocal)).bytes
            clen := c.length }]
          pos := d.pos + min (arg.len - d.pos) pcb.mssLocal
          oversize := oversize
          queuelen := d.queuelen + c.length } := by
      intro k
      rw [hover, hslice, ← hqueue, hcount]
      rfl
    by_cases hlong : d.queuelen + c.length > tcpSndQueuelen ∨ d.queuelen + c.length > tcpSndQueuelenOverflow
    · rw [if_pos hlong] at h
      obtain ⟨m₁, -, h⟩ := Option.map_eq_some_iff.mp h
      cases h
      exact ⟨0, rfl⟩
    · rw [if_neg hlong] at h
      obtain ⟨⟨r', m₁⟩, hs, h⟩ := Option.map_eq_some_iff.mp h
      cases r' with
      | none =>
        cases h
        exact ⟨0, rfl⟩
      | some seg =>
        cases h
        obtain ⟨-, hseg⟩ := (tcpCreateSegment_gets pcb hnew hdata hlive _).of_some hs
        obtain ⟨hseqno, hflags⟩ := tcpCreateSegment_fields hs
        have hforget := hseg.forget hseqno hflags
        rw [hslice] at hforget
        refine ⟨1, fun k => ?_⟩
        dsimp only
        rw [Nat.add_comm 1 k, hnext, if_neg (not_or.mp hlong).1, ← hforget]
        dsimp only [Draft.forget]
        rw [List.map_append, List.map_singleton]

/-- Phase 3. The two loops have the same turns. -/
theorem segmentLoop_mirrors (hlen : arg.len ≤ tcpSndBuf) {turns : ℕ} {r : Except Draft Draft}
    (hd : Drafting base flags arg pcb d) (h : pcb.segmentLoop flags arg turns d = some r) :
    Mirrors arg (fun d => (pcb.forget rest).segmentLoop (flags.args a) arg.bytes turns d) d r := by
  induction turns generalizing d with
  | zero =>
    rw [WritePcb.segmentLoop] at h
    by_cases hlt : d.pos < arg.len
    · rw [if_pos hlt] at h
      cases h
    · rw [if_neg hlt] at h
      cases h
      refine ⟨0, fun k => ?_⟩
      dsimp only
      rw [Nat.zero_add, Snd.segmentLoop]
      exact if_neg hlt
  | succ turns ih =>
    rw [WritePcb.segmentLoop] at h
    by_cases hlt : d.pos < arg.len
    · rw [if_pos hlt] at h
      obtain ⟨r₁, hr₁, h⟩ := Option.bind_eq_some_iff.mp h
      have hturn := nextSegment_mirrors rest a hd hlen hlt hr₁
      have hloop : ∀ n, (pcb.forget rest).segmentLoop (flags.args a) arg.bytes (turns + 1) (d.forget arg n) =
          ((pcb.forget rest).nextSegment (flags.args a) arg.bytes (d.forget arg n)).bind
            ((pcb.forget rest).segmentLoop (flags.args a) arg.bytes turns) := by
        intro n
        rw [Snd.segmentLoop]
        exact if_pos hlt
      cases r₁ with
      | error e =>
        cases h
        exact hturn.bind_error.congr hloop
      | ok d₁ =>
        obtain ⟨hd₁, -⟩ := (nextSegment_lands hd hlen hlt).of_ok hr₁
        exact (hturn.bind (ih hd₁ h)).congr hloop
    · rw [if_neg hlt] at h
      cases h
      refine ⟨0, fun k => ?_⟩
      dsimp only
      rw [Nat.zero_add, Snd.segmentLoop]
      exact if_neg hlt

/-- Options are in segments without data, and nothing is put behind those. -/
def OptionsAlone (oversize : ℕ) (queue : List TcpSeg) : Prop :=
  ∀ seg ∈ queue.getLast?, seg.optlen ≠ 0 → seg.len = 0 ∧ oversize = 0

theorem OptionsAlone.optlen {queue : List TcpSeg} (h : OptionsAlone n queue)
    (hlast : queue.getLast? = some last) (hlen : 0 < last.len) : last.optlen = 0 := by
  by_contra hne
  have hzero := (h last hlast hne).1
  omega

/-- The number of allocations is in the local variables only. -/
theorem segmentLoop_args (b : ℕ) (data : List UInt8) (turns : ℕ) :
    (pcb.forget rest).segmentLoop (flags.args a) data turns =
      (pcb.forget rest).segmentLoop (flags.args b) data turns := by
  funext d
  induction turns generalizing d with
  | zero =>
    rw [Snd.segmentLoop, Snd.segmentLoop]
  | succ turns ih =>
    have hturn : (pcb.forget rest).nextSegment (flags.args a) data d =
        (pcb.forget rest).nextSegment (flags.args b) data d := rfl
    have hloop := funext ih
    rw [Snd.segmentLoop, Snd.segmentLoop, hturn, hloop]

/-- There is nothing yet but what phase 1 has counted. -/
theorem Drafting.pos_eq (hd : Drafting base flags arg pcb d) (hconcat : d.concatP = none)
    (hqueue : d.queue = []) : d.pos = d.oversizeUsed := by
  have hlen := congrArg List.length hd.data_eq
  have hused := hd.used_le
  have hpos := hd.pos_le
  have hnone : bytes d.concatP.toList = [] := by
    rw [hconcat]
    rfl
  have hnew : queueData d.queue = [] := by
    rw [hqueue]
    rfl
  rw [hnone, hnew, List.append_nil, List.append_nil, List.length_take, List.length_take] at hlen
  rw [Data.len] at hused hpos
  omega

theorem unsent_forget {front : List TcpSeg} (hsnoc : pcb.unsent = front ++ [last]) :
    Snd.unsnoc (pcb.forget rest).unsent = some (front.map TcpSeg.forget, last.forget) := by
  have hmap : (pcb.forget rest).unsent = front.map TcpSeg.forget ++ [last.forget] := by
    rw [WritePcb.forget, hsnoc]
    exact List.map_append
  rw [hmap, unsnoc_snoc]

/-- The three phases -/
theorem segmentation_refines (h : QueueInv pcb) (hoptions : OptionsAlone pcb.unsentOversize pcb.unsent)
    (hlen : arg.len ≤ tcpSndBuf) (hroom : 0 < arg.len → pcb.sndQueuelen < tcpSndQueuelen) {r : Except Draft Draft}
    (hr : pcb.segmentation flags arg m = some r) :
    ∃ n, (pcb.forget rest).segmentation (flags.args n) arg.bytes = r.toOption.map (Draft.forget arg 0) := by
  rw [WritePcb.segmentation, WritePcb.extendTail] at hr
  rcases List.eq_nil_or_concat pcb.unsent with hnil | ⟨front, last, hsnoc⟩
  · rw [hnil, unsnoc_nil] at hr
    dsimp only at hr
    rw [if_pos (h.oversize hnil), Option.bind_some] at hr
    have hd : Drafting m.live flags arg pcb { queuelen := pcb.sndQueuelen, memory := m } :=
      drafting_start h hroom rfl rfl rfl rfl rfl (Nat.zero_le _) (Nat.zero_le _) fun _ => rfl
    obtain ⟨n, hn⟩ := (segmentLoop_mirrors rest 0 hlen hd hr).run
    refine ⟨n, ?_⟩
    have hunsent : (pcb.forget rest).unsent = [] := by
      rw [WritePcb.forget, hnil]
      rfl
    rw [Snd.segmentation, hunsent, unsnoc_nil, ← hn, segmentLoop_args rest n 0 arg.bytes]
    rfl
  · rw [List.concat_eq_append] at hsnoc
    have hlast : pcb.unsent.getLast? = some last := by rw [hsnoc, List.getLast?_concat]
    have hne : pcb.unsent ≠ [] := by simp [hsnoc]
    obtain ⟨d, hd, hdrafting, hfull, hconcat, hqueue⟩ := useOversize_drafting flags h hroom m
    have hsame : d.queuelen = pcb.sndQueuelen := by
      rw [hdrafting.queuelen_eq, hconcat, hqueue]
      rfl
    have hpos : d.pos = d.oversizeUsed := hdrafting.pos_eq hconcat hqueue
    rw [hsnoc, unsnoc_snoc] at hr
    dsimp only at hr
    rw [hd, if_pos hfull] at hr
    obtain ⟨r₁, hr₁, hr⟩ := Option.bind_eq_some_iff.mp hr
    have hspace : 0 < last.len → u16 (((pcb.forget rest).space last.len : ℤ) - d.pos) =
        u16 ((pcb.space last : ℤ) - d.oversizeUsed) := by
      intro hpos'
      have hspace : pcb.space last = (pcb.forget rest).space last.len := by
        rw [WritePcb.space, hoptions.optlen hlast hpos']
        rfl
      rw [hspace, hpos]
    have hchain := chainPbuf_mirrors rest 0 hdrafting hlen (hsame ▸ hroom) hspace hr₁
    have hrun : ∀ n, (pcb.forget rest).segmentation (flags.args n) arg.bytes =
        ((pcb.forget rest).chainTo (flags.args 0) arg.bytes last.forget (d.forget arg n)).bind
          ((pcb.forget rest).segmentLoop (flags.args 0) arg.bytes (tcpSndQueuelen + 1)) := by
      intro n
      rw [Snd.segmentation, unsent_forget rest hsnoc, segmentLoop_args rest n 0 arg.bytes, ← hd,
        useOversize_forget rest]
      rfl
    have hmirrors : Mirrors arg (fun d =>
        ((pcb.forget rest).chainTo (flags.args 0) arg.bytes last.forget d).bind
          ((pcb.forget rest).segmentLoop (flags.args 0) arg.bytes (tcpSndQueuelen + 1))) d r := by
      cases r₁ with
      | error e =>
        cases hr
        exact hchain.bind_error
      | ok d₁ =>
        have hd₁ := (chainPbuf_lands hdrafting hconcat hqueue hlen hne (hsame ▸ hroom) last _).of_ok hr₁
        exact hchain.bind (segmentLoop_mirrors rest 0 hlen hd₁ hr)
    obtain ⟨n, hn⟩ := hmirrors.run
    exact ⟨n, (hrun n).trans hn⟩

/-! ### The end of the call -/

theorem concatPbuf_len {space oversize oversize' : ℕ} {p : Pbuf}
    (h : pcb.concatPbuf flags data space oversize m = some (some (p, oversize'), m')) :
    p.len = data.bytes.length := by
  rw [WritePcb.concatPbuf] at h
  by_cases hcopy : flags.copy = true
  · rw [if_pos hcopy] at h
    obtain ⟨⟨r, m₁⟩, -, h⟩ := Option.map_eq_some_iff.mp h
    cases r with
    | none => cases h
    | some r =>
      cases h
      exact r.len_eq
  · rw [if_neg hcopy] at h
    split at h
    · cases h
    · cases h
      rfl

/-- The pbuf for the end of the last segment is not empty, and neither is that segment. -/
def Filled (pcb : WritePcb) (d : Draft) : Prop :=
  ∀ p ∈ d.concatP, 0 < p.len ∧ ∀ seg ∈ pcb.unsent.getLast?, 0 < seg.len

theorem chainPbuf_filled {space : ℕ} (hconcat : d.concatP = none) (hlast : pcb.unsent.getLast? = some last)
    (h : pcb.chainPbuf flags arg last space d = some (.ok d')) : Filled pcb d' := by
  have hnone : Filled pcb d := fun p hp => absurd (hconcat ▸ hp) (Option.not_mem_none p)
  rw [WritePcb.chainPbuf] at h
  by_cases hmore : d.pos < arg.len ∧ 0 < space ∧ 0 < last.len
  · rw [if_pos hmore] at h
    obtain ⟨⟨r, m'⟩, hr, h⟩ := Option.map_eq_some_iff.mp h
    cases r with
    | none => cases h
    | some r =>
      obtain ⟨p, oversize⟩ := r
      cases h
      intro q hq
      cases hq
      have hle : d.pos + (if space < arg.len - d.pos then space else arg.len - d.pos) ≤ arg.len := by
        split <;> omega
      have hpos : 0 < p.len := by
        rw [concatPbuf_len hr, slice_bytes_length hle]
        split <;> omega
      refine ⟨hpos, fun seg hseg => ?_⟩
      obtain rfl : last = seg := Option.some.inj (hlast.symm.trans hseg)
      exact hmore.2.2
  · rw [if_neg hmore] at h
    cases h
    exact hnone

theorem nextSegment_concatP (h : pcb.nextSegment flags arg d = some (.ok d')) : d'.concatP = d.concatP := by
  rw [WritePcb.nextSegment] at h
  obtain ⟨⟨r, m₁⟩, -, h⟩ := Option.bind_eq_some_iff.mp h
  cases r with
  | none => cases h
  | some r =>
    dsimp only at h
    split at h
    · obtain ⟨m₂, -, h⟩ := Option.map_eq_some_iff.mp h
      cases h
    · obtain ⟨⟨r', m₂⟩, -, h⟩ := Option.map_eq_some_iff.mp h
      cases r' with
      | none => cases h
      | some seg =>
        cases h
        rfl

theorem segmentLoop_concatP {turns : ℕ} (h : pcb.segmentLoop flags arg turns d = some (.ok d')) :
    d'.concatP = d.concatP := by
  induction turns generalizing d with
  | zero =>
    rw [WritePcb.segmentLoop] at h
    split at h
    · cases h
    · cases h
      rfl
  | succ turns ih =>
    rw [WritePcb.segmentLoop] at h
    split at h
    · obtain ⟨r, hr, h⟩ := Option.bind_eq_some_iff.mp h
      cases r with
      | error e => cases h
      | ok d₁ => exact (ih h).trans (nextSegment_concatP hr)
    · cases h
      rfl

theorem segmentation_filled (h : pcb.segmentation flags arg m = some (.ok d)) : Filled pcb d := by
  rw [WritePcb.segmentation] at h
  obtain ⟨r, hr, h⟩ := Option.bind_eq_some_iff.mp h
  cases r with
  | error e => cases h
  | ok d₁ =>
    have hd₁ : Filled pcb d₁ := by
      rw [WritePcb.extendTail] at hr
      rcases List.eq_nil_or_concat pcb.unsent with hnil | ⟨front, last, hsnoc⟩
      · rw [hnil, unsnoc_nil] at hr
        dsimp only at hr
        split at hr
        · cases hr
          exact fun p hp => absurd hp (Option.not_mem_none p)
        · cases hr
      · rw [List.concat_eq_append] at hsnoc
        rw [hsnoc, unsnoc_snoc] at hr
        dsimp only at hr
        split at hr
        · refine chainPbuf_filled ?_ (by rw [hsnoc, List.getLast?_concat]) hr
          rw [WritePcb.useOversize]
          split <;> rfl
        · cases hr
    intro p hp
    rw [segmentLoop_concatP h] at hp
    exact hd₁ p hp

/-- The header of the last segment stays as it is. -/
theorem commitTail_header {last' : TcpSeg}
    (h : (commitOversize arg d last).bind (commitConcat d) = some last') :
    last'.tcphdr = last.tcphdr ∧ last'.flags = last.flags := by
  obtain ⟨last₁, h₁, h₂⟩ := Option.bind_eq_some_iff.mp h
  have hfirst : last₁.tcphdr = last.tcphdr ∧ last₁.flags = last.flags := by
    rw [commitOversize] at h₁
    split at h₁
    · obtain ⟨c, -, hc⟩ := Option.map_eq_some_iff.mp h₁
      cases hc
      exact ⟨rfl, rfl⟩
    · cases h₁
      exact ⟨rfl, rfl⟩
  rw [commitConcat] at h₂
  split at h₂
  · cases h₂
    exact hfirst
  · obtain ⟨c, -, hc⟩ := Option.map_eq_some_iff.mp h₂
    cases hc
    exact hfirst

theorem TcpSeg.Sound.data_length {seg : TcpSeg} (h : seg.Sound) : seg.data.length = seg.len := by
  have hbytes := h.wellFormed.bytes_length
  have htot := h.len_eq
  rw [TcpSeg.data, List.length_drop]
  omega

/-- The last segment, with what phases 1 and 2 have put there -/
theorem Extends.forget {last' : TcpSeg} (hsound : last.Sound) (hfilled : Filled pcb d)
    (hext : Extends (arg.bytes.take d.oversizeUsed ++ bytes d.concatP.toList)
      (d.concatP.toList.map Pbuf.addr) last last')
    (hhdr : last'.tcphdr = last.tcphdr) : last'.forget = Snd.extend last.forget (d.forget arg n) := by
  have hlen : last'.len =
      last.len + (arg.bytes.take d.oversizeUsed).length + (bytes d.concatP.toList).length := by
    rw [← hext.sound.data_length, hext.data_eq, List.length_append, List.length_append, hsound.data_length,
      Nat.add_assoc]
  have hdata : last'.data = last.data ++ arg.bytes.take d.oversizeUsed ++ bytes d.concatP.toList := by
    rw [hext.data_eq, List.append_assoc]
  have hcount : last'.p.length =
      if bytes d.concatP.toList = [] then last.p.length else last.p.length + 1 := by
    rw [hext.length_eq, List.length_map]
    cases hconcat : d.concatP with
    | none => rfl
    | some p =>
      have hne : bytes (some p).toList ≠ [] := by
        obtain ⟨hpos, -⟩ := hfilled p hconcat
        rw [Option.toList_some, bytes_cons, bytes_nil, List.append_nil, ← List.length_pos_iff,
          Pbuf.data_length]
        exact hpos
      rw [if_neg hne]
      rfl
  rw [TcpSeg.forget, hhdr, hlen, hdata, hcount]
  rfl

/-- `TCP_PSH` is not seen without the pbufs. -/
theorem pushLast_forget (queue : List TcpSeg) :
    (pushLast queue).map TcpSeg.forget = queue.map TcpSeg.forget := by
  rcases List.eq_nil_or_concat queue with rfl | ⟨front, last, rfl⟩
  · rfl
  · have hlast : (last.setFlag tcpPsh).forget = last.forget := by
      have hsyn : (last.tcphdr.flags ||| tcpPsh).testBit 1 = last.tcphdr.flags.testBit 1 := by
        rw [Nat.testBit_or]
        exact Bool.or_false _
      have hfin : (last.tcphdr.flags ||| tcpPsh).testBit 0 = last.tcphdr.flags.testBit 0 := by
        rw [Nat.testBit_or]
        exact Bool.or_false _
      rw [TcpSeg.forget, TcpSeg.forget, TcpSeg.setFlag, hsyn, hfin]
      rfl
    rw [List.concat_eq_append, pushLast, unsnoc_snoc, List.map_append, List.map_append, List.map_singleton,
      List.map_singleton, hlast]

/-- `unsent` after the call: the new segments alone, or the last one with what is put there and the new ones
behind it -/
theorem commitUnsent_cases {unsent : List TcpSeg} (h : QueueInv pcb) (hd : Drafting base flags arg pcb d)
    (hlen : arg.len ≤ pcb.sndBuf) (hunsent : pcb.commitUnsent arg d = some unsent) :
    (pcb.unsent = [] ∧ unsent = d.queue) ∨
      ∃ front last last', pcb.unsent = front ++ [last] ∧ unsent = front ++ last' :: d.queue ∧ last.Sound ∧
        Extends (arg.bytes.take d.oversizeUsed ++ bytes d.concatP.toList)
          (d.concatP.toList.map Pbuf.addr) last last' ∧
        last'.tcphdr = last.tcphdr ∧ last'.flags = last.flags := by
  rw [WritePcb.commitUnsent] at hunsent
  rcases List.eq_nil_or_concat pcb.unsent with hnil | ⟨front, last, hsnoc⟩
  · rw [hnil, unsnoc_nil] at hunsent
    cases hunsent
    exact .inl ⟨hnil, rfl⟩
  · rw [List.concat_eq_append] at hsnoc
    have hmem : last ∈ pcb.unsent := hsnoc ▸ List.mem_append_right front List.mem_cons_self
    have hlast : pcb.unsent.getLast? = some last := by rw [hsnoc, List.getLast?_concat]
    have hfits := h.fits last hlast
    obtain ⟨last', hlast', hext, -⟩ :=
      commitTail_extends hd (h.unsent last hmem) (h.room last hlast) (by omega)
    rw [hsnoc, unsnoc_snoc] at hunsent
    dsimp only at hunsent
    rw [hlast'] at hunsent
    cases hunsent
    exact .inr ⟨front, last, last', hsnoc, rfl, h.unsent last hmem, hext, commitTail_header hlast'⟩

theorem commitUnsent_forget {unsent : List TcpSeg} (h : QueueInv pcb) (hd : Drafting base flags arg pcb d)
    (hlen : arg.len ≤ pcb.sndBuf) (hfilled : Filled pcb d) (hunsent : pcb.commitUnsent arg d = some unsent) :
    unsent.map TcpSeg.forget = ((pcb.forget rest).commit arg.bytes.length (d.forget arg n)).unsent := by
  rw [Snd.commit]
  dsimp only
  obtain ⟨hnil, rfl⟩ | ⟨front, last, last', hsnoc, rfl, hsound, hext, hhdr, -⟩ :=
    commitUnsent_cases h hd hlen hunsent
  · have hempty : (pcb.forget rest).unsent = [] := by
      rw [WritePcb.forget, hnil]
      rfl
    rw [hempty, unsnoc_nil]
    rfl
  · rw [unsent_forget rest hsnoc, List.map_append, List.map_cons, hext.forget hsound hfilled hhdr]
    exact List.append_cons _ _ _

theorem commit_forget {err : WriteErr} {pcb' : WritePcb} (h : QueueInv pcb)
    (hd : Drafting base flags arg pcb d) (hlen : arg.len ≤ pcb.sndBuf) (hfilled : Filled pcb d)
    (hcommit : pcb.commit flags arg d = some (err, pcb', m')) :
    pcb'.forget rest = (pcb.forget rest).commit arg.bytes.length (d.forget arg n) := by
  rw [WritePcb.commit] at hcommit
  obtain ⟨unsent, hunsent, hcommit⟩ := Option.bind_eq_some_iff.mp hcommit
  dsimp only at hcommit
  split at hcommit
  · have hbuf := h.sndBuf_sub hlen
    have hpush : (if d.seg && !flags.more then pushLast unsent else unsent).map TcpSeg.forget =
        unsent.map TcpSeg.forget := by
      split
      · exact pushLast_forget unsent
      · rfl
    cases hcommit
    rw [WritePcb.forget]
    dsimp only
    rw [hpush, hbuf, commitUnsent_forget (n := n) rest h hd hlen hfilled hunsent]
    rfl
  · cases hcommit

theorem Drafting.optlen (hd : Drafting base flags arg pcb d) : ∀ seg ∈ d.queue, seg.optlen = 0 := by
  intro seg hseg
  obtain ⟨hsound, htot, -⟩ := hd.segs seg hseg
  have hlen := hsound.len_eq
  omega

theorem commitUnsent_alone {unsent : List TcpSeg} (h : QueueInv pcb)
    (hoptions : OptionsAlone pcb.unsentOversize pcb.unsent) (hd : Drafting base flags arg pcb d) (hlen : arg.len ≤ pcb.sndBuf) (hfilled : Filled pcb d)
    (hunsent : pcb.commitUnsent arg d = some unsent) : OptionsAlone d.oversize unsent := by
  have hqueue : ∀ seg ∈ d.queue.getLast?, seg.optlen = 0 := fun seg hseg =>
    hd.optlen seg (List.mem_of_getLast? hseg)
  obtain ⟨-, rfl⟩ | ⟨front, last, last', hsnoc, rfl, hsound, hext, -, hflags⟩ :=
    commitUnsent_cases h hd hlen hunsent
  · exact fun seg hseg hne => absurd (hqueue seg hseg) hne
  · have hlast : pcb.unsent.getLast? = some last := by rw [hsnoc, List.getLast?_concat]
    intro seg hseg hne
    rcases List.eq_nil_or_concat d.queue with hnil | ⟨init, s, hs⟩
    · -- a segment with options has not been extended
      rw [hnil, List.getLast?_concat] at hseg
      obtain rfl : last' = seg := Option.some.inj hseg
      have hopt : last.optlen ≠ 0 := by
        rw [TcpSeg.optlen, ← hflags]
        exact hne
      obtain ⟨hzero, hover⟩ := hoptions last hlast hopt
      have hconcat : d.concatP = none := by
        cases hp : d.concatP with
        | none => rfl
        | some p =>
          have hpos := (hfilled p hp).2 last hlast
          omega
      have hused := hd.unsent_oversize hnil hconcat
      have hnothing : d.oversizeUsed = 0 := by omega
      have hdata := hext.data_eq
      rw [hconcat, hnothing] at hdata
      have hsame : last'.data.length = last.data.length := by
        rw [hdata]
        exact congrArg List.length (List.append_nil _)
      rw [hext.sound.data_length, hsound.data_length] at hsame
      exact ⟨hsame.trans hzero, by omega⟩
    · have hend : (front ++ last' :: d.queue).getLast? = d.queue.getLast? := by
        rw [hs, List.concat_eq_append, List.append_cons, ← List.append_assoc, List.getLast?_concat,
          List.getLast?_concat]
      rw [hend] at hseg
      exact absurd (hqueue seg hseg) hne

theorem OptionsAlone.pushLast {oversize : ℕ} {queue : List TcpSeg} (h : OptionsAlone oversize queue) :
    OptionsAlone oversize (pushLast queue) := by
  rcases List.eq_nil_or_concat queue with rfl | ⟨front, last, rfl⟩
  · exact h
  · rw [List.concat_eq_append] at h ⊢
    have hpush : Segmentation.pushLast (front ++ [last]) = front ++ [last.setFlag tcpPsh] := by
      rw [Segmentation.pushLast, unsnoc_snoc]
    rw [hpush]
    intro seg hseg hne
    rw [List.getLast?_concat] at hseg
    obtain rfl : last.setFlag tcpPsh = seg := Option.some.inj hseg
    exact h last List.getLast?_concat hne

theorem commit_optionsAlone {err : WriteErr} {pcb' : WritePcb} (h : QueueInv pcb)
    (hoptions : OptionsAlone pcb.unsentOversize pcb.unsent) (hd : Drafting base flags arg pcb d) (hlen : arg.len ≤ pcb.sndBuf) (hfilled : Filled pcb d)
    (hcommit : pcb.commit flags arg d = some (err, pcb', m')) :
    OptionsAlone pcb'.unsentOversize pcb'.unsent := by
  rw [WritePcb.commit] at hcommit
  obtain ⟨unsent, hunsent, hcommit⟩ := Option.bind_eq_some_iff.mp hcommit
  have halone := commitUnsent_alone h hoptions hd hlen hfilled hunsent
  dsimp only at hcommit
  split at hcommit
  · cases hcommit
    change OptionsAlone d.oversize (if d.seg && !flags.more then pushLast unsent else unsent)
    split
    · exact halone.pushLast
    · exact halone
  · cases hcommit

/-- The checks over pbufs are those without. -/
theorem tcpWriteChecks_forget {err : WriteErr} {pcb' : WritePcb} {len : ℕ}
    (h : pcb.tcpWriteChecks len = some (err, pcb')) :
    (err = .ok ∧ (pcb.forget rest).tcpWriteChecks len = none) ∨
      (err = .conn ∧ (pcb.forget rest).tcpWriteChecks len = some .conn ∧ pcb' = pcb) ∨
      err = .mem ∧ (pcb.forget rest).tcpWriteChecks len = some .mem ∧
        pcb' = { pcb with nagleMemErr := true } := by
  have hstate : (pcb.forget rest).state = pcb.state := rfl
  have hbuf : (pcb.forget rest).sndBuf = pcb.sndBuf := rfl
  have hqueuelen : (pcb.forget rest).sndQueuelen = pcb.sndQueuelen := rfl
  rw [WritePcb.tcpWriteChecks] at h
  rw [Snd.tcpWriteChecks, hstate, hbuf, hqueuelen]
  split at h
  · rename_i hconn
    cases h
    rw [if_pos hconn]
    exact .inr (.inl ⟨rfl, rfl, rfl⟩)
  · rename_i hconn
    rw [if_neg hconn]
    split at h
    · rename_i hzero
      cases h
      rw [if_pos hzero]
      exact .inl ⟨rfl, rfl⟩
    · rename_i hzero
      rw [if_neg hzero]
      split at h
      · rename_i hlong
        cases h
        rw [if_pos (.inl hlong)]
        exact .inr (.inr ⟨rfl, rfl, rfl⟩)
      · rename_i hshort
        split at h
        · rename_i hfull
          cases h
          have hfull' : tcpSndQueuelen ≤ pcb.sndQueuelen := by
            simp only [tcpSndQueuelenOverflow, tcpSndQueuelen] at hfull ⊢
            omega
          rw [if_pos (.inr hfull')]
          exact .inr (.inr ⟨rfl, rfl, rfl⟩)
        · rename_i hroom
          have hnone : ¬ (pcb.sndBuf < len ∨ tcpSndQueuelen ≤ pcb.sndQueuelen) :=
            not_or.mpr ⟨hshort, (not_or.mp hroom).1⟩
          rw [if_neg hnone]
          split at h
          · cases h
            exact .inl ⟨rfl, rfl⟩
          · cases h

/-- `tcp_write` over pbufs refines `tcp_write` over bytes, for some number of allocations. -/
theorem tcpWrite_refines (h : QueueInv pcb) (hoptions : OptionsAlone pcb.unsentOversize pcb.unsent)
    (flags : ApiFlags) (arg : Data) (m : Memory) :
    ∃ err pcb' m' allocs, pcb.tcpWrite flags arg m = some (err, pcb', m') ∧
      (pcb.forget rest).tcpWrite (flags.args allocs) arg.bytes = (pcb'.forget rest, err) ∧
      QueueInv pcb' ∧ OptionsAlone pcb'.unsentOversize pcb'.unsent := by
  have hbytes : arg.bytes.length = arg.len := rfl
  have hsame : SameQueues pcb { pcb with nagleMemErr := true } := ⟨rfl, rfl, rfl, rfl, rfl, rfl⟩
  obtain ⟨err, pcb', hchecks, hne, -⟩ | ⟨hchecks, hlen, hroom⟩ := tcpWriteChecks_spec h arg.len
  · obtain ⟨rfl, -⟩ | ⟨rfl, habs, rfl⟩ | ⟨rfl, habs, rfl⟩ := tcpWriteChecks_forget rest hchecks
    · exact absurd rfl hne
    · refine ⟨.conn, pcb', m, 0, ?_, ?_, h, hoptions⟩
      · rw [WritePcb.tcpWrite, hchecks, Option.bind_some]
      · rw [Snd.tcpWrite, hbytes, habs]
    · refine ⟨.mem, { pcb with nagleMemErr := true }, m, 0, ?_, ?_, hsame.queueInv h, hoptions⟩
      · rw [WritePcb.tcpWrite, hchecks, Option.bind_some]
      · rw [Snd.tcpWrite, hbytes, habs]
        rfl
  · obtain ⟨-, habs⟩ | ⟨hno, -⟩ | ⟨hno, -⟩ := tcpWriteChecks_forget rest hchecks
    · obtain ⟨d, hr, hd⟩ | ⟨d, hr, hd, hpos⟩ := segmentation_lands flags h (hlen.trans h.sndBuf) hroom m
      · obtain ⟨n, hn⟩ := segmentation_refines rest h hoptions (hlen.trans h.sndBuf) hroom hr
        obtain ⟨m', hm', -⟩ := memerr_spec h hd
        refine ⟨.mem, { pcb with nagleMemErr := true }, m', n, ?_, ?_, hsame.queueInv h, hoptions⟩
        · rw [WritePcb.tcpWrite, hchecks, Option.bind_some]
          dsimp only
          rw [hr, Option.bind_some]
          exact hm'
        · rw [Snd.tcpWrite, hbytes, habs]
          dsimp only
          rw [hn]
          rfl
      · have hfilled := segmentation_filled hr
        obtain ⟨n, hn⟩ := segmentation_refines rest h hoptions (hlen.trans h.sndBuf) hroom hr
        obtain ⟨pcb', hcommit, -, hinv, -⟩ := commit_spec h hd hpos hlen
        refine ⟨.ok, pcb', d.memory, n, ?_, ?_, hinv, commit_optionsAlone h hoptions hd hlen hfilled hcommit⟩
        · rw [WritePcb.tcpWrite, hchecks, Option.bind_some]
          dsimp only
          rw [hr, Option.bind_some]
          exact hcommit
        · have hforget := commit_forget (n := 0) rest h hd hlen hfilled hcommit
          rw [Snd.tcpWrite, hbytes, habs]
          dsimp only
          rw [hn, hforget]
          rfl
    · cases hno
    · cases hno

/-- What a connection can reach, it reaches with the pbufs as well. -/
theorem writes_reachable {mtu : Option ℕ} {calls : List (ApiFlags × Data)} {taken : List Data}
    {pcb' : WritePcb} (h : QueueInv pcb) (hoptions : OptionsAlone pcb.unsentOversize pcb.unsent)
    (hreach : (sending UInt8 mtu).Reachable (pcb.forget rest))
    (hrun : writes calls m pcb = some (taken, pcb', m')) :
    (sending UInt8 mtu).Reachable (pcb'.forget rest) := by
  induction calls generalizing m pcb taken with
  | nil =>
    cases hrun
    exact hreach
  | cons call calls ih =>
    obtain ⟨flags, arg⟩ := call
    obtain ⟨err, pcb₁, m₁, allocs, hwrite, habs, hinv, hoptions₁⟩ :=
      tcpWrite_refines rest h hoptions flags arg m
    rw [writes, hwrite, Option.bind_some] at hrun
    obtain ⟨⟨taken₁, pcb₂, m₂⟩, hrun, heq⟩ := Option.map_eq_some_iff.mp hrun
    cases heq
    have hstep : pcb₁.forget rest = (pcb.forget rest).exec mtu (.write (flags.args allocs) arg.bytes) := by
      rw [Snd.exec, habs]
    exact ih hinv hoptions₁ (hreach.step hstep) hrun

end QuietLwip.Sender.Segmentation
