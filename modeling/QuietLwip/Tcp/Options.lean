import QuietLwip.Buffers.Headers
import QuietLwip.Ip.Icmp
import QuietLwip.Sender.Input
import Mathlib.Logic.Relation

/-!
# The header of a received segment

The first part of `tcp_input`, up to the removal of the header, and `tcp_parseopt`. The length of the
header is taken as the segment has it. The walk over the options goes from one to the next by their
lengths; it looks at the length of an option before it knows that the area goes on.
-/

namespace QuietLwip.Tcp

open Buffers Word Ip

/-! ### `tcp_parseopt` -/

/-- What the walk over the options leaves, with the offsets of the bytes that it has read. -/
structure Parsed where
  mss : ℕ
  reads : List ℕ
  deriving DecidableEq

def Parsed.read (offsets : List ℕ) (s : Parsed) : Parsed := { s with reads := s.reads ++ offsets }

def Parsed.setMss (mss : ℕ) (s : Parsed) : Parsed := { s with mss := mss }

/-- The loop of `tcp_parseopt`, at the offset `c`; it is `none` when it has not come to its end. -/
def parseLoop (opts : ℕ → UInt8) (maxC : ℕ) : ℕ → ℕ → Parsed → Option Parsed
  | 0, c, s => if c < maxC then none else some s
  | fuel + 1, c, s =>
    if c < maxC then
      let s := s.read [c]
      if opts c = 0 then some s
      else if opts c = 1 then parseLoop opts maxC fuel (u16 (c + 1)) s
      else if opts c = 2 then
        let s := s.read [c + 1]
        if opts (c + 1) ≠ 4 ∨ c + 4 > maxC then some s
        else
          let s := s.read [c + 2, c + 3]
          let mss := 256 * (opts (c + 2)).toNat + (opts (c + 3)).toNat
          parseLoop opts maxC fuel (u16 (c + 4)) (s.setMss (Sender.takenMss mss))
      else
        let s := s.read [c + 1]
        if opts (c + 1) = 0 then some s
        else parseLoop opts maxC fuel (u16 (c + (opts (c + 1)).toNat)) s
    else some s

/-- `max_c`, the length of the options behind a header of so many words. -/
def optionArea (hdrlen : ℕ) : ℕ := (hdrlen - 5) * 4

/-- `tcp_parseopt`; `opts` is the memory behind the fixed part of the header. -/
def tcpParseopt (opts : ℕ → UInt8) (hdrlen mss : ℕ) : Option Parsed :=
  if 5 < hdrlen then parseLoop opts (optionArea hdrlen) (optionArea hdrlen) 0 ⟨mss, []⟩
  else some ⟨mss, []⟩

/-! ### Where the walk goes -/

variable {opts : ℕ → UInt8} {maxC c d hdrlen mss fuel : ℕ} {s s' : Parsed}

/-- The offset behind the option at `c`, unless the walk ends there. -/
def nextOption (opts : ℕ → UInt8) (maxC c : ℕ) : Option ℕ :=
  if opts c = 0 then none
  else if opts c = 1 then some (c + 1)
  else if opts c = 2 then if opts (c + 1) = 4 ∧ c + 4 ≤ maxC then some (c + 4) else none
  else if opts (c + 1) = 0 then none
  else some (c + (opts (c + 1)).toNat)

/-- There is an option at `d`, behind the one at `c`. -/
def OptionAt (opts : ℕ → UInt8) (maxC : ℕ) : ℕ → ℕ → Prop :=
  Relation.ReflTransGen fun c d => nextOption opts maxC c = some d ∧ d < maxC

/-- The area does not end between the kind and the length of an option. -/
def Complete (opts : ℕ → UInt8) (maxC c : ℕ) : Prop :=
  ∀ d, OptionAt opts maxC c d → d + 1 = maxC → opts d = 0 ∨ opts d = 1

/-- The offsets that are read of the option at `c`. -/
def optionReads (opts : ℕ → UInt8) (maxC c : ℕ) : List ℕ :=
  if opts c = 0 ∨ opts c = 1 then [c]
  else if opts c = 2 ∧ opts (c + 1) = 4 ∧ c + 4 ≤ maxC then [c, c + 1, c + 2, c + 3]
  else [c, c + 1]

/-- The value of `mss` is the one before, or it may be divided by. -/
def MssKept (mss mss' : ℕ) : Prop := mss' = mss ∨ 1 ≤ mss' ∧ mss' ≤ TCP_MSS

theorem takenMss_range (mss : ℕ) : 1 ≤ Sender.takenMss mss ∧ Sender.takenMss mss ≤ TCP_MSS := by
  rw [Sender.takenMss]
  split
  · decide
  · rename_i h
    have hmax : Stream.tcpMss = TCP_MSS := rfl
    omega

theorem nextOption_gt (h : nextOption opts maxC c = some d) : c < d ∧ d ≤ c + 255 := by
  have hbyte := (opts (c + 1)).toNat_lt
  rw [nextOption] at h
  split at h
  · cases h
  · split at h
    · cases h
      omega
    · split at h
      · split at h
        · cases h
          omega
        · cases h
      · split at h
        · cases h
        · rename_i hlen
          cases h
          have hpos : (opts (c + 1)).toNat ≠ 0 := fun h => hlen (UInt8.toNat_inj.mp h)
          omega

theorem u16_add {k : ℕ} (h : c + k < 65536) : u16 ((c : ℤ) + k) = c + k := by
  have hsum := u16_natCast h
  push_cast at hsum
  exact hsum

/-- One turn of the loop: it ends, or goes on with the next option. -/
theorem parseLoop_step (opts : ℕ → UInt8) (hc : c < maxC) (hmax : maxC ≤ 40) (fuel : ℕ)
    (s : Parsed) :
    ∃ s', s'.reads = s.reads ++ optionReads opts maxC c ∧ MssKept s.mss s'.mss ∧
      parseLoop opts maxC (fuel + 1) c s =
        (nextOption opts maxC c).elim (some s') fun d => parseLoop opts maxC fuel d s' := by
  have hbyte := (opts (c + 1)).toNat_lt
  rw [parseLoop, if_pos hc, optionReads, nextOption]
  by_cases hend : opts c = 0
  · refine ⟨s.read [c], ?_, .inl rfl, ?_⟩
    · rw [if_pos (.inl hend)]
      rfl
    · rw [if_pos hend, if_pos hend]
      rfl
  by_cases hnop : opts c = 1
  · refine ⟨s.read [c], ?_, .inl rfl, ?_⟩
    · rw [if_pos (.inr hnop)]
      rfl
    · rw [if_neg hend, if_pos hnop, if_neg hend, if_pos hnop]
      have hnext : u16 ((c : ℤ) + 1) = c + 1 := u16_add (k := 1) (by omega)
      rw [hnext]
      rfl
  rw [if_neg (not_or.mpr ⟨hend, hnop⟩), if_neg hend, if_neg hnop, if_neg hend, if_neg hnop]
  by_cases hmss : opts c = 2
  · rw [if_pos hmss, if_pos hmss]
    by_cases hlen : opts (c + 1) = 4 ∧ c + 4 ≤ maxC
    · refine ⟨(s.read [c, c + 1, c + 2, c + 3]).setMss (Sender.takenMss
        (256 * (opts (c + 2)).toNat + (opts (c + 3)).toNat)), ?_, .inr (takenMss_range _), ?_⟩
      · rw [if_pos ⟨hmss, hlen⟩]
        rfl
      · have hnext : u16 ((c : ℤ) + 4) = c + 4 := u16_add (k := 4) (by omega)
        rw [if_neg (not_or.mpr ⟨not_not_intro hlen.1, Nat.not_lt.mpr hlen.2⟩), if_pos hlen, hnext]
        simp [Parsed.read]
    · refine ⟨s.read [c, c + 1], ?_, .inl rfl, ?_⟩
      · rw [if_neg fun h => hlen h.2]
        rfl
      · rw [if_pos ((not_and_or.mp hlen).imp_right Nat.lt_of_not_le), if_neg hlen]
        simp [Parsed.read]
  · refine ⟨s.read [c, c + 1], ?_, .inl rfl, ?_⟩
    · rw [if_neg fun h => hmss h.1]
      rfl
    · rw [if_neg hmss, if_neg hmss, u16_add (by omega)]
      split
      · simp [Parsed.read]
      · simp [Parsed.read]

/-- One option is read within the area, unless the area ends behind its kind. -/
theorem optionReads_lt (hc : c < maxC) : (∀ i ∈ optionReads opts maxC c, i < maxC) ↔
    (c + 1 = maxC → opts c = 0 ∨ opts c = 1) := by
  rw [optionReads]
  by_cases hkind : opts c = 0 ∨ opts c = 1
  · rw [if_pos hkind]
    exact iff_of_true (by simpa using hc) fun _ => hkind
  rw [if_neg hkind]
  split
  · rename_i hmss
    refine iff_of_true ?_ fun h => by omega
    simp only [List.mem_cons, List.not_mem_nil, or_false]
    omega
  · simp only [List.mem_cons, List.not_mem_nil, or_false, hkind, imp_false]
    constructor
    · exact fun h => by have := h (c + 1) (.inr rfl); omega
    · rintro h i (rfl | rfl) <;> omega

theorem complete_iff : Complete opts maxC c ↔
    (c + 1 = maxC → opts c = 0 ∨ opts c = 1) ∧
      ∀ d, nextOption opts maxC c = some d → d < maxC → Complete opts maxC d := by
  constructor
  · intro h
    refine ⟨h c .refl, fun d hd hlt e he => h e (.head ⟨hd, hlt⟩ he)⟩
  · rintro ⟨hhere, hnext⟩ e he hlast
    obtain rfl | ⟨d, ⟨hd, hlt⟩, he⟩ := Relation.ReflTransGen.cases_head he
    · exact hhere hlast
    · exact hnext d hd hlt e he hlast

/-- The walk from the offset `c` on comes to its end; all that it reads lies in the area just when no
option is cut off behind its kind. -/
theorem parseLoop_spec (opts : ℕ → UInt8) (c fuel : ℕ) (hfuel : maxC ≤ c + fuel) (hmax : maxC ≤ 40)
    (s : Parsed) :
    ∃ s', parseLoop opts maxC fuel c s = some s' ∧ MssKept s.mss s'.mss ∧
      ∃ more, s'.reads = s.reads ++ more ∧
        ((∀ i ∈ more, i < maxC) ↔ (c < maxC → Complete opts maxC c)) := by
  induction fuel generalizing c s with
  | zero =>
    refine ⟨s, if_neg (by omega), .inl rfl, [], (List.append_nil _).symm, ?_⟩
    exact iff_of_true (fun i hi => absurd hi List.not_mem_nil) fun h => by omega
  | succ fuel ih =>
    by_cases hc : c < maxC
    · obtain ⟨s₁, hreads, hmss, hstep⟩ := parseLoop_step opts hc hmax fuel s
      rw [hstep, complete_iff]
      cases hnext : nextOption opts maxC c with
      | none =>
        refine ⟨s₁, rfl, hmss, _, hreads, ?_⟩
        rw [optionReads_lt hc]
        constructor
        · exact fun h _ => ⟨h, fun d hd => by cases hd⟩
        · exact fun h => (h hc).1
      | some d =>
        have hgt := (nextOption_gt hnext).1
        obtain ⟨s', hrun, hmss', more, hmore, hin⟩ := ih d (by omega) s₁
        refine ⟨s', hrun, ?_, optionReads opts maxC c ++ more, ?_, ?_⟩
        · rcases hmss' with heq | hrange
          · rw [heq]
            exact hmss
          · exact .inr hrange
        · rw [hmore, hreads, List.append_assoc]
        · rw [List.forall_mem_append, optionReads_lt hc, hin]
          constructor
          · rintro ⟨hhere, hrest⟩ _
            refine ⟨hhere, fun e he hlt => ?_⟩
            cases he
            exact hrest hlt
          · exact fun h => ⟨(h hc).1, (h hc).2 d rfl⟩
    · refine ⟨s, ?_, .inl rfl, [], (List.append_nil _).symm, ?_⟩
      · rw [parseLoop, if_neg hc]
      · exact iff_of_true (fun i hi => absurd hi List.not_mem_nil) fun h => absurd h hc

/-- The walk ends, reads nothing outside the area and leaves a usable value in `mss`. -/
def OptionsInside (hdrlen mss : ℕ) : Option Parsed → Prop
  | some s => MssKept mss s.mss ∧ ∀ i ∈ s.reads, i < optionArea hdrlen
  | none => False

/-- The walk ends, with a usable value in `mss`, whatever the options are. -/
theorem tcpParseopt_spec (opts : ℕ → UInt8) (mss : ℕ) (hhdr : hdrlen ≤ 15) :
    ∃ s, tcpParseopt opts hdrlen mss = some s ∧ MssKept mss s.mss ∧
      ((∀ i ∈ s.reads, i < optionArea hdrlen) ↔
        (5 < hdrlen → Complete opts (optionArea hdrlen) 0)) := by
  rw [tcpParseopt]
  by_cases hlong : 5 < hdrlen
  · have hpos : 0 < optionArea hdrlen := by
      rw [optionArea]
      omega
    have hmax : optionArea hdrlen ≤ 40 := by
      rw [optionArea]
      omega
    obtain ⟨s, hrun, hmss, more, hreads, hin⟩ := parseLoop_spec opts 0 (optionArea hdrlen)
      (Nat.zero_add _).ge hmax ⟨mss, []⟩
    rw [if_pos hlong]
    refine ⟨s, hrun, hmss, ?_⟩
    rw [hreads, List.nil_append, hin]
    exact ⟨fun h _ => h hpos, fun h _ => h hlong⟩
  · rw [if_neg hlong]
    exact ⟨_, rfl, .inl rfl, iff_of_true (fun i hi => absurd hi List.not_mem_nil) fun h => absurd h hlong⟩

/-! ### `tcp_input` -/

/-- What becomes of a segment: it is dropped, or it is processed with the length of its header in words
and with the payload. -/
inductive Taken where
  | dropped
  | processed (hdrlen : ℕ) (c : List Pbuf)

/-- `TCPH_HDRLEN`. -/
def tcphHdrlen (outside : ℕ → UInt8) (p : Pbuf) : ℕ := peekWord outside p 12 / 4096

/-- `tcp_input`, up to the removal of the header. -/
def tcpHeader (env : Ip.Env) (outside : ℕ → UInt8) (src dest : IpAddr) (c : List Pbuf) :
    Option Taken :=
  match c with
  | [] => none
  | p :: _ => (pbufHeader c (-iphdrHlen outside p)).bind fun (failed, c) =>
    match c with
    | [] => none
    | q :: _ =>
      if failed ≠ 0 ∨ q.totLen < 20 then some .dropped
      else if dest.isBroadcast env.inp || dest.isMulticast then some .dropped
      else if inetChksumPseudo env.odd c src dest 6 q.totLen ≠ 0 then some .dropped
      else
        let hdrlen := tcphHdrlen outside q
        (pbufHeader c (-(hdrlen * 4 : ℕ))).map fun (failed, c) =>
          if failed ≠ 0 then .dropped else .processed hdrlen c

variable {env : Ip.Env} {outside : ℕ → UInt8} {src dest : IpAddr} {p q : Pbuf} {ps c : List Pbuf}

/-- The segment is dropped, or its payload is what lies behind a header of at least 20 bytes. -/
def HeaderKept (outside : ℕ → UInt8) (p : Pbuf) (ps : List Pbuf) : Option Taken → Prop
  | some .dropped => True
  | some (.processed hdrlen c) => 20 ≤ hdrlen * 4 ∧
      iphdrHlen outside p + hdrlen * 4 ≤ (bytes (p :: ps)).length ∧
      bytes c = (bytes (p :: ps)).drop (iphdrHlen outside p + hdrlen * 4)
  | none => False

/-- The segment passes the checks in front of the removal of its header. -/
structure Examined (env : Ip.Env) (outside : ℕ → UInt8) (src dest : IpAddr) (p : Pbuf)
    (ps : List Pbuf) : Prop where
  long : iphdrHlen outside p + 20 ≤ p.totLen
  unicast : (dest.isBroadcast env.inp || dest.isMulticast) = false
  chksum : OnesComplement.residue (OnesComplement.value
    ((bytes (p :: ps)).drop (iphdrHlen outside p)) + (addrSum src + addrSum dest + htons 6 +
      htons (p.totLen - iphdrHlen outside p))) = 0xffff

/-- The data offset of the segment. -/
def dataOffset (outside : ℕ → UInt8) (p : Pbuf) : ℕ :=
  peekWord outside p (iphdrHlen outside p + 12) / 4096

/-- The header has its fixed part and lies in the first pbuf. -/
def HeaderInside (outside : ℕ → UInt8) (p : Pbuf) : Prop :=
  20 ≤ dataOffset outside p * 4 ∧ iphdrHlen outside p + dataOffset outside p * 4 ≤ p.len

theorem tcpHeader_iff (hwf : WellFormed (p :: ps)) (hfirst : iphdrHlen outside p ≤ p.len) :
    HeaderKept outside p ps (tcpHeader env outside src dest (p :: ps)) ↔
      (Examined env outside src dest p ps → HeaderInside outside p) := by
  have hle : p.len ≤ p.totLen := by
    rw [hwf.1]
    omega
  obtain ⟨q, hq, hidden⟩ := pbufHeader_hidden ps hfirst hle
  obtain ⟨-, hqwf, hqbytes⟩ := pbufHeader_hide hwf hq
  have htot : q.totLen = p.totLen - iphdrHlen outside p := by
    have := hidden.totLen
    omega
  have hoffset : tcphHdrlen outside q = dataOffset outside p := by
    rw [tcphHdrlen, hidden.peekWord]
    rfl
  rw [tcpHeader, hq, Option.bind_some]
  dsimp only
  by_cases hshort : q.totLen < 20
  · rw [if_pos (.inr hshort)]
    exact iff_of_true trivial fun h => by have := h.long; omega
  rw [if_neg (by omega)]
  cases hcast : dest.isBroadcast env.inp || dest.isMulticast with
  | true => exact iff_of_true trivial fun h => by cases hcast.symm.trans h.unicast
  | false =>
    rw [if_neg Bool.false_ne_true]
    have hsum : inetChksumPseudo env.odd (q :: ps) src dest 6 q.totLen = _ :=
      inetChksumPseudo_eq (q :: ps) (by decide) q.totLt
    rw [hqbytes, htot] at hsum
    rw [htot, hsum]
    by_cases hbad : 0xffff - OnesComplement.residue (OnesComplement.value
        ((bytes (p :: ps)).drop (iphdrHlen outside p)) + (addrSum src + addrSum dest + htons 6 +
          htons (p.totLen - iphdrHlen outside p))) ≠ 0
    · rw [if_pos hbad]
      exact iff_of_true trivial fun h => absurd (by rw [h.chksum]) hbad
    have hexamined : Examined env outside src dest p ps := by
      refine ⟨by omega, hcast, ?_⟩
      have hres := OnesComplement.residue_le (OnesComplement.value
        ((bytes (p :: ps)).drop (iphdrHlen outside p)) + (addrSum src + addrSum dest + htons 6 +
          htons (p.totLen - iphdrHlen outside p)))
      omega
    rw [if_neg hbad, hoffset]
    have hqlen := hidden.len
    by_cases hin : dataOffset outside p * 4 ≤ q.len
    · have hqle : q.len ≤ q.totLen := by
        rw [hqwf.1]
        omega
      obtain ⟨r, hr, -⟩ := pbufHeader_hidden ps hin hqle
      obtain ⟨-, -, hrbytes⟩ := pbufHeader_hide hqwf hr
      have hlen := hwf.bytes_length
      rw [hqbytes, List.drop_drop] at hrbytes
      rw [hr]
      constructor
      · rintro ⟨hleast, -, -⟩ -
        exact ⟨hleast, by omega⟩
      · intro h
        refine ⟨(h hexamined).1, ?_, hrbytes⟩
        rw [hlen]
        change _ ≤ p.totLen
        omega
    · rw [pbufHeader_short (by omega)]
      refine iff_of_false id fun h => hin ?_
      have hinside := (h hexamined).2
      omega

/-- A segment is dropped or has its payload behind a whole header just when the length that it gives is
right; and the walk over the options stays in their area just when no option is cut off behind its
kind. -/
theorem segment_parsed_iff (env : Ip.Env) (outside : ℕ → UInt8) (src dest : IpAddr) (p : Pbuf)
    (ps : List Pbuf) (opts : ℕ → UInt8) (hdrlen mss : ℕ) (hwf : WellFormed (p :: ps))
    (hfirst : iphdrHlen outside p ≤ p.len) (hhdr : hdrlen ≤ 15) :
    (HeaderKept outside p ps (tcpHeader env outside src dest (p :: ps)) ↔
      (Examined env outside src dest p ps → HeaderInside outside p)) ∧
    (OptionsInside hdrlen mss (tcpParseopt opts hdrlen mss) ↔
      (5 < hdrlen → Complete opts (optionArea hdrlen) 0)) ∧
    ∃ s, tcpParseopt opts hdrlen mss = some s ∧ MssKept mss s.mss := by
  obtain ⟨s, hrun, hmss, hin⟩ := tcpParseopt_spec opts mss hhdr
  refine ⟨tcpHeader_iff hwf hfirst, ?_, s, hrun, hmss⟩
  rw [hrun, ← hin]
  exact and_iff_right hmss

/-- A packet from 10.0.0.2 to 10.0.0.1 with a `SYN`, of 40 bytes; its data offset and its checksum are
these. -/
def synBytes (offset high low : UInt8) : List UInt8 :=
  [0x45, 0, 0, 40, 0, 0, 0, 0, 0x40, 6, 0, 0, 10, 0, 0, 2, 10, 0, 0, 1,
    4, 0, 0, 80, 0, 0, 0, 0, 0, 0, 0, 0, offset, 2, 0, 0, high, low, 0, 0]

theorem synBytes_lt (offset high low : UInt8) : (synBytes offset high low).length < 2 ^ 16 := by
  change 40 < 2 ^ 16
  decide

def synPbuf (offset high low : UInt8) : Pbuf :=
  dataPbuf (synBytes offset high low) (synBytes_lt offset high low) 0

theorem segment_parsed_syn :
    (HeaderKept (fun _ => 0) (synPbuf 0x50 0x97 0x90) []
        (tcpHeader quietEnv (fun _ => 0) 0x0a000002#32 0x0a000001#32 [synPbuf 0x50 0x97 0x90]) ↔
      (Examined quietEnv (fun _ => 0) 0x0a000002#32 0x0a000001#32 (synPbuf 0x50 0x97 0x90) [] →
        HeaderInside (fun _ => 0) (synPbuf 0x50 0x97 0x90))) ∧
    (OptionsInside 6 536 (tcpParseopt (fun _ => 1) 6 536) ↔
      (5 < 6 → Complete (fun _ => 1) (optionArea 6) 0)) ∧
    ∃ s, tcpParseopt (fun _ => 1) 6 536 = some s ∧ MssKept 536 s.mss :=
  segment_parsed_iff quietEnv _ _ _ (synPbuf 0x50 0x97 0x90) [] _ 6 536 ⟨rfl, trivial⟩ (by decide)
    (by decide)

/-- A header of 16 bytes is taken, one of 60 bytes aborts in a segment of 20, and an option whose kind is
the last byte of the area has its length read behind it. -/
theorem segment_parsed_outside :
    ¬ HeaderKept (fun _ => 0) (synPbuf 0x40 0xa7 0x90) []
      (tcpHeader quietEnv (fun _ => 0) 0x0a000002#32 0x0a000001#32 [synPbuf 0x40 0xa7 0x90]) ∧
    ¬ HeaderKept (fun _ => 0) (synPbuf 0xf0 0xf7 0x8f) []
      (tcpHeader quietEnv (fun _ => 0) 0x0a000002#32 0x0a000001#32 [synPbuf 0xf0 0xf7 0x8f]) ∧
    ¬ OptionsInside 6 536 (tcpParseopt (fun i => if i = 3 then 2 else 1) 6 536) := by
  have hwf : ∀ offset high low, WellFormed [synPbuf offset high low] := fun _ _ _ => ⟨rfl, trivial⟩
  refine ⟨fun h => ?_, fun h => ?_, fun h => ?_⟩
  · have hin := (tcpHeader_iff (hwf 0x40 0xa7 0x90) (by decide)).mp h ⟨by decide, by decide, by decide⟩
    exact absurd hin.1 (by decide)
  · have hin := (tcpHeader_iff (hwf 0xf0 0xf7 0x8f) (by decide)).mp h ⟨by decide, by decide, by decide⟩
    exact absurd hin.2 (by decide)
  · exact absurd (h.2 4 (by decide)) (by decide)

end QuietLwip.Tcp
