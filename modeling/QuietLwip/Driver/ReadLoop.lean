import QuietLwip.Driver.Bridge

/-!
# The receive loop

`read_loop` runs `quiet_lwip_process_audio` once, until `quiet_lwip_fetch_single_frame` returns `NULL`. It
does so when the decoder is closed and when there is no pbuf for a frame. What a frame meets comes from
the environment: the result of the decoder and the bytes in `recv_temp`, the free elements of the pool,
and the answer of `netif->input`. The dump of the frames has no effect here.
-/

namespace QuietLwip.Driver

open Word Buffers

def ETHTYPE_IP : ℕ := 0x0800
def ETHTYPE_ARP : ℕ := 0x0806

/-- The counters of `lwip_stats.link` that are incremented, each a `u16_t`. -/
structure LinkStats where
  recv : ℕ
  memerr : ℕ
  drop : ℕ
  deriving DecidableEq

/-- What a call of `quiet_decoder_recv` returns and writes, the pool and the answer of `netif->input`. -/
structure Received where
  len : ℤ
  recvTemp : ℕ → UInt8
  pool : List (RamBlock (poolBufsize ETH_PAD_SIZE))
  inputErr : ℤ

/-- What becomes of a frame. -/
inductive Fate where
  -- passed to `netif->input`, which keeps it
  | input
  -- freed by `recv_pbuf`
  | freed
  -- counted in `link.drop`
  | dropped
  deriving DecidableEq

/-- `quiet_lwip_fetch_single_frame(netif)`; `none` is `NULL`. -/
def fetchSingleFrame (st : LinkStats) (r : Received) : LinkStats × Option (List Pbuf) :=
  if r.len ≤ 0 then (st, none)
  else
    match buf2pbuf ETH_PAD_SIZE r.recvTemp r.len.toNat r.pool with
    | none => ({ st with memerr := u16 (st.memerr + 1), drop := u16 (st.drop + 1) }, none)
    | some (p, _) => ({ st with recv := u16 (st.recv + 1) }, some p)

/-- `htons(ethhdr->type)`, wherever the frame ends -/
def ethType (p : Pbuf) : ℕ :=
  ((p.mem[p.payload + ETH_PAD_SIZE + 12]?).getD 0).toNat * 256 +
    ((p.mem[p.payload + ETH_PAD_SIZE + 13]?).getD 0).toNat

/-- `recv_pbuf(netif, p)`; `none` is a failed assertion of `pbuf_free`. -/
def recvPbuf (inputErr : ℤ) (p : List Pbuf) : Option Fate :=
  match p with
  | [] => none
  | q :: _ =>
    if ethType q = ETHTYPE_IP ∨ ethType q = ETHTYPE_ARP then
      if inputErr ≠ ERR_OK then (pbufFree p).map fun _ => .freed else some .input
    else (pbufFree p).map fun _ => .freed

/-- The loop so far: the counters, the frames that it got, whether it was left, and the results of the
decoder that nobody asked for. -/
structure Loop where
  stats : LinkStats
  fates : List Fate
  left : Bool
  rest : List Received

/-- The loop of `quiet_lwip_process_audio`, over what the decoder returns. -/
def processAudio (st : LinkStats) : List Received → Option Loop
  | [] => some ⟨st, [], false, []⟩
  | r :: rs =>
    match fetchSingleFrame st r with
    | (st', none) => some ⟨st', if 0 < r.len then [.dropped] else [], true, rs⟩
    | (st', some p) =>
      (recvPbuf r.inputErr p).bind fun fate =>
        (processAudio st' rs).map fun l => { l with fates := fate :: l.fates }

/-- `read_loop` -/
def readLoop (st : LinkStats) (rs : List Received) : Option Loop := processAudio st rs

/-- The frames in front of the first result that is not positive. -/
def frames (rs : List Received) : List Received := rs.takeWhile fun r => 0 < r.len

/-- There are pbufs for the frame. -/
def Received.Fits (r : Received) : Prop := Enough r.pool (u16 r.len)

/-- The loop gets all the frames and is left when there are no more. -/
structure Complete (st : LinkStats) (rs : List Received) (l : Loop) : Prop where
  left : l.left ↔ ∃ r ∈ rs, r.len ≤ 0
  rest : l.rest = rs.drop ((frames rs).length + 1)
  fates : l.fates.length = (frames rs).length
  drops : l.stats.drop = u16 (st.drop + l.fates.count .dropped : ℕ)

variable {st : LinkStats} {r : Received} {rs : List Received} {p : List Pbuf}

/-- A frame that the loop gets from the pool is passed on or freed. -/
theorem recvPbuf_spec (hne : p ≠ []) (hwf : WellFormed p) (hpool : FromPool p) (inputErr : ℤ) :
    recvPbuf inputErr p = some .input ∨ recvPbuf inputErr p = some .freed := by
  cases p with
  | nil => exact absurd rfl hne
  | cons q qs =>
    have href : Referenced (q :: qs) := fun p hp => (hpool p hp).2.2 ▸ Nat.one_pos
    obtain ⟨f, hf, -⟩ := freeLoop_spec hwf href 0
    have hfree : pbufFree (q :: qs) = some f := hf
    rw [recvPbuf, hfree]
    split
    · split
      · exact .inr rfl
      · exact .inl rfl
    · exact .inr rfl

theorem fetchSingleFrame_end (h : r.len ≤ 0) : fetchSingleFrame st r = (st, none) := if_pos h

theorem buf2pbuf_isSome_iff (h : 0 < r.len) :
    (buf2pbuf ETH_PAD_SIZE r.recvTemp r.len.toNat r.pool).isSome ↔ r.Fits := by
  have hlen : u16 (r.len.toNat + ETH_PAD_SIZE : ℕ) = u16 r.len := by
    rw [ETH_PAD_SIZE, Nat.add_zero, Int.toNat_of_nonneg h.le]
  rw [(buf2pbuf_spec r.recvTemp r.len.toNat r.pool).2, hlen, Received.Fits]

theorem fetchSingleFrame_drop (h : 0 < r.len) (hfit : ¬ r.Fits) : fetchSingleFrame st r =
    ({ st with memerr := u16 (st.memerr + 1), drop := u16 (st.drop + 1) }, none) := by
  rw [← buf2pbuf_isSome_iff h, Option.not_isSome_iff_eq_none] at hfit
  rw [fetchSingleFrame, if_neg (not_le.mpr h), hfit]

theorem fetchSingleFrame_frame (st : LinkStats) (h : 0 < r.len) (hfit : r.Fits) : ∃ p, p ≠ [] ∧ WellFormed p ∧
    FromPool p ∧ fetchSingleFrame st r = ({ st with recv := u16 (st.recv + 1) }, some p) := by
  rw [← buf2pbuf_isSome_iff h] at hfit
  obtain ⟨⟨p, n⟩, hp⟩ := Option.isSome_iff_exists.mp hfit
  obtain ⟨hne, hwf, hpool, -⟩ := (buf2pbuf_spec r.recvTemp r.len.toNat r.pool).1 p n hp
  exact ⟨p, hne, hwf, hpool, by rw [fetchSingleFrame, if_neg (not_le.mpr h), hp]⟩

theorem frames_cons (h : 0 < r.len) (rs : List Received) : frames (r :: rs) = r :: frames rs := by
  simp [frames, h]

theorem frames_end (h : r.len ≤ 0) (rs : List Received) : frames (r :: rs) = [] := by
  simp [frames, not_lt.mpr h]

/-- A frame that is kept moves the loop on to the next result. -/
theorem complete_cons_iff {st' : LinkStats} {l : Loop} {fate : Fate} (hpos : 0 < r.len)
    (hkept : fate ≠ .dropped) (hdrop : st'.drop = st.drop) :
    Complete st (r :: rs) { l with fates := fate :: l.fates } ↔ Complete st' rs l := by
  have hcount : (fate :: l.fates).count .dropped = l.fates.count .dropped :=
    List.count_cons_of_ne hkept
  have hex : (∃ r' ∈ r :: rs, r'.len ≤ 0) ↔ ∃ r' ∈ rs, r'.len ≤ 0 := by
    simp [not_le.mpr hpos]
  constructor
  · rintro ⟨hleft, hrest, hfates, hdrops⟩
    rw [frames_cons hpos] at hrest hfates
    exact ⟨hleft.trans hex, hrest, Nat.succ_injective hfates, by rw [hdrop, ← hcount]; exact hdrops⟩
  · rintro ⟨hleft, hrest, hfates, hdrops⟩
    refine ⟨hleft.trans hex.symm, ?_, ?_, ?_⟩
    · rw [frames_cons hpos]
      exact hrest
    · rw [frames_cons hpos]
      exact congrArg Nat.succ hfates
    · rw [hcount, ← hdrop]
      exact hdrops

/-- The loop gets all the frames exactly when there are pbufs for each of them. -/
theorem processAudio_complete_iff (rs : List Received) (st : LinkStats) (hst : st.drop < 2 ^ 16) :
    ∃ l, processAudio st rs = some l ∧ l.stats.drop = u16 (st.drop + l.fates.count .dropped : ℕ) ∧
      (Complete st rs l ↔ ∀ r ∈ frames rs, r.Fits) := by
  induction rs generalizing st with
  | nil =>
    have hsame : st.drop = u16 (st.drop + 0 : ℕ) := (u16_natCast hst).symm
    exact ⟨_, rfl, hsame, iff_of_true ⟨by simp, rfl, rfl, hsame⟩ fun _ h => (nomatch h)⟩
  | cons r rs ih =>
    rcases le_or_gt r.len 0 with hend | hpos
    · -- the decoder is closed
      have hsame : st.drop = u16 (st.drop + 0 : ℕ) := (u16_natCast hst).symm
      refine ⟨⟨st, [], true, rs⟩, ?_, hsame, iff_of_true ⟨?_, ?_, ?_, hsame⟩ ?_⟩
      · rw [processAudio, fetchSingleFrame_end hend, if_neg (not_lt.mpr hend)]
      · exact iff_of_true rfl ⟨r, List.mem_cons_self .., hend⟩
      · rw [frames_end hend]
        rfl
      · rw [frames_end hend]
        rfl
      · rw [frames_end hend]
        exact fun _ h => (nomatch h)
    by_cases hfit : r.Fits
    · obtain ⟨p, hne, hwf, hpool, hfetch⟩ := fetchSingleFrame_frame st hpos hfit
      obtain ⟨l, hl, hdrops, hiff⟩ := ih { st with recv := u16 (st.recv + 1) } hst
      obtain ⟨fate, hfate, hkept⟩ : ∃ fate, recvPbuf r.inputErr p = some fate ∧ fate ≠ .dropped := by
        rcases recvPbuf_spec hne hwf hpool r.inputErr with h | h
        · exact ⟨_, h, by decide⟩
        · exact ⟨_, h, by decide⟩
      have hcount : (fate :: l.fates).count .dropped = l.fates.count .dropped :=
        List.count_cons_of_ne hkept
      refine ⟨{ l with fates := fate :: l.fates }, ?_, ?_, ?_⟩
      · rw [processAudio, hfetch]
        simp only [hfate, Option.bind_some, hl, Option.map_some]
      · rw [hcount]
        exact hdrops
      · rw [frames_cons hpos, List.forall_mem_cons, and_iff_right hfit, ← hiff]
        exact complete_cons_iff hpos hkept rfl
    · -- the loop is left, with the results of the decoder behind this frame
      refine ⟨⟨{ st with memerr := u16 (st.memerr + 1), drop := u16 (st.drop + 1) }, [.dropped],
        true, rs⟩, ?_, rfl, iff_of_false ?_ ?_⟩
      · rw [processAudio, fetchSingleFrame_drop hpos hfit, if_pos hpos]
      · rintro ⟨hleft, hrest, -, -⟩
        obtain ⟨r', hr', hend⟩ := hleft.mp rfl
        have hin : r' ∈ rs := (List.mem_cons.mp hr').resolve_left fun h => by
          rw [h] at hend
          omega
        rw [frames_cons hpos] at hrest
        have hlen := congrArg List.length hrest
        have hne := List.length_pos_of_mem hin
        simp only [List.length_cons, List.drop_succ_cons, List.length_drop] at hlen
        omega
      · exact fun h => hfit (h r (frames_cons hpos rs ▸ List.mem_cons_self ..))

/-- The receive loop: every frame that it gets is passed on, freed or counted as dropped; it gets all
frames up to the end of the stream, and ends there, exactly when no frame before meets a pool with too few
elements. -/
theorem readLoop_complete_iff (hst : st.drop < 2 ^ 16) (rs : List Received) :
    ∃ l, readLoop st rs = some l ∧ l.stats.drop = u16 (st.drop + l.fates.count .dropped : ℕ) ∧
      (Complete st rs l ↔ ∀ r ∈ frames rs, r.Fits) :=
  processAudio_complete_iff rs st hst

/-- A frame of 60 bytes, over a pool. -/
def frameOver (pool : List (RamBlock (poolBufsize ETH_PAD_SIZE))) : Received :=
  ⟨60, fun _ => 0, pool, ERR_OK⟩

/-- The end of the stream. -/
def closed : Received := ⟨0, fun _ => 0, [], ERR_OK⟩

/-- One frame meets an empty pool: the next one stays in the decoder. -/
theorem readLoop_stops : ¬ ∀ (st : LinkStats) (rs : List Received) (l : Loop), st.drop < 2 ^ 16 →
    readLoop st rs = some l → Complete st rs l := by
  intro h
  obtain ⟨l, hl, -, hiff⟩ := processAudio_complete_iff
    [frameOver [], frameOver (oneBlock _), closed] ⟨0, 0, 0⟩ (by decide)
  have hfits := hiff.mp (h _ _ l (by decide) hl)
  have hfirst : frameOver [] ∈ frames [frameOver [], frameOver (oneBlock _), closed] :=
    frames_cons (r := frameOver []) (by decide) _ ▸ List.mem_cons_self ..
  exact (hfits _ hfirst).1 rfl

/-- A frame for which there is an element. -/
theorem readLoop_complete_iff_oneBlock : ∃ l,
    readLoop ⟨0, 0, 0⟩ [frameOver (oneBlock _), closed] = some l ∧
      Complete ⟨0, 0, 0⟩ [frameOver (oneBlock _), closed] l := by
  obtain ⟨l, hl, -, hiff⟩ := readLoop_complete_iff (show (⟨0, 0, 0⟩ : LinkStats).drop < 2 ^ 16 by decide)
    [frameOver (oneBlock _), closed]
  refine ⟨l, hl, hiff.mpr fun r hr => ?_⟩
  have hr : r ∈ [frameOver (oneBlock _)] := hr
  obtain rfl := List.mem_singleton.mp hr
  exact ⟨List.cons_ne_nil _ _, by decide⟩

end QuietLwip.Driver
