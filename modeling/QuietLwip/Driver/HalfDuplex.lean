import QuietLwip.Driver.Frames
import QuietLwip.Foundation.Transition

/-!
# Half-duplex arbitration of the PortAudio driver

The receive thread polls the decoder for a frame in progress, the emit thread
asks for the next block of samples. Three variables of the driver carry what the
two need to know of the past; the labels of a run are the external events (the
answers of the decoder and of the encoder, and the blocks of silence), so that
the past itself is the list of labels.
-/

namespace QuietLwip.Driver

open QuietLwip.Word QuietLwip.Transition

/-- `quiet_lwip_portaudio_recv_audio_packet` up to the frames it passes on, which
touch none of the variables. -/
def quietLwipPortaudioRecvAudioPacket (driver : PortaudioEthDriver) (frameOpen : Bool) :
    PortaudioEthDriver :=
  if !frameOpen then
    if driver.rxWaitPeerFrame < driver.rxWaitPeerFrameThresh then
      let rxWaitPeerFrame := u64 (driver.rxWaitPeerFrame + 1)
      { driver with
        rxWaitPeerFrame
        rxInProgress :=
          if rxWaitPeerFrame = driver.rxWaitPeerFrameThresh then false
          else driver.rxInProgress }
    else driver
  else { driver with rxWaitPeerFrame := 0, rxInProgress := true }

/-- What an emit step does: call `quiet_portaudio_encoder_emit`, which answers
with a count, or `quiet_portaudio_encoder_emit_empty`. -/
inductive Emission where
  | emit (written : ℤ)
  | emitEmpty
  deriving DecidableEq

/-- `quiet_lwip_portaudio_get_next_audio_packet`, where `answer` is what
`quiet_portaudio_encoder_emit` returns if it is called: the returned count with
the driver and the call made. The count is compared with a `size_t`. -/
def quietLwipPortaudioGetNextAudioPacket (driver : PortaudioEthDriver) (answer : ℤ) :
    PortaudioEthDriver × Emission × ℤ :=
  if driver.txInProgress || !driver.rxInProgress then
    let written := answer
    ({ driver with txInProgress := decide (u64 written = driver.encoderSampleSize) },
      .emit written, written)
  else (driver, .emitEmpty, 0)

/-- The events of the two threads. -/
inductive AudioEvent where
  | poll (frameOpen : Bool)
  | emission (e : Emission)
  deriving DecidableEq

/-- The driver from its initialisation on, under any interleaving of the two steps. -/
def audioSystem (encoderSampleSize : ℕ) : System PortaudioEthDriver AudioEvent where
  start driver := ∃ frameLen sendTemp recvTemp netif,
    quietLwipPortaudioInit (some ⟨frameLen⟩) (some ()) encoderSampleSize sendTemp recvTemp =
      some netif ∧ driver = netif.state
  step driver e driver' :=
    match e with
    | .poll frameOpen => driver' = quietLwipPortaudioRecvAudioPacket driver frameOpen
    | .emission e => ∃ answer r,
        quietLwipPortaudioGetNextAudioPacket driver answer = (driver', e, r)

/-! ### The past -/

/-- The answers of the decoder, oldest first. -/
def polls (es : List AudioEvent) : List Bool :=
  es.filterMap fun
    | .poll frameOpen => some frameOpen
    | .emission _ => none

/-- The counts returned by `quiet_portaudio_encoder_emit`, oldest first. -/
def emits (es : List AudioEvent) : List ℤ :=
  es.filterMap fun
    | .emission (.emit written) => some written
    | _ => none

/-- Some poll saw a frame in progress, and fewer than `thresh` polls since the
last such poll. -/
def CarrierSense (thresh : ℕ) (es : List AudioEvent) : Prop :=
  ∃ before n, polls es = before ++ true :: List.replicate n false ∧ n < thresh

/-- How many polls have seen no frame since the last that saw one. -/
def pollsSinceCarrier (ps : List Bool) : Option ℕ := ps.reverse.findIdx? id

@[simp] theorem pollsSinceCarrier_true (ps : List Bool) :
    pollsSinceCarrier (ps ++ [true]) = some 0 := by
  simp [pollsSinceCarrier, List.findIdx?_cons]

@[simp] theorem pollsSinceCarrier_false (ps : List Bool) :
    pollsSinceCarrier (ps ++ [false]) = (pollsSinceCarrier ps).map (· + 1) := by
  simp [pollsSinceCarrier, List.findIdx?_cons]

theorem pollsSinceCarrier_eq_some_iff (ps : List Bool) :
    ∀ n, pollsSinceCarrier ps = some n ↔
      ∃ before, ps = before ++ true :: List.replicate n false := by
  induction ps using List.reverseRecOn with
  | nil =>
    intro n
    simp [pollsSinceCarrier]
  | append_singleton ps p ih =>
    intro n
    cases p with
    | true =>
      rw [pollsSinceCarrier_true]
      constructor
      · intro h
        cases h
        exact ⟨ps, rfl⟩
      · rintro ⟨before, h⟩
        -- a poll that saw no frame would be the last one
        cases n with
        | zero => rfl
        | succ n =>
          rw [List.replicate_succ', ← List.cons_append, ← List.append_assoc] at h
          have hlast := (List.append_inj' h rfl).2
          simp at hlast
    | false =>
      rw [pollsSinceCarrier_false, Option.map_eq_some_iff]
      constructor
      · rintro ⟨m, hm, rfl⟩
        obtain ⟨before, rfl⟩ := (ih m).mp hm
        exact ⟨before, by rw [List.replicate_succ', List.append_assoc, List.cons_append]⟩
      · rintro ⟨before, h⟩
        cases n with
        | zero =>
          have hlast : [false] = [true] := (List.append_inj' h rfl).2
          cases hlast
        | succ n =>
          rw [List.replicate_succ', ← List.cons_append, ← List.append_assoc] at h
          have hinit := (List.append_inj' h rfl).1
          exact ⟨n, (ih n).mpr ⟨before, hinit⟩, rfl⟩

theorem carrierSense_iff (thresh : ℕ) (es : List AudioEvent) :
    CarrierSense thresh es ↔ ∃ n ∈ pollsSinceCarrier (polls es), n < thresh := by
  simp only [CarrierSense, Option.mem_def, pollsSinceCarrier_eq_some_iff]
  constructor
  · rintro ⟨before, n, h, hn⟩
    exact ⟨n, ⟨before, h⟩, hn⟩
  · rintro ⟨n, ⟨before, h⟩, hn⟩
    exact ⟨before, n, h, hn⟩

/-! ### The invariant -/

/-- What the three variables say about the past. The counter runs to the
threshold and stays there, also before any carrier was seen. -/
structure Arbitrated (sampleSize : ℕ) (es : List AudioEvent) (driver : PortaudioEthDriver) :
    Prop where
  size : driver.encoderSampleSize = sampleSize
  thresh : driver.rxWaitPeerFrameThresh = 3
  wait_le : driver.rxWaitPeerFrame ≤ 3
  unseen : pollsSinceCarrier (polls es) = none → driver.rxInProgress = false
  seen : ∀ n, pollsSinceCarrier (polls es) = some n →
    driver.rxWaitPeerFrame = min n 3 ∧ driver.rxInProgress = decide (n < 3)
  sent : driver.txInProgress =
    ((emits es).getLast?.elim false fun written => decide (u64 written = sampleSize))

theorem Arbitrated.poll {sampleSize : ℕ} {es : List AudioEvent} {driver : PortaudioEthDriver}
    (h : Arbitrated sampleSize es driver) (frameOpen : Bool) :
    Arbitrated sampleSize (es ++ [.poll frameOpen])
      (quietLwipPortaudioRecvAudioPacket driver frameOpen) := by
  have hpolls : polls (es ++ [.poll frameOpen]) = polls es ++ [frameOpen] := by simp [polls]
  have hemits : emits (es ++ [.poll frameOpen]) = emits es := by simp [emits]
  obtain ⟨hsize, hthresh, hwait, hunseen, hseen, hsent⟩ := h
  cases frameOpen with
  | true =>
    refine ⟨hsize, hthresh, by simp [quietLwipPortaudioRecvAudioPacket], ?_, ?_, ?_⟩
    · rw [hpolls, pollsSinceCarrier_true]
      intro hnone
      cases hnone
    · rw [hpolls, pollsSinceCarrier_true]
      intro n hn
      cases hn
      exact ⟨rfl, rfl⟩
    · rw [hemits]
      exact hsent
  | false =>
    by_cases hlt : driver.rxWaitPeerFrame < 3
    · have hnext : u64 ((driver.rxWaitPeerFrame : ℤ) + 1) = driver.rxWaitPeerFrame + 1 :=
        wrapU_natCast (n := driver.rxWaitPeerFrame + 1) (by omega)
      have hstep : quietLwipPortaudioRecvAudioPacket driver false =
          { driver with
            rxWaitPeerFrame := driver.rxWaitPeerFrame + 1
            rxInProgress :=
              if driver.rxWaitPeerFrame + 1 = 3 then false else driver.rxInProgress } := by
        simp only [quietLwipPortaudioRecvAudioPacket, Bool.not_false, ↓reduceIte, hthresh,
          if_pos hlt, hnext]
      rw [hstep]
      refine ⟨hsize, hthresh, by simp only; omega, ?_, ?_, by rw [hemits]; exact hsent⟩
      · rw [hpolls, pollsSinceCarrier_false, Option.map_eq_none_iff]
        intro hnone
        simp only [hunseen hnone, ite_self]
      · rw [hpolls, pollsSinceCarrier_false]
        intro n hn
        obtain ⟨m, hm, rfl⟩ := Option.map_eq_some_iff.mp hn
        obtain ⟨hw, hrx⟩ := hseen m hm
        refine ⟨by simp only; omega, ?_⟩
        by_cases hfull : driver.rxWaitPeerFrame + 1 = 3
        · simp only [if_pos hfull, Bool.false_eq, decide_eq_false_iff_not]
          omega
        · simp only [if_neg hfull, hrx, decide_eq_decide]
          omega
    · have hstep : quietLwipPortaudioRecvAudioPacket driver false = driver := by
        simp only [quietLwipPortaudioRecvAudioPacket, Bool.not_false, ↓reduceIte, hthresh,
          if_neg hlt]
      rw [hstep]
      refine ⟨hsize, hthresh, hwait, ?_, ?_, by rw [hemits]; exact hsent⟩
      · rw [hpolls, pollsSinceCarrier_false, Option.map_eq_none_iff]
        exact hunseen
      · rw [hpolls, pollsSinceCarrier_false]
        intro n hn
        obtain ⟨m, hm, rfl⟩ := Option.map_eq_some_iff.mp hn
        obtain ⟨hw, hrx⟩ := hseen m hm
        refine ⟨by omega, ?_⟩
        rw [hrx, decide_eq_decide]
        omega

theorem Arbitrated.emission {sampleSize : ℕ} {es : List AudioEvent}
    {driver driver' : PortaudioEthDriver} {e : Emission} {answer r : ℤ}
    (h : Arbitrated sampleSize es driver)
    (hs : quietLwipPortaudioGetNextAudioPacket driver answer = (driver', e, r)) :
    Arbitrated sampleSize (es ++ [.emission e]) driver' := by
  have hpolls : polls (es ++ [.emission e]) = polls es := by simp [polls]
  obtain ⟨hsize, hthresh, hwait, hunseen, hseen, hsent⟩ := h
  simp only [quietLwipPortaudioGetNextAudioPacket] at hs
  split at hs
  · cases hs
    refine ⟨hsize, hthresh, hwait, by rw [hpolls]; exact hunseen, by rw [hpolls]; exact hseen, ?_⟩
    simp [emits, hsize]
  · cases hs
    refine ⟨hsize, hthresh, hwait, by rw [hpolls]; exact hunseen, by rw [hpolls]; exact hseen, ?_⟩
    rw [hsent]
    simp [emits]

theorem arbitrated_of_run {sampleSize : ℕ} {es : List AudioEvent} {driver : PortaudioEthDriver}
    (h : (audioSystem sampleSize).Run (fun _ _ => True) es driver) :
    Arbitrated sampleSize es driver := by
  apply h.invariant
  · rintro s ⟨frameLen, sendTemp, recvTemp, netif, hinit, rfl⟩
    cases hinit
    refine ⟨rfl, rfl, by simp, fun _ => rfl, ?_, rfl⟩
    intro n hn
    cases hn
  · intro as s a t _ hs _ hstep
    cases a with
    | poll frameOpen =>
      cases hstep
      exact hs.poll frameOpen
    | emission e =>
      obtain ⟨answer, r, hstep⟩ := hstep
      exact hs.emission hstep

/-! ### The arbitration -/

/-- An emit step is silent exactly when no transmission is under way and the
carrier is sensed. -/
theorem getNextAudioPacket_silent_iff (driver : PortaudioEthDriver) (answer : ℤ) :
    (quietLwipPortaudioGetNextAudioPacket driver answer).2.1 = .emitEmpty ↔
      driver.txInProgress = false ∧ driver.rxInProgress = true := by
  simp only [quietLwipPortaudioGetNextAudioPacket]
  by_cases h : driver.txInProgress || !driver.rxInProgress
  · rw [if_pos h]
    cases htx : driver.txInProgress <;> cases hrx : driver.rxInProgress <;> simp_all
  · rw [if_neg h]
    cases htx : driver.txInProgress <;> cases hrx : driver.rxInProgress <;> simp_all

/-- A count fills the block when it is the block's size. The comparison of the
code is one of `size_t`; it is this one for every block that fits into memory. -/
theorem u64_eq_sampleSize_iff {sampleSize : ℕ} {written : ℤ} (hsize : sampleSize < 2 ^ 63)
    (hlo : -2 ^ 63 ≤ written) (hhi : written < 2 ^ 63) :
    u64 written = sampleSize ↔ written = sampleSize := by
  simp only [u64, wrapU]
  omega

/-- The three variables after any interleaving of polls and emit steps, and what
the next emit step does: it goes on with a transmission that has begun, and begins
none while the carrier is sensed. -/
theorem half_duplex_arbitration {sampleSize : ℕ} {es : List AudioEvent}
    {driver : PortaudioEthDriver}
    (h : (audioSystem sampleSize).Run (fun _ _ => True) es driver) :
    driver.rxWaitPeerFrame ≤ driver.rxWaitPeerFrameThresh ∧
    (driver.rxInProgress = true ↔ CarrierSense driver.rxWaitPeerFrameThresh es) ∧
    (driver.txInProgress = true ↔ ∃ written ∈ (emits es).getLast?, u64 written = sampleSize) ∧
    (sampleSize < 2 ^ 63 → ∀ written : ℤ, -2 ^ 63 ≤ written → written < 2 ^ 63 →
      (u64 written = sampleSize ↔ written = sampleSize)) ∧
    ∀ answer : ℤ,
      ((quietLwipPortaudioGetNextAudioPacket driver answer).2.1 = .emitEmpty ↔
        driver.txInProgress = false ∧ driver.rxInProgress = true) ∧
      (driver.txInProgress = true →
        (quietLwipPortaudioGetNextAudioPacket driver answer).2.1 = .emit answer) ∧
      (driver.txInProgress = false → driver.rxInProgress = true →
        quietLwipPortaudioGetNextAudioPacket driver answer = (driver, .emitEmpty, 0)) := by
  obtain ⟨-, hthresh, hwait, hunseen, hseen, hsent⟩ := arbitrated_of_run h
  refine ⟨by rw [hthresh]; exact hwait, ?_, ?_, ?_, ?_⟩
  · rw [carrierSense_iff, hthresh]
    cases hq : pollsSinceCarrier (polls es) with
    | none => simp [hunseen hq]
    | some n => simp [(hseen n hq).2]
  · rw [hsent]
    cases (emits es).getLast? with
    | none => simp
    | some written => simp
  · intro hsize written hlo hhi
    exact u64_eq_sampleSize_iff hsize hlo hhi
  · intro answer
    refine ⟨getNextAudioPacket_silent_iff driver answer, ?_, ?_⟩
    · intro htx
      simp only [quietLwipPortaudioGetNextAudioPacket, htx, Bool.true_or, ↓reduceIte]
    · intro htx hrx
      simp only [quietLwipPortaudioGetNextAudioPacket, htx, hrx, Bool.not_true, Bool.or_self,
        Bool.false_eq_true, ↓reduceIte]

/-- A driver just initialised, over blocks of four samples. -/
def initialDriver : PortaudioEthDriver :=
  ⟨4, fun _ => 0, 100, fun _ => 0, 100, false, false, 0, 3⟩

theorem audioSystem_run_poll (frameOpen : Bool) :
    (audioSystem 4).Run (fun _ _ => True) [.poll frameOpen]
      (quietLwipPortaudioRecvAudioPacket initialDriver frameOpen) := by
  have hstart : (audioSystem 4).start initialDriver :=
    ⟨100, fun _ => 0, fun _ => 0, ⟨86, initialDriver⟩, rfl, rfl⟩
  exact (System.Run.start hstart).snoc trivial rfl

/-- After one poll that saw a frame the carrier is sensed and the next emit step is silent. -/
theorem half_duplex_arbitration_carrier :
    CarrierSense 3 [.poll true] ∧
    (quietLwipPortaudioGetNextAudioPacket
      (quietLwipPortaudioRecvAudioPacket initialDriver true) 4).2.1 = .emitEmpty := by
  obtain ⟨-, hrx, -, -, hemit⟩ := half_duplex_arbitration (audioSystem_run_poll true)
  exact ⟨hrx.mp rfl, (hemit 4).1.mpr ⟨rfl, rfl⟩⟩

end QuietLwip.Driver
