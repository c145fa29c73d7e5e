import QuietLwip.Buffers.Chains
import QuietLwip.Foundation.Region

/-!
# Outgoing frames

`netif->linkoutput` of the two drivers: the packet chain is copied into the
driver's temporary buffer by `pbuf2buf` and handed to the encoder. The bound on
the packets (`netif->mtu`) and the size of the buffer are set at init, by
`driver.c` and `driver_portaudio.c` in different ways. The link statistics and
the printed message of a dropped frame are left out.
-/

namespace QuietLwip.Driver

open QuietLwip.Word QuietLwip.Buffers

def ERR_OK : ℤ := 0
def ERR_BUF : ℤ := -2
/-- `sizeof(struct eth_hdr)`, which includes the padding. -/
def SIZEOF_ETH_HDR : ℕ := 14 + ETH_PAD_SIZE

/-- The loop of `pbuf2buf`. -/
def copyLoop (buf : Region) (len : ℕ) : List Pbuf → Region × ℕ
  | [] => (buf, len)
  | q :: qs => copyLoop (buf.write len q.data) (len + q.len) qs

/-- `pbuf2buf(buf, p)`: what was written to `buf`, the length, and the chain. -/
def pbuf2buf (ethPadSize : ℕ) (buf : ℕ → UInt8) (p : List Pbuf) :
    Option (Region × ℕ × List Pbuf) := do
  let (_, p) ← pbufHeader p (-ethPadSize)
  let (buf, len) := copyLoop (Region.fresh buf) 0 p
  let (_, p) ← pbufHeader p ethPadSize
  return (buf, len, p)

theorem copyLoop_spec (c : List Pbuf) :
    ∀ {buf : Region} {n : ℕ}, buf.extent = n →
      ∃ r, copyLoop buf n c = (r, n + (bytes c).length) ∧
        r.extent = n + (bytes c).length ∧
        r.read 0 (n + (bytes c).length) = buf.read 0 n ++ bytes c := by
  induction c with
  | nil =>
    intro buf n h
    exact ⟨buf, rfl, h, by simp⟩
  | cons q qs ih =>
    intro buf n h
    have hext : (buf.write n q.data).extent = n + q.len := by
      rw [Region.extent_write_append h, Pbuf.data_length]
    obtain ⟨r, hr, hrext, hrread⟩ := ih hext
    have hlen : n + (bytes (q :: qs)).length = n + q.len + (bytes qs).length := by
      rw [bytes_cons, List.length_append, Pbuf.data_length, Nat.add_assoc]
    have hread := buf.read_write_append n q.data
    rw [Pbuf.data_length] at hread
    refine ⟨r, ?_, ?_, ?_⟩
    · rw [copyLoop, hr, hlen]
    · rw [hrext, hlen]
    · rw [hlen, hrread, hread, bytes_cons, List.append_assoc]

/-- `pbuf2buf` copies the bytes behind the padding, to the front of the buffer
and nowhere else. -/
theorem pbuf2buf_spec {p : Pbuf} {ps : List Pbuf} {ethPadSize : ℕ} (buf : ℕ → UInt8)
    (hwf : WellFormed (p :: ps)) (hpad : ethPadSize ≤ p.len) :
    ∃ r c, pbuf2buf ethPadSize buf (p :: ps) = some (r, totLen (p :: ps) - ethPadSize, c) ∧
      r.extent = totLen (p :: ps) - ethPadSize ∧
      r.read 0 (totLen (p :: ps) - ethPadSize) = (bytes (p :: ps)).drop ethPadSize := by
  obtain ⟨c, hc⟩ := pbufHeader_hide_succeeds ps hpad
  obtain ⟨-, hcwf, hbytes⟩ := pbufHeader_hide hwf hc
  have hlen : (bytes c).length = totLen (p :: ps) - ethPadSize := by
    rw [hbytes, List.length_drop, hwf.bytes_length]
  have hfresh : (Region.fresh buf).extent = 0 := rfl
  obtain ⟨r, hr, hext, hread⟩ := copyLoop_spec c hfresh
  have hne : c ≠ [] := pbufHeader_ne_nil hc
  obtain ⟨u, d, hd⟩ := pbufHeader_nonneg_total hne (Nat.cast_nonneg ethPadSize)
  rw [Nat.zero_add, hlen] at hr hext hread
  refine ⟨r, d, ?_, hext, ?_⟩
  · simp [pbuf2buf, hc, hr, hd]
  · rw [hread, hbytes]
    rfl

/-! ### The interfaces -/

/-- What the drivers ask of a created encoder. -/
structure Encoder where
  frameLen : ℕ

/-- The fields of `struct netif` the drivers set and read. -/
structure Netif (δ : Type) where
  mtu : ℕ
  state : δ

/-- `eth_driver` -/
structure EthDriver where
  sendTemp : ℕ → UInt8
  sendTempLen : ℕ
  recvTemp : ℕ → UInt8
  recvTempLen : ℕ

/-- `portaudio_eth_driver` -/
structure PortaudioEthDriver where
  encoderSampleSize : ℕ
  sendTemp : ℕ → UInt8
  sendTempLen : ℕ
  recvTemp : ℕ → UInt8
  recvTempLen : ℕ
  rxInProgress : Bool
  txInProgress : Bool
  rxWaitPeerFrame : ℕ
  rxWaitPeerFrameThresh : ℕ

/-- `quiet_lwip_interface_init`, given the encoder and decoder created (`none`
for a failed creation) and the two blocks of `malloc`; `none` is `ERR_IF`. -/
def quietLwipInterfaceInit (e : Option Encoder) (d : Option Unit)
    (sendTemp recvTemp : ℕ → UInt8) : Option (Netif EthDriver) := do
  let e ← e
  let _ ← d
  let mtu := u16 e.frameLen
  return {
    mtu
    state := {
      sendTemp, recvTemp
      sendTempLen := mtu + ETH_PAD_SIZE
      recvTempLen := mtu + ETH_PAD_SIZE } }

/-- `quiet_lwip_portaudio_init` -/
def quietLwipPortaudioInit (e : Option Encoder) (d : Option Unit) (encoderSampleSize : ℕ)
    (sendTemp recvTemp : ℕ → UInt8) : Option (Netif PortaudioEthDriver) := do
  let e ← e
  let _ ← d
  return {
    mtu := u16 ((e.frameLen : ℤ) - PBUF_LINK_HLEN)
    state := {
      encoderSampleSize, sendTemp, recvTemp
      sendTempLen := e.frameLen + ETH_PAD_SIZE
      recvTempLen := e.frameLen + ETH_PAD_SIZE
      rxInProgress := false
      txInProgress := false
      rxWaitPeerFrame := 0
      rxWaitPeerFrameThresh := 3 } }

/-- A call of `netif->linkoutput`: the error code, the end of the highest byte of
`send_temp` written, the frame given to the encoder, and the chain afterwards. -/
structure Transmission where
  err : ℤ
  written : ℕ
  frame : Option (List UInt8)
  chain : List Pbuf

/-- `quiet_lwip_encode_frame` -/
def quietLwipEncodeFrame (netif : Netif EthDriver) (p : List Pbuf) :
    Option (Netif EthDriver × Transmission) := do
  let driver := netif.state
  let (buf, len, p) ← pbuf2buf ETH_PAD_SIZE driver.sendTemp p
  return ({ netif with state := { driver with sendTemp := buf.cells } },
    ⟨ERR_OK, buf.extent, some (buf.read 0 len), p⟩)

/-- `quiet_lwip_portaudio_encode_frame` -/
def quietLwipPortaudioEncodeFrame (netif : Netif PortaudioEthDriver) (p : List Pbuf) :
    Option (Netif PortaudioEthDriver × Transmission) := do
  let driver := netif.state
  let pktLen := u64 ((totLen p : ℤ) - ETH_PAD_SIZE)
  if pktLen > driver.sendTempLen then
    return (netif, ⟨ERR_BUF, 0, none, p⟩)
  let (buf, len, p) ← pbuf2buf ETH_PAD_SIZE driver.sendTemp p
  return ({ netif with state := { driver with sendTemp := buf.cells } },
    ⟨ERR_OK, buf.extent, some (buf.read 0 len), p⟩)

/-- What `driver.c` does with a well-formed chain: it is copied whatever its length. -/
theorem quietLwipEncodeFrame_spec {p : List Pbuf} (hne : p ≠ []) (hwf : WellFormed p)
    (netif : Netif EthDriver) :
    ∃ n t, quietLwipEncodeFrame netif p = some (n, t) ∧ t.written = totLen p ∧
      t.frame = some (bytes p) := by
  cases p with
  | nil => exact absurd rfl hne
  | cons q qs =>
    obtain ⟨r, c, hcopy, hext, hread⟩ :=
      pbuf2buf_spec netif.state.sendTemp hwf (Nat.zero_le q.len)
    refine ⟨_, _, by rw [quietLwipEncodeFrame, ETH_PAD_SIZE, hcopy]; rfl, hext, ?_⟩
    exact congrArg some hread

/-- `driver_portaudio.c` drops what does not fit into `send_temp`. -/
theorem quietLwipPortaudioEncodeFrame_spec {p : List Pbuf} (hne : p ≠ []) (hwf : WellFormed p)
    (netif : Netif PortaudioEthDriver) :
    ∃ n t, quietLwipPortaudioEncodeFrame netif p = some (n, t) ∧
      if totLen p ≤ netif.state.sendTempLen then t.written = totLen p ∧ t.frame = some (bytes p)
      else t.written = 0 ∧ t.frame = none := by
  have hlt := totLen_lt p
  have hpkt : u64 ((totLen p : ℤ) - ETH_PAD_SIZE) = totLen p := by
    simp only [u64, wrapU, ETH_PAD_SIZE]
    omega
  cases p with
  | nil => exact absurd rfl hne
  | cons q qs =>
    simp only [quietLwipPortaudioEncodeFrame, hpkt]
    by_cases hfit : totLen (q :: qs) ≤ netif.state.sendTempLen
    · obtain ⟨r, c, hcopy, hext, hread⟩ :=
        pbuf2buf_spec netif.state.sendTemp hwf (Nat.zero_le q.len)
      rw [if_neg (by omega)]
      refine ⟨_, _, by rw [ETH_PAD_SIZE, hcopy]; rfl, ?_⟩
      rw [if_pos hfit]
      exact ⟨hext, congrArg some hread⟩
    · rw [if_pos (by omega)]
      refine ⟨_, _, rfl, ?_⟩
      rw [if_neg hfit]
      exact ⟨rfl, rfl⟩

/-- An interface of either driver. -/
inductive Interface where
  | eth (netif : Netif EthDriver)
  | portaudio (netif : Netif PortaudioEthDriver)

namespace Interface

def mtu : Interface → ℕ
  | eth netif => netif.mtu
  | portaudio netif => netif.mtu

def sendTempLen : Interface → ℕ
  | eth netif => netif.state.sendTempLen
  | portaudio netif => netif.state.sendTempLen

/-- `netif->linkoutput(netif, p)` -/
def linkoutput (i : Interface) (p : List Pbuf) : Option (Interface × Transmission) :=
  match i with
  | eth netif => (quietLwipEncodeFrame netif p).map fun r => (eth r.1, r.2)
  | portaudio netif => (quietLwipPortaudioEncodeFrame netif p).map fun r => (portaudio r.1, r.2)

/-- The interfaces the init functions set up over an encoder of frame length `frameLen`. -/
inductive SetUp (frameLen : ℕ) : Interface → Prop
  | eth {sendTemp recvTemp : ℕ → UInt8} {netif : Netif EthDriver} :
    quietLwipInterfaceInit (some ⟨frameLen⟩) (some ()) sendTemp recvTemp = some netif →
    SetUp frameLen (eth netif)
  | portaudio {sampleSize : ℕ} {sendTemp recvTemp : ℕ → UInt8}
      {netif : Netif PortaudioEthDriver} :
    quietLwipPortaudioInit (some ⟨frameLen⟩) (some ()) sampleSize sendTemp recvTemp =
      some netif →
    SetUp frameLen (portaudio netif)

/-- An IP packet of at most `mtu` bytes behind its Ethernet header. -/
def HandedDown (i : Interface) (p : List Pbuf) : Prop :=
  p ≠ [] ∧ WellFormed p ∧ ∃ ipLen ≤ i.mtu, totLen p = SIZEOF_ETH_HDR + ipLen

/-- The copy stays inside `send_temp` and the frame inside the encoder's frame length. -/
def WithinBounds (frameLen : ℕ) (i : Interface) (t : Transmission) : Prop :=
  t.written ≤ i.sendTempLen ∧ ∀ frame ∈ t.frame, frame.length ≤ frameLen

/-- The contents of `send_temp` are all that a transmission changes, so that an
interface stays the one that was set up. -/
theorem SetUp.linkoutput {frameLen : ℕ} {i j : Interface} {p : List Pbuf} {t : Transmission}
    (h : SetUp frameLen i) (ht : i.linkoutput p = some (j, t)) : SetUp frameLen j := by
  cases h with
  | eth hinit =>
    cases hinit
    obtain ⟨r, hr, hj⟩ := Option.map_eq_some_iff.mp ht
    obtain ⟨⟨buf, len, c⟩, -, hr⟩ := Option.bind_eq_some_iff.mp hr
    cases hr
    cases hj
    exact SetUp.eth rfl
  | portaudio hinit =>
    cases hinit
    obtain ⟨r, hr, hj⟩ := Option.map_eq_some_iff.mp ht
    simp only [quietLwipPortaudioEncodeFrame] at hr
    split at hr
    · cases hr
      cases hj
      exact SetUp.portaudio rfl
    · obtain ⟨⟨buf, len, c⟩, -, hr⟩ := Option.bind_eq_some_iff.mp hr
      cases hr
      cases hj
      exact SetUp.portaudio rfl

/-- The copy and the frame stay inside their bounds exactly when the interface is
a PortAudio one, whose MTU leaves room for the link header, or the packet with its
Ethernet header happens to be no longer than the encoder's frames. -/
theorem linkoutput_withinBounds_iff {frameLen : ℕ} {i : Interface} {p : List Pbuf}
    (hlo : 14 ≤ frameLen) (hhi : frameLen ≤ 65535) (hi : SetUp frameLen i)
    (hp : HandedDown i p) :
    ∃ j t, i.linkoutput p = some (j, t) ∧
      (WithinBounds frameLen i t ↔ (∃ netif, i = portaudio netif) ∨ totLen p ≤ frameLen) := by
  obtain ⟨hne, hwf, ipLen, hmtu, htot⟩ := hp
  have hbytes := hwf.bytes_length
  have hlt : frameLen < 2 ^ 16 := by omega
  cases hi with
  | @eth _ _ netif hinit =>
    obtain ⟨n, t, ht, hwritten, hframe⟩ := quietLwipEncodeFrame_spec hne hwf netif
    refine ⟨eth n, t, by rw [linkoutput, ht]; rfl, ?_⟩
    have hlen : netif.state.sendTempLen = frameLen := by
      cases hinit
      exact wrapU_natCast hlt
    simp only [WithinBounds, sendTempLen, hwritten, hframe, hlen, Option.mem_some_iff,
      forall_eq', hbytes, and_self, reduceCtorEq, exists_false, false_or]
  | @portaudio _ _ _ netif hinit =>
    obtain ⟨n, t, ht, hspec⟩ := quietLwipPortaudioEncodeFrame_spec hne hwf netif
    refine ⟨portaudio n, t, by rw [linkoutput, ht]; rfl, ?_⟩
    have hlen : netif.state.sendTempLen = frameLen := by
      cases hinit
      rfl
    have hroom : ipLen + 14 ≤ frameLen := by
      have hm : netif.mtu = frameLen - 14 := by
        cases hinit
        simp only [u16, wrapU, PBUF_LINK_HLEN, ETH_PAD_SIZE]
        omega
      simp only [mtu] at hmtu
      omega
    have hfit : totLen p ≤ frameLen := by
      simp only [SIZEOF_ETH_HDR, ETH_PAD_SIZE] at htot
      omega
    rw [hlen, if_pos hfit] at hspec
    obtain ⟨hwritten, hframe⟩ := hspec
    simp only [WithinBounds, sendTempLen, hwritten, hframe, hlen, Option.mem_some_iff,
      forall_eq', hbytes, hfit, and_self, or_true]

end Interface

/-! ### A packet of exactly the announced MTU -/

/-- An IP packet of 100 bytes (a UDP datagram of 72 zeros) behind its Ethernet header. -/
def fullSizePacket : Pbuf where
  addr := 0
  mem := [0xff, 0xff, 0xff, 0xff, 0xff, 0xff, 2, 0, 0, 0, 0, 1, 0x08, 0x00,
    0x45, 0, 0, 100, 0, 1, 0, 0, 64, 17, 249, 52, 192, 168, 0, 1, 192, 168, 0, 2,
    4, 0, 8, 0, 0, 80, 0, 0] ++ List.replicate 72 0
  payload := 0
  totLen := 114
  len := 114
  type := .ram
  flags := 0
  ref := 1
  inMem := by decide
  lenLt := by decide
  totLt := by decide
  refLt := oneRef_lt

/-- `driver.c` over an encoder with frames of 100 bytes. -/
def ethNetif : Netif EthDriver := ⟨100, ⟨fun _ => 0, 100, fun _ => 0, 100⟩⟩

theorem fullSizePacket_handedDown : (Interface.eth ethNetif).HandedDown [fullSizePacket] :=
  ⟨by simp, ⟨rfl, trivial⟩, 100, le_rfl, rfl⟩

/-- It is copied into the buffer of 100 bytes as 114 bytes. -/
theorem linkoutput_exceeds_bounds :
    ¬ ∀ (frameLen : ℕ) (i : Interface) (p : List Pbuf), 14 ≤ frameLen → frameLen ≤ 65535 →
      i.SetUp frameLen → i.HandedDown p →
      ∃ j t, i.linkoutput p = some (j, t) ∧ i.WithinBounds frameLen t := by
  intro h
  obtain ⟨j, t, ht, hwritten, -⟩ := h 100 (.eth ethNetif) [fullSizePacket] (by decide) (by decide)
    (.eth rfl) fullSizePacket_handedDown
  obtain ⟨n, t', ht', hwritten', -⟩ := quietLwipEncodeFrame_spec
    (p := [fullSizePacket]) (by simp) ⟨rfl, trivial⟩ ethNetif
  rw [Interface.linkoutput, ht'] at ht
  cases ht
  have hover : totLen [fullSizePacket] ≤ ethNetif.state.sendTempLen := hwritten' ▸ hwritten
  exact absurd hover (by decide)

theorem linkoutput_withinBounds_iff_fullSize :
    ∃ j t, (Interface.eth ethNetif).linkoutput [fullSizePacket] = some (j, t) ∧
      ((Interface.eth ethNetif).WithinBounds 100 t ↔
        (∃ netif, Interface.eth ethNetif = .portaudio netif) ∨ totLen [fullSizePacket] ≤ 100) :=
  Interface.linkoutput_withinBounds_iff (by decide) (by decide) (.eth rfl)
    fullSizePacket_handedDown

end QuietLwip.Driver
