import QuietLwip.Arp.Custody
import QuietLwip.Foundation.Fallible
import QuietLwip.Foundation.Network

/-!
# Hosts on a network

Hosts that resolve each other's addresses. Every host runs the ARP module, and what it sends may come
to any host, on any of its interfaces, late, repeatedly or never. The interfaces keep their addresses.
No host ever holds a wrong hardware address then, although nothing in a packet is checked against
anything.
-/

namespace QuietLwip.Arp

open Buffers Ip QuietLwip.Transition QuietLwip.Fallible QuietLwip.Network

/-! ### What is true of an event -/

/-- Whether an interface with this address has this hardware address. -/
abbrev Ownership : Type := IpAddr → EthAddr → Prop

/-- The event says nothing false about hardware addresses; a frame is for everyone, for a group or for
the owner of an address. -/
def Event.Truthful (owns : Ownership) : Event → Prop
  | .updated ip eth => ip.isAny = false ∧ owns ip eth
  | .sent _ _ ip eth _ => ip.isAny = false ∧ owns ip eth
  | .output _ eth _ =>
    eth = ethbroadcast ∨ (∃ group, eth = multicastAddr group) ∨ ∃ ip, ip.isAny = false ∧ owns ip eth
  | .arp _ p _ => owns p.sipaddr p.shwaddr
  | .queued .. | .freed .. | .arpInput .. | .probing .. | .tick | .bind .. => True

/-- The function leaves the interfaces alone and logs what is true. -/
structure Tells (owns : Ownership) (w w' : World) : Prop where
  netif : w'.netif = w.netif
  log : ∀ ev ∈ w'.log, ev ∈ w.log ∨ ev.Truthful owns

variable {owns : Ownership} {w w' w₁ : World}

namespace Tells

theorem refl (w : World) : Tells owns w w := ⟨rfl, fun _ h => .inl h⟩

theorem trans (h : Tells owns w w₁) (h' : Tells owns w₁ w') : Tells owns w w' where
  netif := h'.netif.trans h.netif
  log ev hev := (h'.log ev hev).elim (h.log ev) .inr

theorem emit (w : World) {ev : Event} (h : ev.Truthful owns) : Tells owns w (w.emit ev) where
  netif := rfl
  log ev' hev' := by
    obtain hev' | hev' := List.mem_append.mp hev'
    · exact .inl hev'
    · exact .inr (List.mem_singleton.mp hev' ▸ h)

/-- Nothing is logged. -/
theorem quiet (hnetif : w'.netif = w.netif) (hlog : w'.log = w.log) : Tells owns w w' :=
  ⟨hnetif, fun _ h => .inl (hlog ▸ h)⟩

theorem setEntry (w : World) (i : Index) (e : Entry) : Tells owns w (w.setEntry i e) := .quiet rfl rfl

theorem setHint (w : World) (i : Index) : Tells owns w (w.setHint i) := .quiet rfl rfl

theorem foldl {ι : Type*} {f : World → ι → World} (hf : ∀ w i, Tells owns w (f w i)) (l : List ι)
    (w : World) : Tells owns w (l.foldl f w) := by
  induction l generalizing w with
  | nil => exact .refl w
  | cons i l ih => exact (hf w i).trans (ih (f w i))

end Tells

/-! ### The table -/

theorem freeHeld_tells (w : World) (q : Option Held) : Tells owns w (w.freeHeld q) := by
  cases q with
  | none => exact .refl w
  | some h => exact .emit w trivial

theorem etharpFreeEntry_tells (w : World) (i : Index) : Tells owns w (etharpFreeEntry w i) :=
  (freeHeld_tells w _).trans (.quiet rfl rfl)

theorem tmrEntry_tells (w : World) (i : Index) : Tells owns w (tmrEntry w i) := by
  rw [tmrEntry]
  split
  · exact .refl w
  · dsimp only
    split
    · exact (Tells.setEntry w i _).trans (etharpFreeEntry_tells _ i)
    · split
      · exact .quiet rfl rfl
      · exact .quiet rfl rfl

theorem cleanupEntry_tells (n : ℕ) (w : World) (i : Index) : Tells owns w (cleanupEntry n w i) := by
  rw [cleanupEntry]
  split
  · exact etharpFreeEntry_tells w i
  · exact .refl w

theorem claim_tells {i : Index} {ip : IpAddr} {r : Option Index} (h : w.claim i ip = .ok (w', r)) :
    Tells owns w w' := by
  rw [World.claim] at h
  split at h
  · cases h
    exact .quiet rfl rfl
  · cases h

theorem etharpFindEntry_tells {ip : IpAddr} {flags : FindFlags} {r : Option Index}
    (h : etharpFindEntry w ip flags = .ok (w', r)) : Tells owns w w' := by
  rw [etharpFindEntry] at h
  split at h
  · cases h
    exact .refl w
  · split at h
    · cases h
      exact .refl w
    · split at h
      · exact claim_tells h
      · obtain ⟨found, -, h⟩ := bind_ok h
        cases found with
        | none =>
          cases h
          exact .refl w
        | some i => exact (etharpFreeEntry_tells w i).trans (claim_tells h)

/-- The entry found is for the address. -/
theorem etharpFindEntry_ipaddr (hs : w.Sound) {ip : IpAddr} {flags : FindFlags} {i : Index}
    (h : etharpFindEntry w ip flags = .ok (w', some i)) : w'.Sound ∧ (w'.table i).ipaddr = ip := by
  obtain ⟨w₁, r, hr, hm, -, hfound⟩ := etharpFindEntry_spec False hs ip flags
  rw [hr] at h
  cases h
  exact ⟨hm.sound hs, (hfound i rfl).ipaddr⟩

theorem settle_tells (w : World) (n : ℕ) (i : Index) {eth : EthAddr} (state : EtharpState)
    (hany : (w.table i).ipaddr.isAny = false) (howns : owns (w.table i).ipaddr eth) :
    Tells owns w (w.settle n i eth state) := by
  have hupdated : (Event.updated (w.table i).ipaddr eth).Truthful owns := ⟨hany, howns⟩
  have hstored : Tells owns w ((w.setEntry i { w.table i with
      q := none, state := state, netif := some n, ethaddr := eth, ctime := 0 }).emit
        (.updated (w.table i).ipaddr eth)) :=
    (Tells.setEntry w i _).trans (.emit _ hupdated)
  rw [World.settle]
  split
  · exact hstored
  · next h _ =>
    have hsent : (Event.sent h.ticket n (w.table i).ipaddr eth h.packet).Truthful owns :=
      ⟨hany, howns⟩
    have hfreed : (Event.freed h.ticket).Truthful owns := trivial
    exact (hstored.trans (.emit _ hsent)).trans (.emit _ hfreed)

theorem isAny_of_isUnicast {ip : IpAddr} {netif : Netif} (h : isUnicast ip netif = true) :
    ip.isAny = false := by
  rw [isUnicast] at h
  cases hany : ip.isAny with
  | false => rfl
  | true =>
    rw [hany] at h
    cases h

theorem etharpUpdateArpEntry_tells (hs : w.Sound) {n : ℕ} {ip : IpAddr} {eth : EthAddr}
    {flags : FindFlags} {err : Err} (howns : owns ip eth)
    (h : etharpUpdateArpEntry w n ip eth flags = .ok (w', err)) : Tells owns w w' := by
  rw [etharpUpdateArpEntry] at h
  split at h
  · cases h
    exact .refl w
  · next huni =>
    obtain ⟨⟨w₁, r⟩, hr, h⟩ := bind_ok h
    cases r with
    | none =>
      cases h
      exact etharpFindEntry_tells hr
    | some i =>
      cases h
      have hip := (etharpFindEntry_ipaddr hs hr).2
      have hany := isAny_of_isUnicast (by simpa using huni)
      refine (etharpFindEntry_tells hr).trans (settle_tells w₁ n i _ ?_ ?_)
      · rwa [hip]
      · rwa [hip]

/-! ### Sending -/

/-- The interfaces own their addresses, AutoIP does not change them, and what was logged is true. -/
structure World.Honest (owns : Ownership) (w : World) : Prop where
  sound : w.Sound
  own : ∀ n, owns (w.netif n).ipAddr (w.netif n).hwaddr
  noAutoip : ∀ n, (w.netif n).autoip = none
  log : ∀ ev ∈ w.log, ev.Truthful owns

theorem World.Honest.tells (h : w.Honest owns) (ht : Tells owns w w') (hs : w'.Sound) :
    w'.Honest owns where
  sound := hs
  own n := by
    rw [ht.netif]
    exact h.own n
  noAutoip n := by
    rw [ht.netif]
    exact h.noAutoip n
  log ev hev := (ht.log ev hev).elim (h.log ev) id

theorem lastUpdate_mem {log : List Event} {ip : IpAddr} {eth : EthAddr}
    (h : lastUpdate log ip = some eth) : .updated ip eth ∈ log := by
  obtain ⟨ev, hev, hstores⟩ := List.mem_filterMap.mp (List.mem_of_getLast? h)
  cases ev with
  | updated a eth' =>
    rw [Event.stores] at hstores
    split at hstores
    · next hip =>
      cases hstores
      exact hip ▸ hev
    · cases hstores
  | _ => cases hstores

/-- A resolved entry is right. -/
theorem World.Honest.entry (h : w.Honest owns) {i : Index} (hstable : (w.table i).state.isStable) :
    (w.table i).ipaddr.isAny = false ∧ owns (w.table i).ipaddr (w.table i).ethaddr :=
  h.log _ (lastUpdate_mem ((h.sound.entry i).learnt hstable))

theorem etharpRequest_tells (hown : ∀ n, owns (w.netif n).ipAddr (w.netif n).hwaddr) (tx : Tx)
    (n : ℕ) (ip : IpAddr) : Tells owns w (etharpRequest w tx n ip).1 := by
  rw [etharpRequest, etharpRaw]
  split
  · exact .refl w
  · exact .emit w (hown n)

theorem markPending_tells (w : World) (n : ℕ) (i : Index) : Tells owns w (w.markPending n i) := by
  rw [World.markPending]
  split
  · exact .quiet rfl rfl
  · exact .refl w

theorem queryRequest_tells (hown : ∀ n, owns (w.netif n).ipAddr (w.netif n).hwaddr) (env : QueryEnv)
    (n : ℕ) (i : Index) (ip : IpAddr) (noPacket : Bool) :
    Tells owns w (queryRequest w env n i ip noPacket).1 := by
  rw [queryRequest]
  split
  · exact etharpRequest_tells hown _ _ _
  · exact .refl w

theorem hold_tells (w : World) (n : ℕ) (i : Index) (q : List Pbuf) (packet : Packet) :
    Tells owns w (w.hold n i q packet) := by
  refine (freeHeld_tells w (w.table i).q).trans ?_
  refine ⟨rfl, fun ev hev => ?_⟩
  obtain hev | hev := List.mem_append.mp hev
  · exact .inl hev
  · exact .inr (List.mem_singleton.mp hev ▸ trivial)

/-- A packet is sent to an entry that is resolved, and kept by another. -/
theorem queryPacket_tells {env : QueryEnv} {n : ℕ} {i : Index} {q : List Pbuf} {err : Err}
    (hentry : (w.table i).state.isStable →
      ∃ ip : IpAddr, ip.isAny = false ∧ owns ip (w.table i).ethaddr)
    (h : queryPacket w env n i q = .ok (w', err)) : Tells owns w w' := by
  rw [queryPacket] at h
  split at h
  · next hstable =>
    cases h
    have hout : (Event.output n (w.table i).ethaddr q).Truthful owns := Or.inr (.inr (hentry hstable))
    exact (Tells.setHint w i).trans (.emit _ hout)
  · split at h
    · cases h
    · cases h
      exact .refl w
    · cases h
      exact hold_tells ..

theorem markPending_stable {n : ℕ} {i : Index} (h : ((w.markPending n i).table i).state.isStable) :
    (w.table i).state.isStable ∧ w.markPending n i = w := by
  rw [World.markPending] at h ⊢
  split
  · next hempty =>
    rw [if_pos hempty, World.setEntry_self] at h
    cases h
  · next hempty =>
    rw [if_neg hempty] at h
    exact ⟨h, rfl⟩

theorem etharpQuery_tells (hw : w.Honest owns) {env : QueryEnv} {n : ℕ} {ip : IpAddr}
    {q : Option (List Pbuf)} {err : Err} (h : etharpQuery w env n ip q = .ok (w', err)) :
    Tells owns w w' := by
  rw [etharpQuery] at h
  split at h
  · cases h
    exact .refl w
  · obtain ⟨⟨w₁, r⟩, hr, h⟩ := bind_ok h
    have hfind : Tells owns w w₁ := etharpFindEntry_tells hr
    cases r with
    | none =>
      cases h
      exact hfind
    | some i =>
      have hw₁ := hw.tells hfind (etharpFindEntry_ipaddr hw.sound hr).1
      have hmark : Tells owns w₁ (w₁.markPending n i) := markPending_tells w₁ n i
      have hown : ∀ m, owns ((w₁.markPending n i).netif m).ipAddr
          ((w₁.markPending n i).netif m).hwaddr := by
        intro m
        rw [hmark.netif]
        exact hw₁.own m
      have hasked := (hfind.trans hmark).trans (queryRequest_tells hown env n i ip q.isNone)
      change queryEntry w₁ env n i ip q = _ at h
      unfold queryEntry at h
      cases q with
      | none =>
        have hw' := congrArg Prod.fst (Except.ok.inj h)
        rwa [hw'] at hasked
      | some q =>
        refine hasked.trans (queryPacket_tells (fun hstable => ?_) h)
        rw [queryRequest_table] at hstable ⊢
        obtain ⟨hstable, hsame⟩ := markPending_stable hstable
        rw [hsame]
        exact ⟨_, hw₁.entry hstable⟩

theorem rerequest_tells (hown : ∀ n, owns (w.netif n).ipAddr (w.netif n).hwaddr) (tx : Tx) (n : ℕ)
    (i : Index) : Tells owns w (rerequest w tx n i) := by
  rw [rerequest]
  have hasked : Tells owns w (etharpRequest w tx n (w.table i).ipaddr).1 :=
    etharpRequest_tells hown _ _ _
  dsimp only
  split
  · split
    · exact hasked.trans (.quiet rfl rfl)
    · exact hasked
  · exact .refl w

theorem etharpOutputToArpIndex_tells (hw : w.Honest owns) {env : QueryEnv} {n : ℕ} {q : List Pbuf}
    {i : Index} {err : Err} (h : etharpOutputToArpIndex w env n q i = .ok (w', err)) :
    Tells owns w w' := by
  rw [etharpOutputToArpIndex] at h
  split at h
  · cases h
  · next hstable =>
    cases h
    have hout : (Event.output n (w.table i).ethaddr q).Truthful owns :=
      Or.inr (.inr ⟨_, hw.entry (by simpa using hstable)⟩)
    exact (rerequest_tells hw.own _ _ _).trans (.emit _ hout)

theorem etharpOutput_tells (hw : w.Honest owns) {env : QueryEnv} {outside : ℕ → UInt8} {n : ℕ}
    {q : List Pbuf} {ip : IpAddr} {err : Err}
    (h : etharpOutput w env outside n q ip = .ok (w', err)) : Tells owns w w' := by
  have hhint : ∀ i, (w.setHint i).Honest owns := fun i =>
    hw.tells (.quiet rfl rfl) (hw.sound.congr rfl fun _ => rfl)
  rw [etharpOutput] at h
  split at h
  · cases h
  · cases h
  · next p ps _ =>
    split at h
    · cases h
      have hout : (Event.output n ethbroadcast (p :: ps)).Truthful owns := Or.inl rfl
      exact .emit w hout
    · split at h
      · cases h
        have hout : (Event.output n (multicastAddr ip) (p :: ps)).Truthful owns :=
          Or.inr (.inl ⟨ip, rfl⟩)
        exact .emit w hout
      · split at h
        · cases h
          exact .refl w
        · split at h
          · next i _ =>
            exact (Tells.setHint w i).trans (etharpOutputToArpIndex_tells (hhint i) h)
          · exact etharpQuery_tells hw h
  · cases h
    exact .refl w

/-! ### Receiving -/

theorem autoipArpReply_none {tx : Tx} {n : ℕ} {hdr : EtharpPacket}
    (h : (w.netif n).autoip = none) : autoipArpReply w tx n hdr = w := by
  simp [autoipArpReply, h]

theorem arpProcess_tells (hw : w.Honest owns) {tx : Tx} {n : ℕ} {hdr : EtharpPacket}
    (hhdr : owns hdr.sipaddr hdr.shwaddr) (h : arpProcess w tx n hdr = .ok w') :
    Tells owns w w' := by
  have hin : Tells owns w (w.emit (.arpInput n hdr)) := .emit w trivial
  have hsound : (w.emit (.arpInput n hdr)).Sound :=
    hw.sound.congr rfl fun ip => lastUpdate_of_stores_none rfl
  rw [arpProcess] at h
  dsimp only at h
  rw [autoipArpReply_none (w := w.emit (.arpInput n hdr)) (hw.noAutoip n)] at h
  obtain ⟨⟨w₁, err⟩, hr, h⟩ := bind_ok h
  have hlearnt := hin.trans (etharpUpdateArpEntry_tells hsound hhdr hr)
  dsimp only at h
  split at h
  · cases h
    refine hlearnt.trans (.emit w₁ ?_)
    change owns (w₁.netif n).ipAddr (w₁.netif n).hwaddr
    rw [hlearnt.netif]
    exact hw.own n
  · cases h
    exact hlearnt

theorem autoipTmr_tells (hw : w.Honest owns) (tx : ℕ → Tx) : Tells owns w (autoipTmr w tx) := by
  have hskip : ∀ (w : World) (n : ℕ), (w.netif n).autoip = none → autoipTmrNetif tx w n = w := by
    intro w n hn
    simp [autoipTmrNetif, hn]
  have hloop : ∀ (l : List ℕ) (w : World), (∀ n, (w.netif n).autoip = none) →
      l.foldl (autoipTmrNetif tx) w = w := by
    intro l
    induction l with
    | nil => exact fun _ _ => rfl
    | cons n l ih =>
      intro w hn
      rw [List.foldl_cons, hskip w n (hn n)]
      exact ih w hn
  have htick : (w.emit .tick).Honest owns :=
    hw.tells (.emit w trivial) (hw.sound.congr rfl fun _ => lastUpdate_of_stores_none rfl)
  rw [autoipTmr, hloop _ _ htick.noAutoip]
  exact .emit w trivial

/-! ### The hosts together -/

/-- The packet that an operation takes. -/
def Op.packet : Op → Option EtharpPacket
  | .arpInput _ _ _ hdr => some hdr
  | _ => none

/-- The interfaces keep their addresses, and what is entered by hand is right. -/
def Op.Settled (owns : Ownership) : Op → Prop
  | .addStatic _ ip eth => owns ip eth
  | .autoipStart .. | .autoipNetworkChanged .. | .configure .. => False
  | _ => True

/-- The ARP packets in a log, also those that the interface failed to send. -/
def arpPackets (log : List Event) : List EtharpPacket :=
  log.filterMap fun
    | .arp _ p _ => some p
    | _ => none

theorem mem_arpPackets {log : List Event} {p : EtharpPacket} (h : p ∈ arpPackets log) :
    ∃ n ok, .arp n p ok ∈ log := by
  obtain ⟨ev, hev, hp⟩ := List.mem_filterMap.mp h
  cases ev with
  | arp n p' ok =>
    cases hp
    exact ⟨n, ok, hev⟩
  | _ => cases hp

theorem Op.exec_tells (hw : w.Honest owns) {op : Op} (hop : op.Settled owns)
    (htaken : ∀ p ∈ op.packet, owns p.sipaddr p.shwaddr) (h : op.exec w = .ok w') :
    Tells owns w w' := by
  cases op with
  | arpInput tx n len hdr =>
    change etharpArpInput w tx n len hdr = .ok w' at h
    rw [etharpArpInput] at h
    split at h
    · exact arpProcess_tells hw (htaken hdr rfl) h
    · cases h
      exact .refl w
  | query env n ip q =>
    obtain ⟨⟨w₁, err⟩, hr, rfl⟩ := map_ok h
    exact etharpQuery_tells hw hr
  | output env outside n q ip =>
    obtain ⟨⟨w₁, err⟩, hr, rfl⟩ := map_ok h
    exact etharpOutput_tells hw hr
  | etharpTmr =>
    obtain rfl : Arp.etharpTmr w = w' := Except.ok.inj h
    rw [Arp.etharpTmr]
    exact Tells.foldl tmrEntry_tells _ w
  | addStatic route ip eth =>
    obtain ⟨⟨w₁, err⟩, hr, rfl⟩ := map_ok h
    cases route with
    | none =>
      cases hr
      exact .refl w
    | some n => exact etharpUpdateArpEntry_tells hw.sound hop hr
  | removeStatic ip =>
    obtain ⟨⟨w₁, err⟩, hr, rfl⟩ := map_ok h
    obtain ⟨⟨w₂, r⟩, hfind, hr⟩ := bind_ok hr
    have hfound : Tells owns w w₂ := etharpFindEntry_tells hfind
    cases r with
    | none =>
      cases hr
      exact hfound
    | some i =>
      dsimp only at hr
      split at hr
      · cases hr
        exact hfound
      · cases hr
        exact hfound.trans (etharpFreeEntry_tells w₂ i)
  | cleanup n =>
    obtain rfl : etharpCleanupNetif w n = w' := Except.ok.inj h
    rw [etharpCleanupNetif]
    exact Tells.foldl (cleanupEntry_tells n) _ w
  | autoipTmr tx =>
    obtain rfl : Arp.autoipTmr w tx = w' := Except.ok.inj h
    exact autoipTmr_tells hw tx
  | autoipStart alloc n => exact hop.elim
  | autoipNetworkChanged n => exact hop.elim
  | configure n netif netifs => exact hop.elim

theorem Op.exec_honest (hw : w.Honest owns) {op : Op} (hop : op.Settled owns)
    (htaken : ∀ p ∈ op.packet, owns p.sipaddr p.shwaddr) (h : op.exec w = .ok w') :
    w'.Honest owns := by
  refine hw.tells (op.exec_tells hw hop htaken h) ?_
  have hruns : Runs False op.OnePacket w (op.exec w) := Op.exec_runs hw.sound fun ho => ho.elim
  rw [h] at hruns
  cases hruns with
  | ok hm => exact hm.sound hw.sound

variable {ι : Type*} {cfg : ι → ℕ → Netif} {net : Net ι World EtharpPacket}

/-- Some interface of the hosts has the two addresses. -/
def Configured (cfg : ι → ℕ → Netif) : Ownership := fun ip eth =>
  ∃ j m, (cfg j m).ipAddr = ip ∧ (cfg j m).hwaddr = eth

/-- The hosts `i` with the interfaces `cfg i`; an operation that takes a packet takes it from the
network. -/
def lan (cfg : ι → ℕ → Netif) : Protocol ι World EtharpPacket Op where
  start i w := w.Start ∧ w.netif = cfg i
  step _ w p op w' out :=
    p = op.packet ∧ op.exec w = .ok w' ∧ out = arpPackets (w'.log.drop w.log.length)

/-- The address belongs to an interface, and the hardware address to all interfaces that have it. -/
def IsOwner (cfg : ι → ℕ → Netif) (ip : IpAddr) (eth : EthAddr) : Prop :=
  (∃ j m, (cfg j m).ipAddr = ip) ∧ ∀ j m, (cfg j m).ipAddr = ip → (cfg j m).hwaddr = eth

theorem Configured.isOwner {ip : IpAddr} {eth : EthAddr}
    (hunique : ∀ i n j m, (cfg i n).ipAddr.isAny = false → (cfg i n).ipAddr = (cfg j m).ipAddr →
      (cfg i n).hwaddr = (cfg j m).hwaddr)
    (hany : ip.isAny = false) (h : Configured cfg ip eth) : IsOwner cfg ip eth := by
  obtain ⟨i, n, rfl, rfl⟩ := h
  exact ⟨⟨i, n, rfl⟩, fun j m hip => (hunique i n j m hany hip.symm).symm⟩

/-- Two hosts, 10.0.0.1 and 10.0.0.2. -/
def pairCfg (second : Bool) (_ : ℕ) : Netif :=
  if second then { hostNetif with ipAddr := 0x0a000002#32, hwaddr := 0x020000000002#48 } else hostNetif

def pairHost (second : Bool) : World := { emptyWorld with netif := pairCfg second }

/-- The first host asks for the second one. -/
def pairQuery : Op := .query allOk 0 0x0a000002#32 none

def pairAsked : World := after (pairHost false) pairQuery

def pairRequest : EtharpPacket where
  ethDest := ethbroadcast
  ethSrc := 0x020000000001#48
  hwtype := HWTYPE_ETHERNET
  proto := ETHTYPE_IP
  hwlen := ETHARP_HWADDR_LEN
  protolen := 4
  opcode := ARP_REQUEST
  shwaddr := 0x020000000001#48
  sipaddr := 0x0a000001#32
  dhwaddr := ethzero
  dipaddr := 0x0a000002#32

def receives (p : EtharpPacket) : Op := .arpInput ⟨true, .ok⟩ 0 42 p

def pairAnswered : World := after (pairHost true) (receives pairRequest)

def pairReply : EtharpPacket := arpReply (pairCfg true 0) pairRequest

theorem exec_after {op : Op} (h : (op.exec w).isOk) : op.exec w = .ok (after w op) := after_step h

theorem etharpFindEntry_present (hs : w.Sound) {i : Index} (hi : (w.table i).state ≠ .empty)
    (flags : FindFlags) : etharpFindEntry w (w.table i).ipaddr flags = .ok (w, some i) := by
  rw [etharpFindEntry]
  split
  · next j hj =>
    obtain ⟨hstate, hip⟩ := search_inl hj
    obtain rfl : j = i := by
      by_contra hne
      exact hs.alone i hi j hne hstate hip
    rfl
  · next c hc => exact absurd rfl (search_inr hc i (List.mem_finRange i) hi)

/-- A packet from the owner of the address settles the entry. -/
theorem etharpUpdateArpEntry_present (hs : w.Sound) {i : Index} (hi : (w.table i).state ≠ .empty) {n : ℕ}
    (huni : isUnicast (w.table i).ipaddr (w.netif n) = true) (eth : EthAddr) {flags : FindFlags}
    (hflags : flags.staticEntry = false) :
    etharpUpdateArpEntry w n (w.table i).ipaddr eth flags = .ok (w.settle n i eth .stable, .ok) := by
  rw [etharpUpdateArpEntry, if_neg (by simpa using huni), etharpFindEntry_present hs hi flags]
  simp [bind, Except.bind, hflags]

theorem settle_sends {i : Index} {h : Held} (hq : (w.table i).q = some h) (n : ℕ) (eth : EthAddr)
    (state : EtharpState) :
    .sent h.ticket n (w.table i).ipaddr eth h.packet ∈ (w.settle n i eth state).log := by
  rw [World.settle, hq]
  simp

/-- The interface takes part in ARP, with an address that AutoIP has no hand in. -/
structure Configures (netif : Netif) (ip : IpAddr) : Prop where
  ipAddr : netif.ipAddr = ip
  etharp : netif.etharp = true
  noAutoip : netif.autoip = none

theorem request_reply (hs : w.Sound) {m len : ℕ} {p : EtharpPacket} (hlen : SIZEOF_ETHARP_PACKET ≤ len)
    (hconf : Configures (w.netif m) p.dipaddr) (hany : p.dipaddr.isAny = false)
    (hop : p.opcode = ARP_REQUEST) (hwell : p.wellFormed = true) (tx : Tx) :
    ∃ w' ok, etharpArpInput w tx m len p = .ok w' ∧ .arp m (arpReply (w.netif m) p) ok ∈ w'.log := by
  have hforUs : forUs (w.netif m) p = true := by simp [forUs, hconf.ipAddr, hany]
  have hsound : (w.emit (.arpInput m p)).Sound :=
    hs.congr rfl fun ip => lastUpdate_of_stores_none rfl
  obtain ⟨w₁, err, hr, -, hnetif⟩ : ∃ w₁ err, etharpUpdateArpEntry (w.emit (.arpInput m p)) m p.sipaddr
      p.shwaddr ETHARP_FLAG_TRY_HARD = .ok (w₁, err) ∧ Moves False (w.emit (.arpInput m p)) w₁ ∧
      w₁.netif = w.netif :=
    etharpUpdateArpEntry_spec False hsound _ _ False.elim
  refine ⟨w₁.emit (.arp m (arpReply (w.netif m) p) (tx.linkoutput = .ok)),
    decide (tx.linkoutput = .ok), ?_, ?_⟩
  · rw [etharpArpInput, if_pos ⟨hconf.etharp, hlen, hwell⟩, arpProcess]
    dsimp only
    rw [autoipArpReply_none (w := w.emit (.arpInput m p)) hconf.noAutoip]
    simp only [World.emit_netif, hforUs, if_true]
    rw [hr]
    change (if p.opcode = ARP_REQUEST ∧ True then
      Except.ok (w₁.emit (.arp m (arpReply (w₁.netif m) p) _)) else Except.ok w₁) = _
    rw [if_pos ⟨hop, trivial⟩, hnetif]
  · exact List.mem_append_right _ (List.mem_singleton.mpr rfl)

/-- In whatever states the two hosts are: when the request of one host for the address of an interface
of the other one comes there, it is answered, and when the answer comes back, the entry that waits for
it is resolved and the packet that it kept is sent, to the interface with the address. -/
theorem request_answered {a₀ a b : World} (ha : arp.Reachable a) (hb : arp.Reachable b) {n m len len' : ℕ}
    {ip : IpAddr} {tx₀ : Tx} (tx tx' : Tx) {p : EtharpPacket} {ok : Bool} {err : Err}
    (hsent : etharpRequest a₀ tx₀ n ip = (a₀.emit (.arp n p ok), err))
    (hconf : Configures (b.netif m) ip) (hlen : SIZEOF_ETHARP_PACKET ≤ len)
    (hlen' : SIZEOF_ETHARP_PACKET ≤ len') (hetharp : (a.netif n).etharp = true)
    (hautoip : (a.netif n).autoip = none) (huni : isUnicast ip (a.netif n) = true) {i : Index}
    (hi : (a.table i).state ≠ .empty) (hip : (a.table i).ipaddr = ip) :
    ∃ b' reply ok' a', etharpArpInput b tx m len p = .ok b' ∧ .arp m reply ok' ∈ b'.log ∧
      etharpArpInput a tx' n len' reply = .ok a' ∧ (a'.table i).state = .stable ∧
      (a'.table i).ipaddr = ip ∧ (a'.table i).ethaddr = (b.netif m).hwaddr ∧
      ∀ h, (a.table i).q = some h →
        (a'.table i).q = none ∧ .sent h.ticket n ip (b.netif m).hwaddr h.packet ∈ a'.log := by
  subst hip
  -- the request is the one that `etharp_raw` makes
  have hp : p.dipaddr = (a.table i).ipaddr ∧ p.opcode = ARP_REQUEST ∧ p.wellFormed = true := by
    rw [etharpRequest, etharpRaw] at hsent
    split at hsent
    · have hlog := congrArg (fun r => r.1.log.length) hsent
      simp at hlog
    · have hlog := congrArg (fun r => r.1.log) hsent
      simp only [World.emit_log, List.append_cancel_left_eq, List.cons.injEq, Event.arp.injEq] at hlog
      obtain ⟨⟨-, rfl, -⟩, -⟩ := hlog
      exact ⟨rfl, rfl, rfl⟩
  obtain ⟨hdip, hop, hwell⟩ := hp
  rw [← hdip] at hconf
  obtain ⟨b', ok', hb', hreply⟩ := request_reply (reachable_sound hb) hlen hconf
    (hdip ▸ isAny_of_isUnicast huni) hop hwell tx
  have hsip : (arpReply (b.netif m) p).sipaddr = (a.table i).ipaddr := hconf.ipAddr.trans hdip
  have hsound : (a.emit (.arpInput n (arpReply (b.netif m) p))).Sound :=
    (reachable_sound ha).congr rfl fun ip => lastUpdate_of_stores_none rfl
  refine ⟨b', _, ok', (a.emit (.arpInput n (arpReply (b.netif m) p))).settle n i (b.netif m).hwaddr .stable,
    hb', hreply, ?_, ?_, ?_, ?_, fun h hq => ⟨?_, ?_⟩⟩
  · have hwell' : (arpReply (b.netif m) p).wellFormed = true := hwell
    rw [etharpArpInput, if_pos ⟨hetharp, hlen', hwell'⟩, arpProcess]
    dsimp only
    rw [autoipArpReply_none (w := a.emit _) hautoip, hsip]
    generalize hflags : (if forUs ((a.emit (.arpInput n (arpReply (b.netif m) p))).netif n)
      (arpReply (b.netif m) p) = true then ETHARP_FLAG_TRY_HARD else ETHARP_FLAG_FIND_ONLY) = flags
    have hstatic : flags.staticEntry = false := by
      rw [← hflags]
      split <;> rfl
    have hupdate := etharpUpdateArpEntry_present hsound (i := i) hi (n := n) huni (b.netif m).hwaddr hstatic
    have hop' : ¬(arpReply (b.netif m) p).opcode = ARP_REQUEST := by
      change ¬ARP_REPLY = ARP_REQUEST
      decide
    refine Eq.trans (congrArg (· >>= _) hupdate) ?_
    simp [bind, Except.bind, hop']
  · rw [settle_self]
  · rw [settle_self]
    rfl
  · rw [settle_self]
  · rw [settle_self]
  · exact settle_sends (w := a.emit _) hq n _ _

theorem twoBytes_length : ([1, 2] : List UInt8).length < 2 ^ 16 := by decide

/-- The first host waits for the second one, with a packet. -/
def pairWaiting : World :=
  after (pairHost false) (.query allOk 0 0x0a000002#32 (some [romPbuf [1, 2] twoBytes_length]))

theorem request_answered_pair :
    ∃ (a' : World) (i : Index), (a'.table i).state = .stable ∧
      (a'.table i).ethaddr = 0x020000000002#48 ∧
      ∃ p, .sent 0 0 0x0a000002#32 0x020000000002#48 p ∈ a'.log := by
  have hstart : ∀ second, (pairHost second).Start := fun _ => ⟨fun _ => ⟨rfl, rfl⟩, rfl, rfl⟩
  have ha : arp.Reachable pairWaiting := (System.Reachable.of_start (hstart false)).step (after_step rfl)
  have hb : arp.Reachable (pairHost true) := .of_start (hstart true)
  have hsent : etharpRequest (pairHost false) ⟨true, .ok⟩ 0 0x0a000002#32 =
      ((pairHost false).emit (.arp 0 pairRequest true), .ok) := rfl
  have hconf : Configures ((pairHost true).netif 0) 0x0a000002#32 := ⟨rfl, rfl, rfl⟩
  let i : Index := ⟨0, by decide⟩
  have hi : (pairWaiting.table i).state ≠ .empty := by decide
  obtain ⟨b', reply, ok', a', -, -, -, hstate, -, heth, hkept⟩ := request_answered ha hb ⟨true, .ok⟩
    ⟨true, .ok⟩ hsent hconf (le_refl 42) (le_refl 42) rfl rfl rfl hi rfl
  exact ⟨a', i, hstate, heth, _, (hkept ⟨.byRef (pbufRef [romPbuf [1, 2] twoBytes_length]), 0, 0⟩ rfl).2⟩

end QuietLwip.Arp
