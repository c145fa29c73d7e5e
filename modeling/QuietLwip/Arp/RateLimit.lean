import QuietLwip.Arp.Claiming

/-!
# The candidates of AutoIP and their rate

Runs of AutoIP, with the number of conflicts since `autoip_start` first ran on an interface, and the number of
calls of `autoip_tmr` since it last began to probe. The code counts the addresses that it has tried with eight
bits.
-/

namespace QuietLwip.Arp

open Buffers Ip QuietLwip.Transition

/-- `autoip_stop`, for the client of the interface -/
def autoipStop (w : World) (n : ℕ) (a : Autoip) : World :=
  netifSetDown (w.setAutoip n { a with state := .off }) n

/-! ### The client -/

/-- The packet makes AutoIP give up its candidate, or an address that it has just defended. -/
def isConflict (netif : Netif) (hdr : EtharpPacket) : Bool :=
  match netif.autoip with
  | none => false
  | some a =>
    if a.state = .off then false
    else if Autoip.isProbing a then conflicts a.llipaddr netif.hwaddr hdr
    else hdr.sipaddr = a.llipaddr ∧ netif.hwaddr ≠ hdr.shwaddr ∧ 0 < a.lastconflict

/-- What `autoip_start_probing` makes of the client -/
def Autoip.probe (hwaddr : EthAddr) (a : Autoip) : Autoip :=
  { a with state := .probing, sentNum := 0, ttw := probeWait hwaddr a.triedLlipaddr }

/-- The client that probes for its next candidate -/
def Autoip.begin (hwaddr : EthAddr) (tried : ℕ) : Autoip :=
  ⟨autoipCreateAddr hwaddr tried, .probing, 0, probeWait hwaddr tried, 0, tried⟩

/-- What a call of `autoip_tmr` makes of the client -/
def Autoip.tick (hwaddr : EthAddr) (autoip : Autoip) : Autoip :=
  let a := { autoip with lastconflict := autoip.lastconflict - 1 }
  match autoip.state with
  | .probing =>
    if 0 < a.ttw then { a with ttw := a.ttw - 1 }
    else if PROBE_NUM ≤ a.sentNum then
      { a with state := .announcing, sentNum := 0, ttw := ANNOUNCE_WAIT * AUTOIP_TICKS_PER_SECOND }
    else
      { a with
        sentNum := a.sentNum + 1
        ttw := autoipRand hwaddr a.triedLlipaddr % ((PROBE_MAX - PROBE_MIN) * AUTOIP_TICKS_PER_SECOND) +
          PROBE_MIN * AUTOIP_TICKS_PER_SECOND }
  | .announcing =>
    if 0 < a.ttw then { a with ttw := a.ttw - 1 }
    else if ANNOUNCE_NUM ≤ a.sentNum + 1 then { a with state := .bound, sentNum := 0, ttw := 0 }
    else { a with sentNum := a.sentNum + 1, ttw := ANNOUNCE_INTERVAL * AUTOIP_TICKS_PER_SECOND }
  | .off | .bound => a

/-! ### Runs -/

/-- The functions of AutoIP -/
inductive AcquireOp where
  | call (op : AutoipOp)
  | stop (n : ℕ)

namespace AcquireOp

def exec (w : World) : AcquireOp → World → Prop
  | call op, w' => autoip.step w op w'
  | stop n, w' => ∃ a, (w.netif n).autoip = some a ∧ w' = autoipStop w n a

/-- A packet that is a conflict is received on the interface. -/
def conflict (n : ℕ) (w : World) : AcquireOp → Bool
  | call (.arpInput _ m len hdr) =>
    m = n ∧ ((w.netif n).etharp ∧ SIZEOF_ETHARP_PACKET ≤ len ∧ hdr.wellFormed) ∧
      isConflict (w.netif n) hdr
  | _ => false

/-- The interface begins to probe. -/
def begins (n : ℕ) (w : World) : AcquireOp → Bool
  | call (.start alloc m) => m = n ∧ ((w.netif n).autoip.isSome ∨ alloc)
  | call (.networkChanged m) => m = n ∧ (w.netif n).autoip.any fun a => a.state ≠ .off
  | op => op.conflict n w

def isTmr : AcquireOp → Bool
  | call (.tmr _) => true
  | _ => false

end AcquireOp

/-- The interfaces, the number of conflicts on one of them, and the time since it last began to probe -/
structure Acquiring where
  world : World
  conflicts : ℕ
  ticks : ℕ

/-- The runs from the first `autoip_start` on, with a client that is cleared, or none -/
def acquiring (n : ℕ) : System Acquiring AcquireOp where
  start s := s.world.AutoipStart ∧ (∀ a, (s.world.netif n).autoip = some a → a.triedLlipaddr = 0) ∧
    s.conflicts = 0
  step s op s' := op.exec s.world s'.world ∧
    s'.conflicts = s.conflicts + (op.conflict n s.world).toNat ∧
    s'.ticks = if op.begins n s.world then 0 else s.ticks + op.isTmr.toNat

def Acquiring.client (n : ℕ) (s : Acquiring) : Option Autoip := (s.world.netif n).autoip

/-- The step sends the first probe for a candidate. -/
def FirstProbe (n : ℕ) (s s' : Acquiring) : Prop :=
  ∃ a a', s.client n = some a ∧ s'.client n = some a' ∧ a.state = .probing ∧ a.sentNum = 0 ∧
    a'.state = .probing ∧ a'.sentNum = 1

/-! ### What a function makes of the client -/

variable {w w' : World} {n : ℕ} {hwaddr : EthAddr}

theorem netifSetDown_netif (w : World) (n : ℕ) :
    (netifSetDown w n).netif n = { w.netif n with up := false } := by
  rw [netifSetDown]
  dsimp only
  split
  · split
    · rw [(etharpCleanupNetif_still _ n).netif, World.setNetif_self]
    · rw [World.setNetif_self]
  · next hup =>
    rw [Bool.not_eq_true] at hup
    rw [← hup]

theorem autoipStartProbing_netif (w : World) (n : ℕ) (a : Autoip) :
    (autoipStartProbing w n a).netif n =
      { w.netif n with autoip := some (Autoip.probe (w.netif n).hwaddr a) } := by
  rw [autoipStartProbing, World.setAutoip, World.setNetif_self]
  rfl

/-- The interface is down and has no address, and its client, if there is one, begins anew. -/
theorem autoipStart_netif (w : World) (alloc : Bool) (n : ℕ) :
    (autoipStart w alloc n).1.netif n =
      { w.netif n with
        up := false, ipAddr := 0, netmask := 0, gw := 0
        autoip := match (w.netif n).autoip with
          | none => if alloc then some (Autoip.begin (w.netif n).hwaddr 0) else none
          | some a => some (Autoip.begin (w.netif n).hwaddr a.triedLlipaddr) } := by
  rw [autoipStart]
  generalize hw₁ : (netifSetDown w n).setNetif n _ = w₁
  have hself : w₁.netif n = { w.netif n with up := false, ipAddr := 0, netmask := 0, gw := 0 } := by
    rw [← hw₁, World.setNetif_self, netifSetDown_netif]
  dsimp only
  cases ha : (w.netif n).autoip with
  | none =>
    have hauto : (w₁.netif n).autoip = none := by rw [hself, ← ha]
    simp only [hauto]
    cases alloc with
    | false =>
      rw [if_pos (by decide), if_neg (by decide), hself]
      simp only [ha]
    | true =>
      rw [if_neg (by decide), if_pos rfl, autoipStartProbing_netif, hself]
      rfl
  | some a =>
    have hauto : (w₁.netif n).autoip = some a := by rw [hself, ← ha]
    simp only [hauto]
    rw [autoipStartProbing_netif, hself]
    rfl

theorem autoipRestart_netif (w : World) (n : ℕ) (a : Autoip) :
    (autoipRestart w n a).netif n =
      { w.netif n with
        up := false, ipAddr := 0, netmask := 0, gw := 0
        autoip := some (Autoip.begin (w.netif n).hwaddr ((a.triedLlipaddr + 1) % 256)) } := by
  rw [autoipRestart, autoipStart_netif, World.setAutoip, World.setNetif_self]

theorem autoipBind_hwaddr (w : World) (tx : Tx) (n : ℕ) (c : IpAddr) :
    ((autoipBind w tx n c).netif n).hwaddr = (w.netif n).hwaddr := by
  rw [autoipBind]
  exact (netifSetUp_up _ tx n).hwaddr.trans (by rw [World.setNetif_self]; rfl)

theorem autoipArpProbe_netif (w : World) (tx : Tx) (n : ℕ) (c : IpAddr) :
    (autoipArpProbe w tx n c).netif = w.netif :=
  (etharpRaw_raw w tx n (w.netif n).hwaddr ethbroadcast (w.netif n).hwaddr IpAddr.any ethzero c
    ARP_REQUEST).netif

theorem autoipArpAnnounce_netif (w : World) (tx : Tx) (n : ℕ) (c : IpAddr) :
    (autoipArpAnnounce w tx n c).netif = w.netif :=
  (etharpRaw_raw w tx n (w.netif n).hwaddr ethbroadcast (w.netif n).hwaddr c ethzero c ARP_REQUEST).netif

theorem autoipTmrNetif_client (tx : ℕ → Tx) (w : World) (n : ℕ) :
    ((autoipTmrNetif tx w n).netif n).autoip =
      (w.netif n).autoip.map (Autoip.tick (w.netif n).hwaddr) := by
  have hset : ∀ (w₀ : World) (a : Autoip), ((w₀.setAutoip n a).netif n).autoip = some a := fun w₀ a => by
    rw [World.setAutoip, World.setNetif_self]
  rw [autoipTmrNetif]
  cases ha : (w.netif n).autoip with
  | none => exact ha
  | some a =>
    rw [Option.map_some, Autoip.tick]
    dsimp only
    cases a.state with
    | off => exact hset _ _
    | bound => exact hset _ _
    | probing =>
      dsimp only [tmrProbing]
      split
      · exact hset _ _
      · split <;> exact hset _ _
    | announcing =>
      dsimp only [tmrAnnouncing]
      split
      · exact hset _ _
      · split <;> split <;> exact hset _ _

theorem autoipTmrNetif_hwaddr (tx : ℕ → Tx) (w : World) (n : ℕ) :
    ((autoipTmrNetif tx w n).netif n).hwaddr = (w.netif n).hwaddr := by
  have hset : ∀ (w₀ : World) (a : Autoip), ((w₀.setAutoip n a).netif n).hwaddr = (w₀.netif n).hwaddr :=
    fun w₀ a => by rw [World.setAutoip, World.setNetif_self]
  rw [autoipTmrNetif]
  cases (w.netif n).autoip with
  | none => rfl
  | some a =>
    dsimp only
    cases a.state with
    | off => exact hset _ _
    | bound => exact hset _ _
    | probing =>
      dsimp only [tmrProbing]
      split
      · exact hset _ _
      · split
        · exact hset _ _
        · rw [hset, autoipArpProbe_netif]
    | announcing =>
      dsimp only [tmrAnnouncing]
      split
      · exact hset _ _
      · split <;> rw [hset] <;> split
        · exact autoipBind_hwaddr ..
        · rw [autoipArpAnnounce_netif]
        · exact autoipBind_hwaddr ..
        · rw [autoipArpAnnounce_netif]

/-- The client of an interface has its turn once in a call of `autoip_tmr`. -/
theorem autoipTmr_foldl_client (tx : ℕ → Tx) {l : List ℕ} (hnodup : l.Nodup) (w : World) (n : ℕ) :
    ((l.foldl (autoipTmrNetif tx) w).netif n).hwaddr = (w.netif n).hwaddr ∧
    ((l.foldl (autoipTmrNetif tx) w).netif n).autoip =
      if n ∈ l then (w.netif n).autoip.map (Autoip.tick (w.netif n).hwaddr) else (w.netif n).autoip := by
  induction l generalizing w with
  | nil => exact ⟨rfl, rfl⟩
  | cons m l ih =>
    obtain ⟨hm, hl⟩ := List.nodup_cons.mp hnodup
    obtain ⟨hhw, hauto⟩ := ih hl (autoipTmrNetif tx w m)
    rw [List.foldl_cons, hhw, hauto]
    by_cases hnm : n = m
    · subst hnm
      rw [if_neg hm, if_pos (List.mem_cons_self ..)]
      exact ⟨autoipTmrNetif_hwaddr tx w n, autoipTmrNetif_client tx w n⟩
    · rw [(autoipTmrNetif_acts tx w m).netif n hnm]
      exact ⟨rfl, by simp only [List.mem_cons, hnm, false_or]⟩

/-! ### One step -/

/-- What a step does to the client of the interface: whether it is a conflict, whether the client begins to
probe, and whether it is a call of `autoip_tmr`, on an interface that is listed or not -/
inductive ClientStep (hwaddr : EthAddr) (listed : Prop) :
    Bool → Bool → Bool → Option Autoip → Option Autoip → Prop
  | new : ClientStep hwaddr listed false true false none (some (Autoip.begin hwaddr 0))
  | start (a : Autoip) :
    ClientStep hwaddr listed false true false (some a) (some (Autoip.begin hwaddr a.triedLlipaddr))
  | changed (a : Autoip) (hon : a.state ≠ .off) :
    ClientStep hwaddr listed false true false (some a) (some (Autoip.probe hwaddr a))
  | conflict (a : Autoip) (hon : a.state ≠ .off) :
    ClientStep hwaddr listed true true false (some a)
      (some (Autoip.begin hwaddr ((a.triedLlipaddr + 1) % 256)))
  | tick (c : Option Autoip) (h : listed) :
    ClientStep hwaddr listed false false true c (c.map (Autoip.tick hwaddr))
  | unlisted (c : Option Autoip) (h : ¬ listed) : ClientStep hwaddr listed false false true c c
  | stop (a : Autoip) : ClientStep hwaddr listed false false false (some a) (some { a with state := .off })
  | defend (a : Autoip) (t : ℕ) :
    ClientStep hwaddr listed false false false (some a) (some { a with lastconflict := t })
  | idle (c : Option Autoip) : ClientStep hwaddr listed false false false c c

theorem autoipArpReply_client (tx : Tx) (w : World) (n : ℕ) (hdr : EtharpPacket) (listed : Prop) :
    ((autoipArpReply w tx n hdr).netif n).hwaddr = (w.netif n).hwaddr ∧
    ClientStep (w.netif n).hwaddr listed (isConflict (w.netif n) hdr) (isConflict (w.netif n) hdr) false
      (w.netif n).autoip ((autoipArpReply w tx n hdr).netif n).autoip := by
  rw [autoipArpReply, isConflict]
  cases ha : (w.netif n).autoip with
  | none =>
    dsimp only
    rw [ha]
    exact ⟨rfl, .idle _⟩
  | some a =>
    dsimp only
    by_cases hoff : a.state = .off
    · rw [if_pos hoff, if_pos hoff, ha]
      exact ⟨rfl, .idle _⟩
    rw [if_neg hoff, if_neg hoff]
    by_cases hp : Autoip.isProbing a
    · rw [if_pos hp, if_pos hp]
      by_cases hc : conflicts a.llipaddr (w.netif n).hwaddr hdr
      · rw [if_pos hc, hc, autoipRestart_netif]
        exact ⟨rfl, .conflict a hoff⟩
      · rw [if_neg hc, Bool.eq_false_iff.mpr hc, ha]
        exact ⟨rfl, .idle _⟩
    · rw [if_neg hp, if_neg hp]
      by_cases hsrc : hdr.sipaddr = a.llipaddr ∧ (w.netif n).hwaddr ≠ hdr.shwaddr
      · rw [if_pos hsrc, autoipHandleArpConflict]
        by_cases hlast : 0 < a.lastconflict
        · rw [if_pos hlast, decide_eq_true ⟨hsrc.1, hsrc.2, hlast⟩, autoipRestart_netif]
          exact ⟨rfl, .conflict a hoff⟩
        · rw [if_neg hlast, decide_eq_false fun h => hlast h.2.2, World.setAutoip, World.setNetif_self,
            autoipArpAnnounce_netif]
          exact ⟨rfl, .defend a _⟩
      · rw [if_neg hsrc, decide_eq_false fun h => hsrc ⟨h.1, h.2.1⟩, ha]
        exact ⟨rfl, .idle _⟩

namespace AcquireOp

/-- A function that acts on another interface -/
theorem idle_of_acts {m : ℕ} (listed : Prop) (h : Acts m w w') (hnm : n ≠ m) :
    (w'.netif n).hwaddr = (w.netif n).hwaddr ∧
    ClientStep (w.netif n).hwaddr listed false false false (w.netif n).autoip (w'.netif n).autoip := by
  rw [h.netif n hnm]
  exact ⟨rfl, .idle _⟩

theorem autoipStop_acts (w : World) (n : ℕ) (a : Autoip) : Acts n w (autoipStop w n a) :=
  (acts_setNetif ..).trans (netifSetDown_acts ..)

theorem exec_client {op : AcquireOp} (h : op.exec w w') (hlist : w.netifList.Nodup) (n : ℕ) :
    (w'.netif n).hwaddr = (w.netif n).hwaddr ∧
    ClientStep (w.netif n).hwaddr (n ∈ w.netifList) (op.conflict n w) (op.begins n w) op.isTmr
      (w.netif n).autoip (w'.netif n).autoip := by
  rcases op with (⟨alloc, m⟩ | m | tx | ⟨tx, m, len, hdr⟩) | m
  · cases h
    by_cases hnm : n = m
    · subst hnm
      rw [begins, autoipStart_netif]
      cases ha : (w.netif n).autoip with
      | none =>
        cases alloc with
        | false => exact ⟨rfl, by simpa [conflict, isTmr] using .idle none⟩
        | true => exact ⟨rfl, by simpa [conflict, isTmr] using .new⟩
      | some a => exact ⟨rfl, by simpa [conflict, isTmr] using .start a⟩
    · have hother := idle_of_acts (n ∈ w.netifList) (autoipStart_acts w alloc m) hnm
      simpa [begins, conflict, isTmr, Ne.symm hnm] using hother
  · cases h
    by_cases hnm : n = m
    · subst hnm
      rw [begins, autoipNetworkChanged]
      cases ha : (w.netif n).autoip with
      | none => exact ⟨rfl, by simpa [conflict, isTmr, ha] using .idle none⟩
      | some a =>
        by_cases hoff : a.state = .off
        · dsimp only
          rw [if_pos hoff, ha]
          exact ⟨rfl, by simpa [conflict, isTmr, hoff] using .idle (some a)⟩
        · dsimp only
          rw [if_neg hoff, autoipStartProbing_netif, netifSetDown_netif]
          exact ⟨rfl, by simpa [conflict, isTmr, hoff] using .changed a hoff⟩
    · have hother := idle_of_acts (n ∈ w.netifList) (autoipNetworkChanged_acts w m) hnm
      simpa [begins, conflict, isTmr, Ne.symm hnm] using hother
  · cases h
    obtain ⟨hhw, hauto⟩ := autoipTmr_foldl_client tx hlist (w.emit .tick) n
    refine ⟨hhw, ?_⟩
    change ClientStep _ _ false false true _ ((autoipTmr w tx).netif n).autoip
    rw [autoipTmr, hauto]
    split
    · next hmem => exact .tick _ hmem
    · next hmem => exact .unlisted _ hmem
  · by_cases hnm : n = m
    · subst hnm
      have hin : etharpArpInput w tx n len hdr = .ok w' := h
      rw [etharpArpInput] at hin
      change _ ∧ ClientStep _ _ (conflict n w (call (.arpInput tx n len hdr)))
        (conflict n w (call (.arpInput tx n len hdr))) false _ _
      rw [conflict]
      by_cases haccept : (w.netif n).etharp ∧ SIZEOF_ETHARP_PACKET ≤ len ∧ hdr.wellFormed
      · rw [if_pos haccept] at hin
        obtain ⟨w₁, w₂, r, flags, hw₁, hu, hw'⟩ := arpProcess_cases hin
        have hnetif : w'.netif = w₁.netif := by
          rcases hw' with rfl | ⟨-, -, rfl⟩ <;> exact (etharpUpdateArpEntry_still hu).netif
        rw [hnetif, hw₁]
        simpa [haccept] using autoipArpReply_client tx (w.emit (.arpInput n hdr)) n hdr (n ∈ w.netifList)
      · rw [if_neg haccept] at hin
        cases hin
        exact ⟨rfl, by simpa only [haccept, false_and, and_false, decide_false] using .idle _⟩
    · have hother := idle_of_acts (n ∈ w.netifList) (etharpArpInput_acts h) hnm
      simpa [begins, conflict, isTmr, Ne.symm hnm] using hother
  · obtain ⟨a, ha, rfl⟩ := h
    by_cases hnm : n = m
    · subst hnm
      rw [autoipStop, netifSetDown_netif, World.setAutoip, World.setNetif_self, ha]
      exact ⟨rfl, .stop a⟩
    · exact idle_of_acts _ (autoipStop_acts w m a) hnm

theorem exec_netifList {op : AcquireOp} (h : op.exec w w') : w'.netifList = w.netifList := by
  cases op with
  | call op => exact AutoipOp.exec_netifList h
  | stop m =>
    obtain ⟨a, -, rfl⟩ := h
    exact (autoipStop_acts w m a).netifList

end AcquireOp

/-! ### The client counts the conflicts -/

/-- The client after `conflicts` conflicts, `ticks` calls of `autoip_tmr` after it began to probe: it counts
the conflicts in eight bits, and waits before its first probe. -/
structure Rated (hwaddr : EthAddr) (listed : Prop) (conflicts ticks : ℕ) (a : Autoip) : Prop where
  tried : a.triedLlipaddr = conflicts % 256
  candidate : a.state ≠ .off → a.llipaddr = autoipCreateAddr hwaddr a.triedLlipaddr
  waiting : listed → a.state = .probing → a.sentNum = 0 →
    ticks + a.ttw = probeWait hwaddr a.triedLlipaddr

section rated

variable {listed : Prop} {conflicts ticks : ℕ} {a : Autoip}

theorem rated_begin (hwaddr : EthAddr) (listed : Prop) (conflicts : ℕ) :
    Rated hwaddr listed conflicts 0 (Autoip.begin hwaddr (conflicts % 256)) :=
  ⟨rfl, fun _ => rfl, fun _ _ _ => Nat.zero_add _⟩

theorem Rated.probe (h : Rated hwaddr listed conflicts ticks a) (hon : a.state ≠ .off) :
    Rated hwaddr listed conflicts 0 (Autoip.probe hwaddr a) :=
  ⟨h.tried, fun _ => h.candidate hon, fun _ _ _ => Nat.zero_add _⟩

theorem Rated.tick (h : Rated hwaddr listed conflicts ticks a) :
    Rated hwaddr listed conflicts (ticks + 1) (Autoip.tick hwaddr a) := by
  obtain ⟨llipaddr, state, sentNum, ttw, lastconflict, triedLlipaddr⟩ := a
  obtain ⟨htried, hcandidate, hwaiting⟩ := h
  rw [Autoip.tick]
  dsimp only at htried hcandidate hwaiting ⊢
  cases state with
  | off => exact ⟨htried, hcandidate, fun _ hstate => nomatch hstate⟩
  | bound => exact ⟨htried, hcandidate, fun _ hstate => nomatch hstate⟩
  | probing =>
    dsimp only
    split
    · refine ⟨htried, hcandidate, fun hl _ hsent => ?_⟩
      have hwait := hwaiting hl rfl hsent
      dsimp only
      omega
    · split
      · exact ⟨htried, fun _ => hcandidate (by decide), fun _ hstate => nomatch hstate⟩
      · exact ⟨htried, hcandidate, fun _ _ hsent => absurd hsent (Nat.succ_ne_zero _)⟩
  | announcing =>
    dsimp only
    split
    · exact ⟨htried, hcandidate, fun _ hstate => nomatch hstate⟩
    · split
      · exact ⟨htried, fun _ => hcandidate (by decide), fun _ hstate => nomatch hstate⟩
      · exact ⟨htried, hcandidate, fun _ hstate => nomatch hstate⟩

theorem Rated.unlisted (h : Rated hwaddr listed conflicts ticks a) (hl : ¬ listed) (ticks' : ℕ) :
    Rated hwaddr listed conflicts ticks' a :=
  ⟨h.tried, h.candidate, fun hl' => absurd hl' hl⟩

theorem Rated.stop (h : Rated hwaddr listed conflicts ticks a) :
    Rated hwaddr listed conflicts ticks { a with state := .off } :=
  ⟨h.tried, fun hon => absurd rfl hon, fun _ hstate => nomatch hstate⟩

theorem Rated.defend (h : Rated hwaddr listed conflicts ticks a) (t : ℕ) :
    Rated hwaddr listed conflicts ticks { a with lastconflict := t } :=
  ⟨h.tried, h.candidate, h.waiting⟩

/-- No conflict without a client, and the client counts the conflicts. -/
def RatedClient (hwaddr : EthAddr) (listed : Prop) (conflicts ticks : ℕ) : Option Autoip → Prop
  | none => conflicts = 0
  | some a => Rated hwaddr listed conflicts ticks a

theorem RatedClient.step {conflict begins tmr : Bool} {c c' : Option Autoip}
    (h : RatedClient hwaddr listed conflicts ticks c)
    (hs : ClientStep hwaddr listed conflict begins tmr c c') :
    RatedClient hwaddr listed (conflicts + conflict.toNat) (if begins then 0 else ticks + tmr.toNat) c' := by
  cases hs with
  | new =>
    obtain rfl : conflicts = 0 := h
    exact rated_begin hwaddr listed 0
  | start a =>
    have htried : a.triedLlipaddr = conflicts % 256 := h.tried
    rw [htried]
    exact rated_begin hwaddr listed conflicts
  | changed a hon => exact Rated.probe h hon
  | conflict a hon =>
    have htried : a.triedLlipaddr = conflicts % 256 := h.tried
    have hnext : (a.triedLlipaddr + 1) % 256 = (conflicts + 1) % 256 := by omega
    rw [hnext]
    exact rated_begin hwaddr listed (conflicts + 1)
  | tick c hl =>
    cases c with
    | none => exact h
    | some a => exact Rated.tick h
  | unlisted c hl =>
    cases c with
    | none => exact h
    | some a => exact Rated.unlisted h hl _
  | stop a => exact Rated.stop h
  | defend a t => exact Rated.defend h t
  | idle c => exact h

end rated

/-! ### The law -/

/-- The invariant of a run -/
structure Acquiring.Counted (n : ℕ) (s : Acquiring) : Prop where
  netifList : s.world.netifList.Nodup
  client : RatedClient (s.world.netif n).hwaddr (n ∈ s.world.netifList) s.conflicts s.ticks (s.client n)

variable {s s' : Acquiring} {op : AcquireOp}

theorem counted_step (h : s.Counted n) (hs : (acquiring n).step s op s') : s'.Counted n := by
  obtain ⟨hexec, hconflicts, hticks⟩ := hs
  obtain ⟨hhw, hclient⟩ := AcquireOp.exec_client hexec h.netifList n
  have hlist := AcquireOp.exec_netifList hexec
  refine ⟨by rw [hlist]; exact h.netifList, ?_⟩
  rw [hhw, hlist, hconflicts, hticks]
  exact h.client.step hclient

theorem reachable_counted (h : (acquiring n).Reachable s) : s.Counted n := by
  refine System.ReachableWhile.invariant (fun s hs => ?_) (fun s op s' hs _ hstep => counted_step hs hstep) h
  obtain ⟨hstart, hcleared, hconflicts⟩ := hs
  refine ⟨hstart.netifList, ?_⟩
  rw [hconflicts, Acquiring.client]
  cases ha : (s.world.netif n).autoip with
  | none => rfl
  | some a =>
    have hoff := hstart.off n a ha
    refine ⟨hcleared a ha, fun hon => absurd hoff hon, fun _ hprobing => ?_⟩
    rw [hoff] at hprobing
    cases hprobing

/-- A first probe is sent by `autoip_tmr`, when the time to wait is over. -/
theorem FirstProbe.waited (h : s.Counted n) (hs : (acquiring n).step s op s') (hp : FirstProbe n s s') :
    s'.ticks = probeWait (s.world.netif n).hwaddr (s.conflicts % 256) + 1 := by
  obtain ⟨hexec, -, hticks⟩ := hs
  obtain ⟨a, a', ha, ha', hstate, hsent, hstate', hsent'⟩ := hp
  obtain ⟨-, hclient⟩ := AcquireOp.exec_client hexec h.netifList n
  have hrated := h.client
  rw [Acquiring.client] at ha ha'
  rw [Acquiring.client, ha] at hrated
  rw [ha, ha'] at hclient
  have hfresh : a'.sentNum ≠ a.sentNum := by omega
  generalize hc : op.conflict n s.world = conflict at hclient
  generalize hb : op.begins n s.world = begins at hclient hticks
  generalize ht : op.isTmr = tmr at hclient hticks
  have hwait := fun hl => Rated.waiting hrated hl hstate hsent
  rw [Rated.tried hrated] at hwait
  generalize hsome : some a = c at hclient
  generalize hsome' : some a' = c' at hclient
  cases hclient with
  | new => cases hsome
  | start b =>
    cases hsome'
    exact absurd hsent' Nat.zero_ne_one
  | changed b hon =>
    cases hsome'
    exact absurd hsent' Nat.zero_ne_one
  | conflict b hon =>
    cases hsome'
    exact absurd hsent' Nat.zero_ne_one
  | tick c hl =>
    subst hsome
    rw [Option.map_some] at hsome'
    cases hsome'
    have hzero : a.ttw = 0 := by
      by_contra hpos
      rw [Autoip.tick, hstate] at hsent'
      dsimp only at hsent'
      rw [if_pos (Nat.pos_of_ne_zero hpos)] at hsent'
      exact absurd (hsent'.symm.trans hsent) Nat.one_ne_zero
    have hdone := hwait hl
    rw [hticks, if_neg (by decide), ← hdone, hzero]
    rfl
  | unlisted c hl =>
    cases hsome
    cases hsome'
    exact absurd rfl hfresh
  | stop b =>
    cases hsome
    cases hsome'
    exact absurd rfl hfresh
  | defend b t =>
    cases hsome
    cases hsome'
    exact absurd rfl hfresh
  | idle c =>
    cases hsome
    cases hsome'
    exact absurd rfl hfresh

theorem probeWait_iff (hwaddr : EthAddr) (tried : ℕ) :
    RATE_LIMIT_INTERVAL * AUTOIP_TICKS_PER_SECOND ≤ probeWait hwaddr tried + 1 ↔ MAX_CONFLICTS < tried := by
  rw [probeWait]
  by_cases h : MAX_CONFLICTS < tried
  · rw [if_pos h]
    exact iff_of_true (Nat.le_succ _) h
  · have hlt := Nat.mod_lt (autoipRand hwaddr tried) (show 0 < PROBE_WAIT * AUTOIP_TICKS_PER_SECOND by decide)
    rw [if_neg h]
    refine iff_of_false (fun hle => ?_) h
    have hten : PROBE_WAIT * AUTOIP_TICKS_PER_SECOND = 10 := rfl
    have hlimit : RATE_LIMIT_INTERVAL * AUTOIP_TICKS_PER_SECOND = 600 := rfl
    omega


/-- The address of a client that runs lies in the range; a conflict makes it try another one; and the first
probe after more than `MAX_CONFLICTS` conflicts is delayed by `RATE_LIMIT_INTERVAL` unless the count has just
started again from 0. -/
theorem candidates_and_rate (h : (acquiring n).Reachable s) :
    (∀ a, s.client n = some a → a.state ≠ .off →
      AUTOIP_RANGE_START ≤ a.llipaddr ∧ a.llipaddr ≤ AUTOIP_RANGE_END) ∧
    ∀ op s', (acquiring n).step s op s' →
      (op.conflict n s.world → ∃ a a', s.client n = some a ∧ s'.client n = some a' ∧ a'.state = .probing ∧
        a'.llipaddr ≠ a.llipaddr) ∧
      (FirstProbe n s s' →
        ((MAX_CONFLICTS < s.conflicts → RATE_LIMIT_INTERVAL * AUTOIP_TICKS_PER_SECOND ≤ s'.ticks) ↔
          ¬ (MAX_CONFLICTS < s.conflicts ∧ s.conflicts % 256 ≤ MAX_CONFLICTS))) := by
  have hcounted := reachable_counted h
  refine ⟨fun a ha hon => ?_, fun op s' hs => ⟨fun hconflict => ?_, fun hp => ?_⟩⟩
  · have hrated := hcounted.client
    rw [ha] at hrated
    rw [Rated.candidate hrated hon]
    exact autoipCreateAddr_range _ _
  · have hclient := (AcquireOp.exec_client hs.1 hcounted.netifList n).2
    have hrated := hcounted.client
    rw [Acquiring.client] at hrated ⊢
    rw [hconflict] at hclient
    generalize op.begins n s.world = begins at hclient
    generalize op.isTmr = tmr at hclient
    generalize (s.world.netif n).autoip = c at hclient hrated
    generalize hc' : s'.client n = c'
    rw [Acquiring.client] at hc'
    rw [hc'] at hclient
    cases hclient with
    | conflict a hon =>
      refine ⟨a, _, rfl, rfl, rfl, ?_⟩
      rw [Rated.candidate hrated hon]
      exact autoipCreateAddr_next _ _
  · rw [hp.waited hcounted hs, probeWait_iff]
    omega

/-! ### The count starts again -/

/-- A hardware address that does not wait before the first probe -/
def quietHwaddr : EthAddr := 0x020000000000#48

/-- An interface whose client has begun to probe after `k` conflicts -/
def begunNetif (k : ℕ) : Netif :=
  { hostNetif with
    hwaddr := quietHwaddr, ipAddr := 0, netmask := 0, gw := 0, up := false
    autoip := some (Autoip.begin quietHwaddr (k % 256)) }

def quietAcquiring : Acquiring where
  world := { emptyWorld with netif := fun _ => { begunNetif 0 with autoip := none }, netifList := [0] }
  conflicts := 0
  ticks := 0

/-- A probe of another host -/
def otherProbe (c : IpAddr) : EtharpPacket :=
  ⟨ethbroadcast, hostNetif.hwaddr, HWTYPE_ETHERNET, ETHTYPE_IP, ETHARP_HWADDR_LEN, 4, ARP_REQUEST,
    hostNetif.hwaddr, IpAddr.any, ethzero, c⟩

theorem quietAcquiring_start : (acquiring 0).start quietAcquiring :=
  ⟨⟨by decide, fun _ _ ha => (nomatch ha), rfl⟩, fun _ ha => (nomatch ha), rfl⟩

theorem begun_arpReply (hnetif : w.netif 0 = begunNetif k) (tx : Tx) :
    autoipArpReply w tx 0 (otherProbe (autoipCreateAddr quietHwaddr (k % 256))) =
      autoipRestart w 0 (Autoip.begin quietHwaddr (k % 256)) := by
  have hprobing : Autoip.isProbing (Autoip.begin quietHwaddr (k % 256)) = true := by
    simp [Autoip.isProbing, Autoip.begin]
  have hoff : (Autoip.begin quietHwaddr (k % 256)).state ≠ .off := AutoipState.noConfusion
  have hother : quietHwaddr ≠ hostNetif.hwaddr := by decide
  have hconflict : conflicts (autoipCreateAddr quietHwaddr (k % 256)) quietHwaddr
      (otherProbe (autoipCreateAddr quietHwaddr (k % 256))) = true := decide_eq_true (.inr ⟨rfl, hother⟩)
  rw [autoipArpReply, hnetif, begunNetif]
  dsimp only
  rw [if_neg hoff, if_pos hprobing]
  exact if_pos hconflict

theorem begun_isConflict (k : ℕ) :
    isConflict (begunNetif k) (otherProbe (autoipCreateAddr quietHwaddr (k % 256))) = true := by
  have hprobing : Autoip.isProbing (Autoip.begin quietHwaddr (k % 256)) = true := by
    simp [Autoip.isProbing, Autoip.begin]
  have hoff : (Autoip.begin quietHwaddr (k % 256)).state ≠ .off := AutoipState.noConfusion
  have hother : quietHwaddr ≠ hostNetif.hwaddr := by decide
  rw [isConflict, begunNetif]
  dsimp only
  rw [if_neg hoff, if_pos hprobing]
  exact decide_eq_true (.inr ⟨rfl, hother⟩)

/-- The probe of another host for the candidate -/
theorem begun_arpInput (hnetif : w.netif 0 = begunNetif k) (tx : Tx) :
    ∃ w', etharpArpInput w tx 0 SIZEOF_ETHARP_PACKET (otherProbe (autoipCreateAddr quietHwaddr (k % 256))) =
      .ok w' ∧ w'.netif 0 = begunNetif (k + 1) := by
  set hdr := otherProbe (autoipCreateAddr quietHwaddr (k % 256)) with hhdr
  have hreply := begun_arpReply (w := w.emit (.arpInput 0 hdr)) (k := k) hnetif tx
  have hnext : (autoipArpReply (w.emit (.arpInput 0 hdr)) tx 0 hdr).netif 0 = begunNetif (k + 1) := by
    rw [hreply, autoipRestart_netif, World.emit_netif, hnetif, begunNetif, begunNetif, Autoip.begin]
    dsimp only
    rw [Nat.mod_add_mod]
  have haccept : (w.netif 0).etharp ∧ SIZEOF_ETHARP_PACKET ≤ SIZEOF_ETHARP_PACKET ∧ hdr.wellFormed := by
    rw [hnetif]
    exact ⟨rfl, le_refl _, rfl⟩
  refine ⟨_, ?_, hnext⟩
  rw [etharpArpInput, if_pos haccept, arpProcess]
  generalize autoipArpReply (w.emit (.arpInput 0 hdr)) tx 0 hdr = w₁ at hnext
  have hany : isUnicast hdr.sipaddr (w₁.netif 0) = false := rfl
  have hnone : forUs (w₁.netif 0) hdr = false := by
    rw [hnext]
    rfl
  simp only [etharpUpdateArpEntry, hany, hnone, Bool.not_false, if_true]
  rfl

/-- One conflict after the other -/
theorem reachable_conflicts (k : ℕ) : ∃ s, (acquiring 0).Reachable s ∧ s.world.netif 0 = begunNetif k ∧
    s.world.netifList = [0] ∧ s.conflicts = k ∧ s.ticks = 0 := by
  induction k with
  | zero =>
    refine ⟨⟨(autoipStart quietAcquiring.world true 0).1, 0, 0⟩,
      (System.Reachable.of_start quietAcquiring_start).step (a := .call (.start true 0)) ⟨rfl, rfl, rfl⟩,
      ?_, ?_, rfl, rfl⟩
    · rw [autoipStart_netif]
      rfl
    · exact (autoipStart_acts _ _ _).netifList
  | succ k ih =>
    obtain ⟨s, hs, hnetif, hlist, hconflicts, hticks⟩ := ih
    obtain ⟨w', hin, hnetif'⟩ := begun_arpInput hnetif ⟨true, .ok⟩
    have hconflict : AcquireOp.conflict 0 s.world (.call (.arpInput ⟨true, .ok⟩ 0 SIZEOF_ETHARP_PACKET
        (otherProbe (autoipCreateAddr quietHwaddr (k % 256))))) = true := by
      rw [AcquireOp.conflict, hnetif]
      exact decide_eq_true ⟨rfl, ⟨rfl, le_refl _, rfl⟩, begun_isConflict k⟩
    refine ⟨⟨w', k + 1, 0⟩, hs.step (a := .call (.arpInput ⟨true, .ok⟩ 0 SIZEOF_ETHARP_PACKET
      (otherProbe (autoipCreateAddr quietHwaddr (k % 256))))) ⟨hin, ?_, ?_⟩, hnetif', ?_, rfl, rfl⟩
    · rw [hconflict, hconflicts]
      rfl
    · exact (if_pos hconflict).symm
    · exact ((etharpArpInput_acts hin).netifList).trans hlist

/-- After eleven conflicts the first probe is delayed. -/
theorem candidates_and_rate_eleven : ∃ s, (acquiring 0).Reachable s ∧ s.conflicts = 11 ∧
    ∀ op s', (acquiring 0).step s op s' → FirstProbe 0 s s' →
      RATE_LIMIT_INTERVAL * AUTOIP_TICKS_PER_SECOND ≤ s'.ticks := by
  obtain ⟨s, hs, -, -, hconflicts, -⟩ := reachable_conflicts 11
  refine ⟨s, hs, hconflicts, fun op s' hstep hp => ?_⟩
  have hlaw := ((candidates_and_rate hs).2 op s' hstep).2 hp
  rw [hconflicts] at hlaw
  exact hlaw.mpr (by decide) (by decide)

/-- The first call of `autoip_tmr` sends a probe. -/
theorem begun_firstProbe {s : Acquiring} (hnetif : s.world.netif 0 = begunNetif 256)
    (hlist : s.world.netifList = [0]) :
    FirstProbe 0 s ⟨autoipTmr s.world soundTx, s.conflicts, s.ticks + 1⟩ := by
  have hnodup : s.world.netifList.Nodup := by
    rw [hlist]
    decide
  have htmr := (autoipTmr_foldl_client soundTx hnodup (s.world.emit .tick) 0).2
  rw [if_pos (by rw [hlist]; decide), World.emit_netif, hnetif] at htmr
  refine ⟨Autoip.begin quietHwaddr (256 % 256), _, ?_, htmr, ?_⟩
  · rw [Acquiring.client, hnetif]
    rfl
  · decide

/-- After 256 conflicts the first probe is sent by the first call of `autoip_tmr`. -/
theorem rate_unlimited :
    (∃ s op s', (acquiring 0).Reachable s ∧ (acquiring 0).step s op s' ∧ FirstProbe 0 s s' ∧
      s.conflicts = 256 ∧ s'.ticks = 1) ∧
    ¬ ∀ n s, (acquiring n).Reachable s → ∀ op s', (acquiring n).step s op s' → FirstProbe n s s' →
      MAX_CONFLICTS < s.conflicts → RATE_LIMIT_INTERVAL * AUTOIP_TICKS_PER_SECOND ≤ s'.ticks := by
  have hrun : ∃ s op s', (acquiring 0).Reachable s ∧ (acquiring 0).step s op s' ∧ FirstProbe 0 s s' ∧
      s.conflicts = 256 ∧ s'.ticks = 1 := by
    obtain ⟨s, hs, hnetif, hlist, hconflicts, hticks⟩ := reachable_conflicts 256
    refine ⟨s, .call (.tmr soundTx), ⟨autoipTmr s.world soundTx, s.conflicts, s.ticks + 1⟩, hs,
      ⟨rfl, rfl, rfl⟩, begun_firstProbe hnetif hlist, hconflicts, ?_⟩
    rw [hticks]
  refine ⟨hrun, fun h => ?_⟩
  obtain ⟨s, op, s', hs, hstep, hprobe, hconflicts, hticks⟩ := hrun
  have hlate := h 0 s hs op s' hstep hprobe (by rw [hconflicts]; decide)
  rw [hticks] at hlate
  exact absurd hlate (by decide)

end QuietLwip.Arp
