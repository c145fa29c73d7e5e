import QuietLwip.Arp.Watch
import QuietLwip.Foundation.Fallible
import QuietLwip.Arp.Entries

/-!
# AutoIP claims an address after probing it

The runs of AutoIP and of received ARP packets. A probe counts as sent whatever the transmission
returns, and an interface that probes its old address again after a change of the network still has
it: the conditions exclude a failed probe, and a request for the candidate from the interface's own
hardware address.
-/

namespace QuietLwip.Arp

open Buffers Ip QuietLwip.Transition

/-! ### What a function does to the other interfaces -/

/-- The function changes the interface `n`, and logs nothing of concern to another one. -/
structure Acts (n : ℕ) (w w' : World) : Prop where
  netifList : w'.netifList = w.netifList
  netif : ∀ m, m ≠ n → w'.netif m = w.netif m
  log : ∃ evs, w'.log = w.log ++ evs ∧ ∀ ev ∈ evs, ∀ m, m ≠ n → ev.concerns m = false

/-- The function leaves the interfaces alone, and logs nothing of concern to one. -/
structure Still (w w' : World) : Prop where
  netifList : w'.netifList = w.netifList
  netif : w'.netif = w.netif
  log : ∃ evs, w'.log = w.log ++ evs ∧ ∀ ev ∈ evs, ∀ m, ev.concerns m = false

variable {w w' w₁ : World} {n : ℕ}

theorem Acts.refl (n : ℕ) (w : World) : Acts n w w :=
  ⟨rfl, fun _ _ => rfl, [], (List.append_nil _).symm, fun _ h => absurd h List.not_mem_nil⟩

theorem Acts.trans (h : Acts n w w₁) (h' : Acts n w₁ w') : Acts n w w' where
  netifList := h'.netifList.trans h.netifList
  netif m hm := (h'.netif m hm).trans (h.netif m hm)
  log := by
    obtain ⟨evs, hlog, hevs⟩ := h.log
    obtain ⟨evs', hlog', hevs'⟩ := h'.log
    refine ⟨evs ++ evs', by rw [hlog', hlog, List.append_assoc], fun ev hev => ?_⟩
    obtain hev | hev := List.mem_append.mp hev
    · exact hevs ev hev
    · exact hevs' ev hev

theorem Still.refl (w : World) : Still w w :=
  ⟨rfl, rfl, [], (List.append_nil _).symm, fun _ h => absurd h List.not_mem_nil⟩

theorem Still.trans (h : Still w w₁) (h' : Still w₁ w') : Still w w' where
  netifList := h'.netifList.trans h.netifList
  netif := h'.netif.trans h.netif
  log := by
    obtain ⟨evs, hlog, hevs⟩ := h.log
    obtain ⟨evs', hlog', hevs'⟩ := h'.log
    refine ⟨evs ++ evs', by rw [hlog', hlog, List.append_assoc], fun ev hev => ?_⟩
    obtain hev | hev := List.mem_append.mp hev
    · exact hevs ev hev
    · exact hevs' ev hev

theorem Still.acts (h : Still w w') (n : ℕ) : Acts n w w' where
  netifList := h.netifList
  netif m _ := congrFun h.netif m
  log := by
    obtain ⟨evs, hlog, hevs⟩ := h.log
    exact ⟨evs, hlog, fun ev hev m _ => hevs ev hev m⟩

theorem still_emit (w : World) {ev : Event} (h : ∀ m, ev.concerns m = false) : Still w (w.emit ev) :=
  ⟨rfl, rfl, [ev], rfl, fun _ hev => List.mem_singleton.mp hev ▸ h⟩

theorem acts_emit (w : World) {ev : Event} (h : ∀ m, m ≠ n → ev.concerns m = false) :
    Acts n w (w.emit ev) :=
  ⟨rfl, fun _ _ => rfl, [ev], rfl, fun _ hev => List.mem_singleton.mp hev ▸ h⟩

theorem acts_setNetif (w : World) (n : ℕ) (netif : Netif) : Acts n w (w.setNetif n netif) :=
  ⟨rfl, fun _ hm => w.setNetif_of_ne netif hm, [], (List.append_nil _).symm,
    fun _ h => absurd h List.not_mem_nil⟩

/-! ### The table is no concern of AutoIP -/

theorem still_setEntry (w : World) (i : Index) (e : Entry) : Still w (w.setEntry i e) :=
  ⟨rfl, rfl, [], (List.append_nil _).symm, fun _ h => absurd h List.not_mem_nil⟩

theorem etharpFreeEntry_still (w : World) (i : Index) : Still w (etharpFreeEntry w i) := by
  refine Still.trans ?_ (still_setEntry _ i _)
  cases (w.table i).q with
  | none => exact .refl w
  | some h => exact still_emit w fun _ => rfl

theorem etharpCleanupNetif_still (w : World) (n : ℕ) : Still w (etharpCleanupNetif w n) := by
  rw [etharpCleanupNetif]
  induction List.finRange ARP_TABLE_SIZE generalizing w with
  | nil => exact .refl w
  | cons i l ih =>
    refine Still.trans ?_ (ih _)
    rw [cleanupEntry]
    split
    · exact etharpFreeEntry_still w i
    · exact .refl w

theorem claim_still {i : Index} {ip : IpAddr} {r : Option Index} (h : w.claim i ip = .ok (w', r)) :
    Still w w' := by
  rw [World.claim] at h
  split at h
  · cases h
    exact still_setEntry ..
  · cases h

theorem etharpFindEntry_still {ip : IpAddr} {flags : FindFlags} {r : Option Index}
    (h : etharpFindEntry w ip flags = .ok (w', r)) : Still w w' := by
  rw [etharpFindEntry] at h
  split at h
  · cases h
    exact .refl _
  · split at h
    · cases h
      exact .refl _
    · split at h
      · exact claim_still h
      · next c _ _ _ _ =>
        cases hr : recycle w c with
        | error e =>
          rw [hr] at h
          cases h
        | ok r' =>
          rw [hr] at h
          cases r' with
          | none =>
            cases h
            exact .refl _
          | some i => exact (etharpFreeEntry_still w i).trans (claim_still h)

theorem settle_still (w : World) (n : ℕ) (i : Index) (eth : EthAddr) (state : EtharpState) :
    Still w (w.settle n i eth state) := by
  have hstore : Still w ((w.setEntry i { w.table i with
      q := none, state := state, netif := some n, ethaddr := eth, ctime := 0 }).emit
        (.updated (w.table i).ipaddr eth)) := (still_setEntry ..).trans (still_emit _ fun _ => rfl)
  rw [World.settle]
  split
  · exact hstore
  · exact (hstore.trans (still_emit _ fun _ => rfl)).trans (still_emit _ fun _ => rfl)

theorem etharpUpdateArpEntry_still {ip : IpAddr} {eth : EthAddr} {flags : FindFlags} {r : Err}
    (h : etharpUpdateArpEntry w n ip eth flags = .ok (w', r)) : Still w w' := by
  rw [etharpUpdateArpEntry] at h
  split at h
  · cases h
    exact .refl _
  · cases hf : etharpFindEntry w ip flags with
    | error e =>
      rw [hf] at h
      cases h
    | ok r =>
      obtain ⟨w₁, _ | i⟩ := r
      · rw [hf] at h
        cases h
        exact etharpFindEntry_still hf
      · rw [hf] at h
        cases h
        exact (etharpFindEntry_still hf).trans (settle_still ..)

/-! ### AutoIP acts on its interface only -/

theorem acts_emit_own (w : World) {ev : Event} (h : ∀ m, ev.concerns m = decide (n = m)) :
    Acts n w (w.emit ev) :=
  acts_emit w fun m hm => (h m).trans (decide_eq_false hm.symm)

theorem netifSetDown_acts (w : World) (n : ℕ) : Acts n w (netifSetDown w n) := by
  rw [netifSetDown]
  simp only
  split
  · split
    · exact (acts_setNetif ..).trans ((etharpCleanupNetif_still _ n).acts n)
    · exact acts_setNetif ..
  · exact .refl n w

theorem etharpRaw_acts (w : World) (tx : Tx) (n : ℕ) (ethsrc ethdst hwsrc : EthAddr)
    (ipsrc : IpAddr) (hwdst : EthAddr) (ipdst : IpAddr) (opcode : ℕ) :
    Acts n w (etharpRaw w tx n ethsrc ethdst hwsrc ipsrc hwdst ipdst opcode).1 := by
  rw [etharpRaw]
  split
  · exact .refl n w
  · exact acts_emit_own w fun _ => rfl

theorem netifSetUp_acts (w : World) (tx : Tx) (n : ℕ) : Acts n w (netifSetUp w tx n) := by
  rw [netifSetUp]
  simp only
  split
  · exact .refl n w
  · split
    · exact (acts_setNetif ..).trans (etharpRaw_acts ..)
    · exact acts_setNetif ..

theorem autoipStartProbing_acts (w : World) (n : ℕ) (a : Autoip) :
    Acts n w (autoipStartProbing w n a) :=
  (acts_emit_own w fun _ => rfl).trans (acts_setNetif ..)

theorem autoipStart_acts (w : World) (alloc : Bool) (n : ℕ) :
    Acts n w (autoipStart w alloc n).1 := by
  have hdown := (netifSetDown_acts w n).trans (acts_setNetif (netifSetDown w n) n
    { (netifSetDown w n).netif n with ipAddr := 0, netmask := 0, gw := 0 })
  rw [autoipStart]
  simp only
  split
  · split
    · exact hdown
    · exact hdown.trans (autoipStartProbing_acts ..)
  · exact hdown.trans (autoipStartProbing_acts ..)

theorem autoipNetworkChanged_acts (w : World) (n : ℕ) : Acts n w (autoipNetworkChanged w n) := by
  rw [autoipNetworkChanged]
  split
  · exact .refl n w
  · split
    · exact .refl n w
    · exact (netifSetDown_acts w n).trans (autoipStartProbing_acts ..)

theorem autoipRestart_acts (w : World) (n : ℕ) (a : Autoip) : Acts n w (autoipRestart w n a) :=
  (acts_setNetif ..).trans (autoipStart_acts ..)

theorem autoipArpReply_acts (w : World) (tx : Tx) (n : ℕ) (hdr : EtharpPacket) :
    Acts n w (autoipArpReply w tx n hdr) := by
  rw [autoipArpReply]
  split
  · exact .refl n w
  · split
    · exact .refl n w
    · split
      · split
        · exact autoipRestart_acts ..
        · exact .refl n w
      · split
        · rw [autoipHandleArpConflict]
          split
          · exact autoipRestart_acts ..
          · exact (etharpRaw_acts ..).trans (acts_setNetif ..)
        · exact .refl n w

theorem autoipBind_acts (w : World) (tx : Tx) (n : ℕ) (c : IpAddr) :
    Acts n w (autoipBind w tx n c) :=
  ((acts_emit_own w fun _ => rfl).trans (acts_setNetif ..)).trans
    (netifSetUp_acts ..)

theorem tmrProbing_acts (w : World) (tx : Tx) (n : ℕ) (a : Autoip) :
    Acts n w (tmrProbing w tx n a) := by
  rw [tmrProbing]
  split
  · exact acts_setNetif ..
  · split
    · exact acts_setNetif ..
    · exact (etharpRaw_acts ..).trans (acts_setNetif ..)

theorem tmrAnnouncing_acts (w : World) (tx : Tx) (n : ℕ) (a : Autoip) :
    Acts n w (tmrAnnouncing w tx n a) := by
  have hsent : Acts n w (if a.sentNum = 0 then autoipBind w tx n a.llipaddr
      else autoipArpAnnounce w tx n a.llipaddr) := by
    split
    · exact autoipBind_acts ..
    · exact etharpRaw_acts ..
  rw [tmrAnnouncing]
  split
  · exact acts_setNetif ..
  · simp only
    split
    · exact hsent.trans (acts_setNetif ..)
    · exact hsent.trans (acts_setNetif ..)

theorem autoipTmrNetif_acts (tx : ℕ → Tx) (w : World) (n : ℕ) :
    Acts n w (autoipTmrNetif tx w n) := by
  rw [autoipTmrNetif]
  split
  · exact .refl n w
  · simp only
    split
    · exact tmrProbing_acts ..
    · exact tmrAnnouncing_acts ..
    · exact acts_setNetif ..
    · exact acts_setNetif ..

/-! ### The invariant -/

/-- How far the client has come with its candidate. With `slack`, that many ticks have been counted
that the client has not waited yet. -/
structure Progress (n : ℕ) (hwaddr : EthAddr) (slack : ℕ) (a : Autoip) (mid : List Event) :
    Prop where
  noConflict : ∀ hdr, .arpInput n hdr ∈ mid → ¬ conflicts a.llipaddr hwaddr hdr
  sent : a.state = .probing → a.sentNum ≤ probesSent n a.llipaddr mid
  announcing : a.state = .announcing → PROBE_NUM ≤ probesSent n a.llipaddr mid ∧
    ANNOUNCE_WAIT * AUTOIP_TICKS_PER_SECOND + slack ≤ waited n a.llipaddr mid + a.ttw

structure Watched (n : ℕ) (hwaddr : EthAddr) (slack : ℕ) (netif : Netif) (log : List Event) :
    Prop where
  own : netif.hwaddr = hwaddr
  history : History n hwaddr log
  addr : ∀ a, netif.autoip = some a → a.state ≠ .off →
    (netif.ipAddr = 0 ∨ netif.ipAddr = a.llipaddr) ∧ a.llipaddr ≠ 0
  idle : (∀ a, netif.autoip = some a → ¬ Autoip.isProbing a) → window n log = none
  probing : ∀ a, netif.autoip = some a → Autoip.isProbing a →
    ∃ mid, window n log = some (a.llipaddr, mid) ∧ Progress n hwaddr slack a mid

section watched

variable {hwaddr : EthAddr} {slack : ℕ} {netif netif' : Netif} {log evs : List Event} {ev : Event}
  {a a' : Autoip} {mid : List Event}

theorem Progress.push (h : Progress n hwaddr slack a mid) (hev : ev.concerns n = false) :
    Progress n hwaddr (slack + if ev = .tick then 1 else 0) a (mid ++ [ev]) where
  noConflict hdr hmem := by
    obtain hmem | hmem := List.mem_append.mp hmem
    · exact h.noConflict hdr hmem
    · rw [← List.mem_singleton.mp hmem] at hev
      simp [Event.concerns] at hev
  sent hs := by
    rw [probesSent_push hev]
    exact h.sent hs
  announcing hs := by
    obtain ⟨hprobes, hwait⟩ := h.announcing hs
    rw [probesSent_push hev, waited_push (isProbe_of_concerns hev)]
    exact ⟨hprobes, by omega⟩

theorem Progress.weaken {slack' : ℕ} (h : Progress n hwaddr slack a mid) (hle : slack' ≤ slack) :
    Progress n hwaddr slack' a mid where
  noConflict := h.noConflict
  sent := h.sent
  announcing hs := (h.announcing hs).imp_right fun hw => by omega

theorem Watched.weaken {slack' : ℕ} (h : Watched n hwaddr slack netif log)
    (hle : slack' ≤ slack) : Watched n hwaddr slack' netif log where
  own := h.own
  history := h.history
  addr := h.addr
  idle := h.idle
  probing a ha hp := by
    obtain ⟨mid, hw, hprog⟩ := h.probing a ha hp
    exact ⟨mid, hw, hprog.weaken hle⟩

/-- Probing or not is all that the window depends on. -/
theorem Watched.push (h : Watched n hwaddr slack netif log) (hev : ev.concerns n = false) :
    Watched n hwaddr (slack + if ev = .tick then 1 else 0) netif (log ++ [ev]) where
  own := h.own
  history := h.history.other hev
  addr := h.addr
  idle hidle := by
    rw [window_push hev, h.idle hidle]
    rfl
  probing a ha hp := by
    obtain ⟨mid, hw, hprog⟩ := h.probing a ha hp
    refine ⟨mid ++ [ev], ?_, hprog.push hev⟩
    rw [window_push hev, hw]
    rfl

theorem Watched.append (h : Watched n hwaddr slack netif log)
    (hevs : ∀ ev ∈ evs, ev.concerns n = false) : Watched n hwaddr slack netif (log ++ evs) := by
  induction evs generalizing log with
  | nil => rwa [List.append_nil]
  | cons ev evs ih =>
    have hpush := (h.push (hevs ev (List.mem_cons_self ..))).weaken (Nat.le_add_right slack _)
    have hrest := ih hpush fun e he => hevs e (List.mem_cons_of_mem _ he)
    rwa [List.append_assoc] at hrest

theorem Watched.congr (h : Watched n hwaddr slack netif log)
    (hhw : netif'.hwaddr = netif.hwaddr) (hip : netif'.ipAddr = netif.ipAddr)
    (ha : netif'.autoip = netif.autoip) : Watched n hwaddr slack netif' log where
  own := hhw.trans h.own
  history := h.history
  addr := by
    rw [ha, hip]
    exact h.addr
  idle := by
    rw [ha]
    exact h.idle
  probing := by
    rw [ha]
    exact h.probing

/-- What is done to another interface. -/
theorem Watched.acts {m : ℕ} (h : Watched n hwaddr slack (w.netif n) w.log) (hacts : Acts m w w')
    (hm : n ≠ m) : Watched n hwaddr slack (w'.netif n) w'.log := by
  obtain ⟨evs, hlog, hevs⟩ := hacts.log
  rw [hlog, hacts.netif n hm]
  exact h.append fun ev hev => hevs ev hev n hm

theorem Watched.still (h : Watched n hwaddr slack (w.netif n) w.log) (hs : Still w w') :
    Watched n hwaddr slack (w'.netif n) w'.log := by
  obtain ⟨evs, hlog, hevs⟩ := hs.log
  rw [hlog, hs.netif]
  exact h.append fun ev hev => hevs ev hev n

/-- Probing starts, or starts anew. -/
theorem Watched.start (hhw : netif.hwaddr = hwaddr) (hh : History n hwaddr log)
    (hip : netif.ipAddr = 0 ∨ netif.ipAddr = a.llipaddr) (hc : a.llipaddr ≠ 0)
    (hstate : a'.state = .probing) (hsent : a'.sentNum = 0) (hll : a'.llipaddr = a.llipaddr) :
    Watched n hwaddr slack { netif with autoip := some a' } (log ++ [.probing n a.llipaddr]) := by
  have hwindow : window n (log ++ [.probing n a.llipaddr]) = some (a.llipaddr, []) := by
    rw [window_snoc]
    exact if_pos rfl
  refine ⟨hhw, hh.probing _, ?_, ?_, ?_⟩
  · intro b hb _
    cases hb
    rw [hll]
    exact ⟨hip, hc⟩
  · intro hidle
    exfalso
    apply hidle a' rfl
    simp [Autoip.isProbing, hstate]
  · intro b hb _
    cases hb
    refine ⟨[], by rw [hwindow, hll], ⟨?_, ?_, ?_⟩⟩
    · exact fun hdr hmem => absurd hmem List.not_mem_nil
    · intro _
      rw [hsent]
      exact Nat.zero_le _
    · intro hann
      rw [hstate] at hann
      cases hann

end watched

/-! ### AutoIP on its own interface -/

theorem autoipNet_or (x : IpAddr) :
    (AUTOIP_NET ||| (x &&& 0xffff#32)).toNat = 0xa9fe0000 + x.toNat % 65536 := by
  have hmod : x.toNat &&& (0xffff#32).toNat = x.toNat % 65536 :=
    Nat.and_two_pow_sub_one_eq_mod x.toNat 16
  have hlt : x.toNat % 65536 < 2 ^ 16 := Nat.mod_lt _ (by norm_num)
  rw [BitVec.toNat_or, BitVec.toNat_and, hmod]
  exact (Nat.two_pow_add_eq_or_of_lt hlt 0xa9fe).symm

/-- The lower half of an address, moved into the range -/
def intoRange (low : ℕ) : ℕ :=
  if low < 0x100 then low + 0xfe00 else if 0xfeff < low then low - 0xfe00 else low

theorem autoipCreateAddr_toNat (hwaddr : EthAddr) (tried : ℕ) :
    (autoipCreateAddr hwaddr tried).toNat =
      0xa9fe0000 + intoRange (((autoipSeedAddr hwaddr).toNat + tried) % 65536) := by
  have hnet := autoipNet_or (autoipSeedAddr hwaddr + BitVec.ofNat 32 tried)
  have hlow : (autoipSeedAddr hwaddr + BitVec.ofNat 32 tried).toNat % 65536 =
      ((autoipSeedAddr hwaddr).toNat + tried) % 65536 := by
    rw [BitVec.toNat_add, BitVec.toNat_ofNat]
    omega
  have hlt := Nat.mod_lt ((autoipSeedAddr hwaddr).toNat + tried) (show 0 < 65536 by decide)
  have hstart : AUTOIP_RANGE_START.toNat = 0xa9fe0100 := rfl
  have hend : AUTOIP_RANGE_END.toNat = 0xa9fefeff := rfl
  have hsize : autoipRangeSize.toNat = 0xfe00 := rfl
  rw [hlow] at hnet
  rw [autoipCreateAddr, intoRange]
  generalize AUTOIP_NET ||| _ = addr at hnet ⊢
  generalize ((autoipSeedAddr hwaddr).toNat + tried) % 65536 = low at hnet hlt ⊢
  simp only [BitVec.lt_def, hstart, hend]
  by_cases hbelow : low < 0x100
  · have hlow' : addr.toNat < 0xa9fe0100 := by omega
    have hsum : (addr + autoipRangeSize).toNat = addr.toNat + 0xfe00 := by
      rw [BitVec.toNat_add, hsize]
      omega
    have hin : ¬ 0xa9fefeff < (addr + autoipRangeSize).toNat := by omega
    rw [if_pos hlow', if_neg hin, if_pos hbelow, hsum, hnet, Nat.add_assoc]
  · have hlow' : ¬ addr.toNat < 0xa9fe0100 := by omega
    rw [if_neg hlow', if_neg hbelow]
    by_cases habove : 0xfeff < low
    · have hhigh : 0xa9fefeff < addr.toNat := by omega
      have hdiff : (addr - autoipRangeSize).toNat = addr.toNat - 0xfe00 := by
        rw [BitVec.toNat_sub, hsize]
        omega
      rw [if_pos hhigh, if_pos habove, hdiff]
      omega
    · have hin : ¬ 0xa9fefeff < addr.toNat := by omega
      rw [if_neg hin, if_neg habove]
      exact hnet

theorem intoRange_mem {low : ℕ} (h : low < 65536) : 0x100 ≤ intoRange low ∧ intoRange low ≤ 0xfeff := by
  rw [intoRange]
  split
  · omega
  · split <;> omega

/-- Two numbers that are moved to one differ by the size of the range. -/
theorem intoRange_inj {low low' : ℕ} (h : intoRange low = intoRange low') : low % 0xfe00 = low' % 0xfe00 := by
  have hmod : ∀ low, intoRange low % 0xfe00 = low % 0xfe00 := fun low => by
    rw [intoRange]
    split
    · omega
    · split <;> omega
  rw [← hmod low, h, hmod]

/-- The addresses that AutoIP chooses lie in its range, as its assertion says. -/
theorem autoipCreateAddr_range (hwaddr : EthAddr) (tried : ℕ) :
    AUTOIP_RANGE_START ≤ autoipCreateAddr hwaddr tried ∧
      autoipCreateAddr hwaddr tried ≤ AUTOIP_RANGE_END := by
  have hstart : AUTOIP_RANGE_START.toNat = 0xa9fe0100 := rfl
  have hend : AUTOIP_RANGE_END.toNat = 0xa9fefeff := rfl
  have hmem := intoRange_mem
    (Nat.mod_lt ((autoipSeedAddr hwaddr).toNat + tried) (show 0 < 65536 by decide))
  rw [BitVec.le_def, BitVec.le_def, autoipCreateAddr_toNat, hstart, hend]
  omega

/-- The next address to be tried is another one, also where the number of addresses that were tried starts
again from 0. -/
theorem autoipCreateAddr_next (hwaddr : EthAddr) (tried : ℕ) :
    autoipCreateAddr hwaddr ((tried + 1) % 256) ≠ autoipCreateAddr hwaddr tried := by
  intro heq
  have hnat := congrArg BitVec.toNat heq
  rw [autoipCreateAddr_toNat, autoipCreateAddr_toNat] at hnat
  generalize (autoipSeedAddr hwaddr).toNat = seed at hnat
  have hmod := intoRange_inj (Nat.add_left_cancel hnat)
  omega

theorem autoipCreateAddr_ne_zero (hwaddr : EthAddr) (tried : ℕ) :
    autoipCreateAddr hwaddr tried ≠ 0 := by
  intro h
  have hrange := (autoipCreateAddr_range hwaddr tried).1
  rw [h] at hrange
  exact absurd hrange (by decide)

variable {hwaddr : EthAddr} {slack : ℕ}

/-- Bringing the interface down keeps its addresses and its client. -/
structure Down (n : ℕ) (w w' : World) : Prop where
  hwaddr : (w'.netif n).hwaddr = (w.netif n).hwaddr
  ipAddr : (w'.netif n).ipAddr = (w.netif n).ipAddr
  autoip : (w'.netif n).autoip = (w.netif n).autoip
  log : ∃ evs, w'.log = w.log ++ evs ∧ ∀ ev ∈ evs, ev.concerns n = false

theorem netifSetDown_down (w : World) (n : ℕ) : Down n w (netifSetDown w n) := by
  have hflag : Down n w (w.setNetif n { w.netif n with up := false }) := by
    refine ⟨?_, ?_, ?_, [], (List.append_nil _).symm, fun _ h => absurd h List.not_mem_nil⟩
    · rw [World.setNetif_self]
    · rw [World.setNetif_self]
    · rw [World.setNetif_self]
  rw [netifSetDown]
  simp only
  split
  · split
    · obtain ⟨-, hnetif, evs, hlog, hevs⟩ :=
        etharpCleanupNetif_still (w.setNetif n { w.netif n with up := false }) n
      refine ⟨?_, ?_, ?_, evs, hlog, fun ev hev => hevs ev hev n⟩
      · rw [hnetif]
        exact hflag.hwaddr
      · rw [hnetif]
        exact hflag.ipAddr
      · rw [hnetif]
        exact hflag.autoip
    · exact hflag
  · exact ⟨rfl, rfl, rfl, [], (List.append_nil _).symm, fun _ h => absurd h List.not_mem_nil⟩

theorem History.append {log evs : List Event} (h : History n hwaddr log)
    (hevs : ∀ ev ∈ evs, ev.concerns n = false) : History n hwaddr (log ++ evs) := by
  induction evs generalizing log with
  | nil => rwa [List.append_nil]
  | cons ev evs ih =>
    have hrest := ih (h.other (hevs ev (List.mem_cons_self ..)))
      fun e he => hevs e (List.mem_cons_of_mem _ he)
    rwa [List.append_assoc] at hrest

/-- The interface without its addresses, as `autoip_start` leaves it in front of probing. -/
theorem cleared_log (w : World) (n : ℕ) (hh : History n hwaddr w.log) :
    History n hwaddr ((netifSetDown w n).setNetif n
      { (netifSetDown w n).netif n with ipAddr := 0, netmask := 0, gw := 0 }).log := by
  obtain ⟨evs, hlog, hevs⟩ := (netifSetDown_down w n).log
  rw [World.setNetif_log, hlog]
  exact hh.append hevs

/-- `autoip_start_probing` on an interface that has no address, or the candidate. -/
theorem autoipStartProbing_watched (slack : ℕ) {a : Autoip} (hhw : (w.netif n).hwaddr = hwaddr)
    (hh : History n hwaddr w.log)
    (hip : (w.netif n).ipAddr = 0 ∨ (w.netif n).ipAddr = a.llipaddr) (hc : a.llipaddr ≠ 0) :
    Watched n hwaddr slack ((autoipStartProbing w n a).netif n) (autoipStartProbing w n a).log ∧
      ((autoipStartProbing w n a).netif n).ipAddr = (w.netif n).ipAddr := by
  have hself : (autoipStartProbing w n a).netif n = { w.netif n with autoip := some { a with
      state := .probing, sentNum := 0, ttw := probeWait (w.netif n).hwaddr a.triedLlipaddr } } :=
    World.setNetif_self ..
  rw [hself]
  exact ⟨.start hhw hh hip hc rfl rfl rfl, rfl⟩

/-- `autoip_start` on an interface with a client, whatever went on before. -/
theorem autoipStart_client (alloc : Bool) {a : Autoip} (ha : (w.netif n).autoip = some a)
    (hhw : (w.netif n).hwaddr = hwaddr) (hh : History n hwaddr w.log) :
    Watched n hwaddr 0 ((autoipStart w alloc n).1.netif n) (autoipStart w alloc n).1.log ∧
      ((autoipStart w alloc n).1.netif n).ipAddr = 0 := by
  have hdown := netifSetDown_down w n
  have hlog := cleared_log w n hh
  rw [autoipStart]
  generalize hw₁ : (netifSetDown w n).setNetif n _ = w₁ at hlog ⊢
  have hself : w₁.netif n = { (netifSetDown w n).netif n with ipAddr := 0, netmask := 0, gw := 0 } := by
    rw [← hw₁, World.setNetif_self]
  have hip : (w₁.netif n).ipAddr = 0 := by rw [hself]
  have hauto : (w₁.netif n).autoip = some a := by
    rw [hself]
    exact hdown.autoip.trans ha
  have hhw' : (w₁.netif n).hwaddr = hwaddr := by
    rw [hself]
    exact hdown.hwaddr.trans hhw
  simp only [hauto]
  obtain ⟨hwatched, hsame⟩ := autoipStartProbing_watched 0
    (a := { a with
      state := .off, ttw := 0, sentNum := 0, lastconflict := 0
      llipaddr := autoipCreateAddr (w₁.netif n).hwaddr a.triedLlipaddr })
    hhw' hlog (.inl hip) (autoipCreateAddr_ne_zero _ _)
  exact ⟨hwatched, hsame.trans hip⟩

theorem autoipStart_watched (alloc : Bool) (h : Watched n hwaddr 0 (w.netif n) w.log) :
    Watched n hwaddr 0 ((autoipStart w alloc n).1.netif n) (autoipStart w alloc n).1.log := by
  cases ha : (w.netif n).autoip with
  | some a => exact (autoipStart_client alloc ha h.own h.history).1
  | none =>
    have hdown := netifSetDown_down w n
    have hlog := cleared_log w n h.history
    have hclosed := h.idle fun a ha' => by rw [ha] at ha'; cases ha'
    rw [autoipStart]
    generalize hw₁ : (netifSetDown w n).setNetif n _ = w₁ at hlog ⊢
    have hself : w₁.netif n =
        { (netifSetDown w n).netif n with ipAddr := 0, netmask := 0, gw := 0 } := by
      rw [← hw₁, World.setNetif_self]
    have hauto : (w₁.netif n).autoip = none := by
      rw [hself]
      exact hdown.autoip.trans ha
    have hhw' : (w₁.netif n).hwaddr = hwaddr := by
      rw [hself]
      exact hdown.hwaddr.trans h.own
    simp only [hauto]
    split
    · refine ⟨hhw', hlog, ?_, ?_, ?_⟩
      · intro a ha'
        rw [hauto] at ha'
        cases ha'
      · intro _
        obtain ⟨evs, hevlog, hevs⟩ := hdown.log
        have hsame : Watched n hwaddr 0 (w.netif n) (w.log ++ evs) := h.append hevs
        rw [← hw₁, World.setNetif_log, hevlog]
        exact hsame.idle fun a ha' => by rw [ha] at ha'; cases ha'
      · intro a ha'
        rw [hauto] at ha'
        cases ha'
    · have hip : (w₁.netif n).ipAddr = 0 := by rw [hself]
      exact (autoipStartProbing_watched 0 hhw' hlog (.inl hip) (autoipCreateAddr_ne_zero _ _)).1

theorem autoipNetworkChanged_watched (h : Watched n hwaddr 0 (w.netif n) w.log) :
    Watched n hwaddr 0 ((autoipNetworkChanged w n).netif n) (autoipNetworkChanged w n).log := by
  rw [autoipNetworkChanged]
  split
  · exact h
  · next a ha =>
    split
    · exact h
    · next hoff =>
      have hdown := netifSetDown_down w n
      obtain ⟨hip, hc⟩ := h.addr a ha hoff
      obtain ⟨evs, hlog, hevs⟩ := hdown.log
      apply (autoipStartProbing_watched 0 (hdown.hwaddr.trans h.own) ?_ ?_ hc).1
      · rw [hlog]
        exact h.history.append hevs
      · rw [hdown.ipAddr]
        exact hip

/-! ### Received packets -/

theorem autoipRestart_watched {a : Autoip} (hhw : (w.netif n).hwaddr = hwaddr)
    (hh : History n hwaddr w.log) :
    Watched n hwaddr 0 ((autoipRestart w n a).netif n) (autoipRestart w n a).log ∧
      ((autoipRestart w n a).netif n).ipAddr = 0 := by
  apply autoipStart_client true
    (a := { a with triedLlipaddr := (a.triedLlipaddr + 1) % 256 })
  · rw [World.setAutoip, World.setNetif_self]
  · rw [World.setAutoip, World.setNetif_self]
    exact hhw
  · exact hh

section idle

variable {netif netif' : Netif} {log : List Event} {ev : Event}

/-- An event that goes into a closed window. -/
theorem Watched.idle_push (h : Watched n hwaddr slack netif log)
    (hidle : ∀ a, netif.autoip = some a → ¬ Autoip.isProbing a)
    (hpush : ∀ acc, watch n acc ev = pushEvent ev acc) (hbind : ∀ c, ev ≠ .bind n c) :
    Watched n hwaddr slack netif (log ++ [ev]) := by
  have hclosed := h.idle hidle
  have hwindow : window n (log ++ [ev]) = pushEvent ev (window n log) := by
    rw [window_snoc, hpush]
  refine ⟨h.own, h.history.push hwindow hbind ?_, h.addr, ?_, fun a ha hp => ?_⟩
  · intro c mid hw
    rw [hclosed] at hw
    cases hw
  · intro _
    rw [hwindow, hclosed]
    rfl
  · exact absurd hp (hidle a ha)

/-- A client that does not probe is rewritten, with its candidate kept. -/
theorem Watched.idle_set {a : Autoip} (a' : Autoip) (h : Watched n hwaddr slack netif log)
    (ha : netif.autoip = some a) (hp : ¬ Autoip.isProbing a) (hp' : ¬ Autoip.isProbing a')
    (hstate : a'.state ≠ .off → a.state ≠ .off) (hll : a'.llipaddr = a.llipaddr) :
    Watched n hwaddr slack { netif with autoip := some a' } log := by
  refine ⟨h.own, h.history, ?_, fun _ => ?_, ?_⟩
  · intro b hb hoff
    cases hb
    rw [hll]
    exact h.addr a ha (hstate hoff)
  · apply h.idle
    intro b hb
    cases Option.some.inj (ha.symm.trans hb)
    exact hp
  · intro b hb hpb
    cases hb
    exact absurd hpb hp'

end idle

/-- What `etharp_raw` does: nothing without memory, or one ARP packet. -/
inductive Raw (w : World) (tx : Tx) (n : ℕ) (ipsrc ipdst : IpAddr) (opcode : ℕ) : World → Prop
  | failed (h : tx.alloc = false) : Raw w tx n ipsrc ipdst opcode w
  | sent (p : EtharpPacket) (hsrc : p.sipaddr = ipsrc) (hdst : p.dipaddr = ipdst)
    (hop : p.opcode = opcode) :
    Raw w tx n ipsrc ipdst opcode (w.emit (.arp n p (tx.linkoutput = .ok)))

theorem etharpRaw_raw (w : World) (tx : Tx) (n : ℕ) (ethsrc ethdst hwsrc : EthAddr)
    (ipsrc : IpAddr) (hwdst : EthAddr) (ipdst : IpAddr) (opcode : ℕ) :
    Raw w tx n ipsrc ipdst opcode
      (etharpRaw w tx n ethsrc ethdst hwsrc ipsrc hwdst ipdst opcode).1 := by
  rw [etharpRaw]
  split
  · next h => exact .failed (by simpa using h)
  · exact .sent _ rfl rfl rfl

theorem Raw.netif {tx : Tx} {ipsrc ipdst : IpAddr} {opcode : ℕ}
    (h : Raw w tx n ipsrc ipdst opcode w') : w'.netif = w.netif := by
  cases h <;> rfl

/-- An ARP packet of an interface that does not probe. -/
theorem Raw.idle_watched {tx : Tx} {ipsrc ipdst : IpAddr} {opcode : ℕ} {netif : Netif}
    (h : Raw w tx n ipsrc ipdst opcode w') (hw : Watched n hwaddr slack netif w.log)
    (hidle : ∀ a, netif.autoip = some a → ¬ Autoip.isProbing a) :
    Watched n hwaddr slack netif w'.log := by
  cases h with
  | failed _ => exact hw
  | sent p _ _ _ => exact hw.idle_push hidle (fun _ => rfl) (fun _ hc => Event.noConfusion hc)

/-- While probing no packet that is no conflict asks for the address of the interface. -/
def World.Unasked (w : World) (n : ℕ) (hdr : EtharpPacket) : Prop :=
  ∀ a, (w.netif n).autoip = some a → Autoip.isProbing a →
    ¬ conflicts a.llipaddr (w.netif n).hwaddr hdr → hdr.opcode = ARP_REQUEST →
      ¬ forUs (w.netif n) hdr

/-- No reply follows from an interface that probes. -/
def World.Mute (w : World) (n : ℕ) (hdr : EtharpPacket) : Prop :=
  ∀ a, (w.netif n).autoip = some a → Autoip.isProbing a → hdr.opcode = ARP_REQUEST →
    ¬ forUs (w.netif n) hdr

theorem mute_of_any {hdr : EtharpPacket} (h : (w.netif n).ipAddr = 0) : w.Mute n hdr := by
  intro a _ _ _
  simp [forUs, h, IpAddr.isAny, IpAddr.any]

/-- The interface after AutoIP has looked at the packet. -/
structure Answered (n : ℕ) (hwaddr : EthAddr) (hdr : EtharpPacket) (w : World) : Prop where
  watched : Watched n hwaddr 0 (w.netif n) w.log
  mute : w.Mute n hdr

section reply

variable {hdr : EtharpPacket} {a : Autoip}

theorem History.arpInput {log : List Event} (h : History n hwaddr log) :
    History n hwaddr (log ++ [.arpInput n hdr]) := by
  apply h.push (window_snoc ..)
  · exact fun c hc => Event.noConfusion hc
  · exact fun _ _ _ _ _ hc => Event.noConfusion hc

theorem autoipRestart_answered (h : Watched n hwaddr 0 (w.netif n) w.log) :
    Answered n hwaddr hdr (autoipRestart (w.emit (.arpInput n hdr)) n a) := by
  obtain ⟨hwatched, hip⟩ :=
    autoipRestart_watched (w := w.emit (.arpInput n hdr)) (a := a) h.own h.history.arpInput
  exact ⟨hwatched, mute_of_any hip⟩

/-- The packet goes into a closed window. -/
theorem idle_answered (h : Watched n hwaddr 0 (w.netif n) w.log)
    (hno : ∀ a, (w.netif n).autoip = some a → ¬ Autoip.isProbing a) :
    Answered n hwaddr hdr (w.emit (.arpInput n hdr)) where
  watched := h.idle_push hno (fun _ => rfl) (fun _ hc => Event.noConfusion hc)
  mute a ha hp := absurd hp (hno a ha)

theorem Progress.arpInput {mid : List Event} (h : Progress n hwaddr slack a mid)
    (hconf : ¬ conflicts a.llipaddr hwaddr hdr) :
    Progress n hwaddr slack a (mid ++ [.arpInput n hdr]) := by
  have hcount : probesSent n a.llipaddr (mid ++ [.arpInput n hdr]) =
      probesSent n a.llipaddr mid := by
    simp [probesSent, Event.isSentProbe]
  refine ⟨fun hdr' hmem => ?_, fun hs => ?_, fun hs => ?_⟩
  · obtain hmem | hmem := List.mem_append.mp hmem
    · exact h.noConflict hdr' hmem
    · cases List.mem_singleton.mp hmem
      exact hconf
  · rw [hcount]
    exact h.sent hs
  · rw [hcount, waited_push rfl]
    exact h.announcing hs

/-- A packet that is no conflict with the candidate. -/
theorem probing_answered (h : Watched n hwaddr 0 (w.netif n) w.log) (hask : w.Unasked n hdr)
    (ha : (w.netif n).autoip = some a) (hp : Autoip.isProbing a)
    (hconf : ¬ conflicts a.llipaddr (w.netif n).hwaddr hdr) :
    Answered n hwaddr hdr (w.emit (.arpInput n hdr)) := by
  refine ⟨⟨h.own, h.history.arpInput, h.addr, fun hno => absurd hp (hno a ha), ?_⟩, ?_⟩
  · intro b hb hpb
    obtain ⟨mid, hw, hprog⟩ := h.probing b hb hpb
    cases Option.some.inj (ha.symm.trans hb)
    refine ⟨mid ++ [.arpInput n hdr], ?_, hprog.arpInput (h.own ▸ hconf)⟩
    rw [World.emit_log, window_snoc, hw]
    rfl
  · intro b hb hpb
    cases Option.some.inj (ha.symm.trans hb)
    exact hask a ha hp hconf

/-- The address is defended. -/
theorem defend_answered (tx : Tx) (h : Watched n hwaddr 0 (w.netif n) w.log)
    (ha : (w.netif n).autoip = some a) (hon : a.state ≠ .off) (hp : ¬ Autoip.isProbing a) :
    Answered n hwaddr hdr ((autoipArpAnnounce (w.emit (.arpInput n hdr)) tx n a.llipaddr).setAutoip n
      { a with lastconflict := DEFEND_INTERVAL * AUTOIP_TICKS_PER_SECOND }) := by
  have hidle : ∀ b, (w.netif n).autoip = some b → ¬ Autoip.isProbing b := by
    intro b hb
    cases Option.some.inj (ha.symm.trans hb)
    exact hp
  have hin : Answered n hwaddr hdr (w.emit (.arpInput n hdr)) := idle_answered h hidle
  have hraw : Raw (w.emit (.arpInput n hdr)) tx n a.llipaddr a.llipaddr ARP_REQUEST
      (autoipArpAnnounce (w.emit (.arpInput n hdr)) tx n a.llipaddr) := etharpRaw_raw ..
  generalize autoipArpAnnounce (w.emit (.arpInput n hdr)) tx n a.llipaddr = w₁ at hraw ⊢
  have hsent := hraw.idle_watched hin.watched hidle
  set a' : Autoip := { a with lastconflict := DEFEND_INTERVAL * AUTOIP_TICKS_PER_SECOND } with ha'
  have hself : (w₁.setAutoip n a').netif n = { w.netif n with autoip := some a' } := by
    rw [World.setAutoip, World.setNetif_self, hraw.netif]
    rfl
  constructor
  · rw [hself]
    exact hsent.idle_set a' ha hp hp (fun _ => hon) rfl
  · intro b hb hpb
    rw [hself] at hb
    cases hb
    exact absurd hpb hp

/-- The packet is processed, and AutoIP looks at it. -/
theorem autoipArpReply_answered (tx : Tx) (h : Watched n hwaddr 0 (w.netif n) w.log)
    (hask : w.Unasked n hdr) :
    Answered n hwaddr hdr (autoipArpReply (w.emit (.arpInput n hdr)) tx n hdr) := by
  rw [autoipArpReply]
  split
  · next hnone =>
    apply idle_answered h
    intro a ha
    cases hnone.symm.trans ha
  · next a ha =>
    replace ha : (w.netif n).autoip = some a := ha
    have hidle : ¬ Autoip.isProbing a → Answered n hwaddr hdr (w.emit (.arpInput n hdr)) := by
      intro hp
      apply idle_answered h
      intro b hb
      cases Option.some.inj (ha.symm.trans hb)
      exact hp
    split
    · next hoff =>
      apply hidle
      simp [Autoip.isProbing, hoff]
    · next hon =>
      split
      · next hp =>
        split
        · exact autoipRestart_answered h
        · next hconf => exact probing_answered h hask ha hp hconf
      · next hp =>
        split
        · rw [autoipHandleArpConflict]
          split
          · exact autoipRestart_answered h
          · exact defend_answered tx h ha hon hp
        · exact hidle hp

end reply

theorem arpProcess_cases {tx : Tx} {hdr : EtharpPacket} (h : arpProcess w tx n hdr = .ok w') :
    ∃ w₁ w₂ r flags, w₁ = autoipArpReply (w.emit (.arpInput n hdr)) tx n hdr ∧
      etharpUpdateArpEntry w₁ n hdr.sipaddr hdr.shwaddr flags = .ok (w₂, r) ∧
        (w' = w₂ ∨ hdr.opcode = ARP_REQUEST ∧ forUs (w₁.netif n) hdr ∧
          w' = w₂.emit (.arp n (arpReply (w₂.netif n) hdr) (tx.linkoutput = .ok))) := by
  rw [arpProcess] at h
  generalize hw₁ : autoipArpReply (w.emit (.arpInput n hdr)) tx n hdr = w₁ at h
  set flags := if forUs (w₁.netif n) hdr then ETHARP_FLAG_TRY_HARD else ETHARP_FLAG_FIND_ONLY
    with hflags
  cases hu : etharpUpdateArpEntry w₁ n hdr.sipaddr hdr.shwaddr flags with
  | error e =>
    simp only [hu] at h
    cases h
  | ok r =>
    obtain ⟨w₂, r⟩ := r
    refine ⟨w₁, w₂, r, flags, rfl, hu, ?_⟩
    simp only [hu] at h
    change (if hdr.opcode = ARP_REQUEST ∧ forUs (w₁.netif n) hdr then Except.ok
      (w₂.emit (.arp n (arpReply (w₂.netif n) hdr) (tx.linkoutput = .ok))) else Except.ok w₂) =
        Except.ok w' at h
    split at h
    · next hreply =>
      cases h
      exact .inr ⟨hreply.1, hreply.2, rfl⟩
    · cases h
      exact .inl rfl

theorem etharpArpInput_acts {tx : Tx} {len : ℕ} {hdr : EtharpPacket}
    (h : etharpArpInput w tx n len hdr = .ok w') : Acts n w w' := by
  rw [etharpArpInput] at h
  split at h
  · obtain ⟨w₁, w₂, r, flags, rfl, hu, hw'⟩ := arpProcess_cases h
    have hupdate : Acts n w w₂ :=
      ((acts_emit_own w fun _ => rfl).trans (autoipArpReply_acts ..)).trans
        ((etharpUpdateArpEntry_still hu).acts n)
    obtain rfl | ⟨-, -, rfl⟩ := hw'
    · exact hupdate
    · exact hupdate.trans (acts_emit_own w₂ fun _ => rfl)
  · cases h
    exact .refl n w

theorem etharpArpInput_watched {tx : Tx} {len : ℕ} {hdr : EtharpPacket}
    (h : etharpArpInput w tx n len hdr = .ok w') (hw : Watched n hwaddr 0 (w.netif n) w.log)
    (hask : (w.netif n).etharp ∧ SIZEOF_ETHARP_PACKET ≤ len ∧ hdr.wellFormed → w.Unasked n hdr) :
    Watched n hwaddr 0 (w'.netif n) w'.log := by
  rw [etharpArpInput] at h
  split at h
  · next haccept =>
    obtain ⟨w₁, w₂, r, flags, hw₁, hu, hw'⟩ := arpProcess_cases h
    have hanswer : Answered n hwaddr hdr w₁ := by
      rw [hw₁]
      exact autoipArpReply_answered tx hw (hask haccept)
    have hstill := etharpUpdateArpEntry_still hu
    have hupdate := hanswer.watched.still hstill
    obtain rfl | ⟨hreq, hfor, rfl⟩ := hw'
    · exact hupdate
    · apply hupdate.idle_push ?_ (fun _ => rfl) (fun _ hc => Event.noConfusion hc)
      intro a ha hp
      rw [hstill.netif] at ha
      exact hanswer.mute a ha hp hreq hfor
  · cases h
    exact hw

/-! ### The timer -/

section timer

variable {netif : Netif} {log : List Event} {a a' : Autoip}

/-- The client goes on with its candidate. -/
theorem Watched.advance {slack' : ℕ} (a' : Autoip) (h : Watched n hwaddr slack netif log)
    (ha : netif.autoip = some a) (hp : Autoip.isProbing a) (hon : a.state ≠ .off)
    (hp' : Autoip.isProbing a') (hll : a'.llipaddr = a.llipaddr)
    (hprog : ∀ mid, Progress n hwaddr slack a mid → Progress n hwaddr slack' a' mid) :
    Watched n hwaddr slack' { netif with autoip := some a' } log := by
  refine ⟨h.own, h.history, ?_, fun hno => absurd hp' (hno a' rfl), ?_⟩
  · intro b hb _
    cases hb
    rw [hll]
    exact h.addr a ha hon
  · intro b hb _
    cases hb
    obtain ⟨mid, hw, hm⟩ := h.probing a ha hp
    exact ⟨mid, by rw [hll, hw], hprog mid hm⟩

/-- The age of the last conflict says nothing about the candidate. -/
theorem Watched.lastconflict (h : Watched n hwaddr slack netif log) (ha : netif.autoip = some a)
    (k : ℕ) : Watched n hwaddr slack { netif with autoip := some { a with lastconflict := k } } log := by
  refine ⟨h.own, h.history, ?_, ?_, ?_⟩
  · intro b hb hoff
    cases hb
    exact h.addr a ha hoff
  · intro hno
    apply h.idle
    intro b hb
    cases Option.some.inj (ha.symm.trans hb)
    have hsame := hno { a with lastconflict := k } rfl
    exact hsame
  · intro b hb hp
    cases hb
    obtain ⟨mid, hw, hm⟩ := h.probing a ha hp
    exact ⟨mid, hw, hm.noConflict, hm.sent, hm.announcing⟩

/-- One more probe is sent. -/
theorem Watched.probe {p : EtharpPacket} {t : ℕ} (h : Watched n hwaddr slack netif log)
    (ha : netif.autoip = some a) (hs : a.state = .probing) (hsrc : p.sipaddr = IpAddr.any)
    (hdst : p.dipaddr = a.llipaddr) (hop : p.opcode = ARP_REQUEST) :
    Watched n hwaddr 0 { netif with autoip := some { a with sentNum := a.sentNum + 1, ttw := t } }
      (log ++ [.arp n p true]) := by
  have hp : Autoip.isProbing a := by simp [Autoip.isProbing, hs]
  have hon : a.state ≠ .off := by
    rw [hs]
    decide
  obtain ⟨hip, hc⟩ := h.addr a ha hon
  obtain ⟨mid, hw, hm⟩ := h.probing a ha hp
  have hsent : (Event.arp n p true).isSentProbe n a.llipaddr := by
    simp [Event.isSentProbe, Event.isProbe, hsrc, hdst, hop]
  have hwindow : window n (log ++ [.arp n p true]) =
      some (a.llipaddr, mid ++ [.arp n p true]) := by
    rw [window_snoc, hw]
    rfl
  refine ⟨h.own, ?_, ?_, ?_, ?_⟩
  · apply h.history.push (window_snoc ..) (fun _ hc => Event.noConfusion hc)
    intro c mid' hw' q ok hq
    rw [hw] at hw'
    cases hw'
    cases hq
    rw [hsrc]
    exact hc.symm
  · intro b hb _
    cases hb
    exact ⟨hip, hc⟩
  · intro hno
    have hsame := hno { a with sentNum := a.sentNum + 1, ttw := t } rfl
    simp [Autoip.isProbing, hs] at hsame
  · intro b hb _
    cases hb
    refine ⟨_, hwindow, fun hdr hmem => ?_, fun _ => ?_, fun hann => ?_⟩
    · obtain hmem | hmem := List.mem_append.mp hmem
      · exact hm.noConflict hdr hmem
      · cases List.mem_singleton.mp hmem
    · rw [probesSent_probe hsent]
      exact Nat.succ_le_succ (hm.sent hs)
    · rw [hs] at hann
      cases hann

/-- The pause after the probes is over. -/
theorem Watched.bind {netif' : Netif} (h : Watched n hwaddr slack netif log)
    (ha : netif.autoip = some a) (hs : a.state = .announcing) (hzero : a.sentNum = 0)
    (httw : a.ttw = 0) (hhw : netif'.hwaddr = netif.hwaddr) (hip : netif'.ipAddr = a.llipaddr)
    (ha' : netif'.autoip = some a') (hp' : ¬ Autoip.isProbing a')
    (hll : a'.llipaddr = a.llipaddr) :
    Watched n hwaddr 0 netif' (log ++ [.bind n a.llipaddr]) := by
  have hp : Autoip.isProbing a := by simp [Autoip.isProbing, hs, hzero]
  have hon : a.state ≠ .off := by
    rw [hs]
    decide
  obtain ⟨-, hc⟩ := h.addr a ha hon
  obtain ⟨mid, hw, hm⟩ := h.probing a ha hp
  obtain ⟨hprobes, hwait⟩ := hm.announcing hs
  have hwindow : window n (log ++ [.bind n a.llipaddr]) = none := by
    rw [window_snoc]
    exact if_pos rfl
  have hself : ∀ b, netif'.autoip = some b → b = a' :=
    fun b hb => (Option.some.inj (ha'.symm.trans hb)).symm
  refine ⟨hhw.trans h.own, ?_, ?_, fun _ => hwindow, ?_⟩
  · apply h.history.snoc
    · intro c hbind
      cases hbind
      exact ⟨mid, hw, hprobes, hm.noConflict, by omega⟩
    · intro c mid' hw'
      rw [hwindow] at hw'
      cases hw'
  · intro b hb _
    rw [hself b hb, hll]
    exact ⟨.inr hip, hc⟩
  · intro b hb hpb
    rw [hself b hb] at hpb
    exact absurd hpb hp'

end timer

theorem tmrProbing_watched {tx : Tx} {a : Autoip}
    (h : Watched n hwaddr 1 { w.netif n with autoip := some a } w.log) (hs : a.state = .probing)
    (htx : a.ttw = 0 → a.sentNum < PROBE_NUM → tx.alloc ∧ tx.linkoutput = .ok) :
    Watched n hwaddr 0 ((tmrProbing w tx n a).netif n) (tmrProbing w tx n a).log := by
  have hp : Autoip.isProbing a := by simp [Autoip.isProbing, hs]
  have hon : a.state ≠ .off := by
    rw [hs]
    decide
  have hset : ∀ (w₀ : World) (b : Autoip), w₀.netif = w.netif →
      (w₀.setAutoip n b).netif n = { w.netif n with autoip := some b } := by
    intro w₀ b hw₀
    rw [World.setAutoip, World.setNetif_self, hw₀]
  rw [tmrProbing]
  split
  · rw [hset w _ rfl]
    refine h.advance { a with ttw := a.ttw - 1 } rfl hp hon hp rfl fun mid hm => ?_
    refine ⟨hm.noConflict, hm.sent, fun hann => ?_⟩
    rw [hs] at hann
    cases hann
  · next httw =>
    split
    · next hdone =>
      rw [hset w _ rfl]
      refine h.advance
        { a with
          state := .announcing
          sentNum := 0
          ttw := ANNOUNCE_WAIT * AUTOIP_TICKS_PER_SECOND }
        rfl hp hon (by simp [Autoip.isProbing]) rfl fun mid hm => ?_
      refine ⟨hm.noConflict, fun hprobing => AutoipState.noConfusion hprobing, fun _ => ⟨?_, ?_⟩⟩
      · exact hdone.trans (hm.sent hs)
      · exact Nat.le_add_left _ _
    · next hmore =>
      obtain ⟨halloc, hlink⟩ := htx (Nat.eq_zero_of_not_pos httw) (not_le.mp hmore)
      have hraw : Raw w tx n IpAddr.any a.llipaddr ARP_REQUEST (autoipArpProbe w tx n a.llipaddr) :=
        etharpRaw_raw ..
      generalize autoipArpProbe w tx n a.llipaddr = w₁ at hraw ⊢
      cases hraw with
      | failed hno =>
        rw [halloc] at hno
        cases hno
      | sent p hsrc hdst hop =>
        rw [hset (w.emit _) _ rfl]
        have hprobe := h.probe (t := autoipRand (w.netif n).hwaddr a.triedLlipaddr %
          ((PROBE_MAX - PROBE_MIN) * AUTOIP_TICKS_PER_SECOND) +
            PROBE_MIN * AUTOIP_TICKS_PER_SECOND) rfl hs hsrc hdst hop
        have hok : decide (tx.linkoutput = .ok) = true := decide_eq_true hlink
        rw [World.setAutoip, World.setNetif_log, World.emit_log, hok]
        exact hprobe

/-- The interface is brought up with its addresses and its client, and announces the address. -/
structure Up (n : ℕ) (w w' : World) : Prop where
  hwaddr : (w'.netif n).hwaddr = (w.netif n).hwaddr
  ipAddr : (w'.netif n).ipAddr = (w.netif n).ipAddr
  log : w'.log = w.log ∨ ∃ p ok, w'.log = w.log ++ [.arp n p ok]

theorem netifSetUp_up (w : World) (tx : Tx) (n : ℕ) : Up n w (netifSetUp w tx n) := by
  rw [netifSetUp]
  simp only
  split
  · exact ⟨rfl, rfl, .inl rfl⟩
  · split
    · have hraw : Raw (w.setNetif n { w.netif n with up := true }) tx n
          ((w.setNetif n { w.netif n with up := true }).netif n).ipAddr (w.netif n).ipAddr ARP_REQUEST
          (etharpRequest (w.setNetif n { w.netif n with up := true }) tx n (w.netif n).ipAddr).1 :=
        etharpRaw_raw ..
      generalize (etharpRequest (w.setNetif n { w.netif n with up := true }) tx n _).1 = w₁ at hraw ⊢
      refine ⟨?_, ?_, ?_⟩
      · rw [hraw.netif, World.setNetif_self]
      · rw [hraw.netif, World.setNetif_self]
      · cases hraw with
        | failed _ => exact .inl rfl
        | sent p _ _ _ => exact .inr ⟨p, _, rfl⟩
    · refine ⟨?_, ?_, .inl rfl⟩
      · rw [World.setNetif_self]
      · rw [World.setNetif_self]

theorem tmrAnnouncing_watched {tx : Tx} {a : Autoip}
    (h : Watched n hwaddr 1 { w.netif n with autoip := some a } w.log)
    (hs : a.state = .announcing) :
    Watched n hwaddr 0 ((tmrAnnouncing w tx n a).netif n) (tmrAnnouncing w tx n a).log := by
  have hon : a.state ≠ .off := by
    rw [hs]
    decide
  have hset : ∀ (w₀ : World) (b : Autoip),
      (w₀.setAutoip n b).netif n = { w₀.netif n with autoip := some b } := by
    intro w₀ b
    rw [World.setAutoip, World.setNetif_self]
  rw [tmrAnnouncing]
  split
  · next httw =>
    rw [hset]
    by_cases hp : Autoip.isProbing a
    · refine h.advance { a with ttw := a.ttw - 1 } rfl hp hon hp rfl fun mid hm => ?_
      refine ⟨hm.noConflict, hm.sent, fun hann => ⟨(hm.announcing hann).1, ?_⟩⟩
      have hwait := (hm.announcing hann).2
      change ANNOUNCE_WAIT * AUTOIP_TICKS_PER_SECOND + 0 ≤ waited n a.llipaddr mid + (a.ttw - 1)
      omega
    · exact (h.idle_set { a with ttw := a.ttw - 1 } rfl hp hp (fun _ => hon) rfl).weaken
        (Nat.zero_le _)
  · next httw =>
    -- the client after it has announced the address, once more or for the first time
    have hafter : ∀ a' : Autoip, a'.llipaddr = a.llipaddr → ¬ Autoip.isProbing a' →
        Watched n hwaddr 0
          (((if a.sentNum = 0 then autoipBind w tx n a.llipaddr
            else autoipArpAnnounce w tx n a.llipaddr).setAutoip n a').netif n)
          ((if a.sentNum = 0 then autoipBind w tx n a.llipaddr
            else autoipArpAnnounce w tx n a.llipaddr).setAutoip n a').log := by
      intro a' hll hp'
      rw [hset]
      split
      · next hzero =>
        rw [autoipBind]
        simp only
        generalize hw₁ : (w.emit (.bind n a.llipaddr)).setNetif n _ = w₁
        have hself : w₁.netif n = { w.netif n with
            ipAddr := a.llipaddr, netmask := 0xffff0000#32, gw := 0 } := by
          rw [← hw₁, World.setNetif_self]
          rfl
        have hup := netifSetUp_up w₁ tx n
        have hbound : Watched n hwaddr 0 { (netifSetUp w₁ tx n).netif n with autoip := some a' }
            (w.log ++ [.bind n a.llipaddr]) := by
          apply h.bind rfl hs hzero (Nat.eq_zero_of_not_pos httw) ?_ ?_ rfl hp' hll
          · exact hup.hwaddr.trans (by rw [hself])
          · exact hup.ipAddr.trans (by rw [hself])
        have hlog : w₁.log = w.log ++ [.bind n a.llipaddr] := by
          rw [← hw₁]
          rfl
        rw [World.setAutoip, World.setNetif_log]
        obtain hlog' | ⟨p, ok, hlog'⟩ := hup.log
        · rw [hlog', hlog]
          exact hbound
        · rw [hlog', hlog]
          apply hbound.idle_push ?_ (fun _ => rfl) (fun _ hc => Event.noConfusion hc)
          intro b hb
          cases hb
          exact hp'
      · next hzero =>
        have hp : ¬ Autoip.isProbing a := by simp [Autoip.isProbing, hs, hzero]
        have hraw : Raw w tx n a.llipaddr a.llipaddr ARP_REQUEST
            (autoipArpAnnounce w tx n a.llipaddr) := etharpRaw_raw ..
        generalize autoipArpAnnounce w tx n a.llipaddr = w₁ at hraw ⊢
        rw [World.setAutoip, World.setNetif_log, hraw.netif]
        have hidle : Watched n hwaddr 0 { w.netif n with autoip := some a' } w.log :=
          (h.idle_set a' rfl hp hp' (fun _ => hon) hll).weaken (Nat.zero_le _)
        apply hraw.idle_watched hidle
        intro b hb
        cases hb
        exact hp'
    simp only
    split
    · exact hafter { a with state := .bound, sentNum := 0, ttw := 0 } rfl
        (by simp [Autoip.isProbing])
    · exact hafter
        { a with
          sentNum := a.sentNum + 1
          ttw := ANNOUNCE_INTERVAL * AUTOIP_TICKS_PER_SECOND }
        rfl (by simp [Autoip.isProbing, hs])

/-- One round of `autoip_tmr` for the interface, which has counted the tick already. -/
theorem autoipTmrNetif_watched {tx : ℕ → Tx} (h : Watched n hwaddr 1 (w.netif n) w.log)
    (htx : ∀ a, (w.netif n).autoip = some a → a.state = .probing → a.ttw = 0 →
      a.sentNum < PROBE_NUM → (tx n).alloc ∧ (tx n).linkoutput = .ok) :
    Watched n hwaddr 0 ((autoipTmrNetif tx w n).netif n) (autoipTmrNetif tx w n).log := by
  rw [autoipTmrNetif]
  split
  · exact h.weaken (Nat.zero_le _)
  · next a ha =>
    have hset := h.lastconflict ha (a.lastconflict - 1)
    simp only
    split
    · next hs => exact tmrProbing_watched hset hs (htx a ha hs)
    · next hs => exact tmrAnnouncing_watched hset hs
    · rw [World.setAutoip, World.setNetif_self]
      exact hset.weaken (Nat.zero_le _)
    · rw [World.setAutoip, World.setNetif_self]
      exact hset.weaken (Nat.zero_le _)

theorem others_acts (tx : ℕ → Tx) (l : List ℕ) (hl : n ∉ l)
    (h : Watched n hwaddr slack (w.netif n) w.log) :
    Watched n hwaddr slack ((l.foldl (autoipTmrNetif tx) w).netif n)
      (l.foldl (autoipTmrNetif tx) w).log := by
  induction l generalizing w with
  | nil => exact h
  | cons m l ih =>
    have hm : n ≠ m := fun heq => hl (heq ▸ List.mem_cons_self ..)
    exact ih (fun hmem => hl (List.mem_cons_of_mem _ hmem)) (h.acts (autoipTmrNetif_acts tx w m) hm)

theorem autoipTmr_foldl (tx : ℕ → Tx) {l : List ℕ} (hnodup : l.Nodup)
    (h : Watched n hwaddr 1 (w.netif n) w.log)
    (htx : n ∈ l → ∀ a, (w.netif n).autoip = some a → a.state = .probing → a.ttw = 0 →
      a.sentNum < PROBE_NUM → (tx n).alloc ∧ (tx n).linkoutput = .ok) :
    Watched n hwaddr 0 ((l.foldl (autoipTmrNetif tx) w).netif n)
      (l.foldl (autoipTmrNetif tx) w).log := by
  induction l generalizing w with
  | nil => exact h.weaken (Nat.zero_le _)
  | cons m l ih =>
    obtain ⟨hm, hl⟩ := List.nodup_cons.mp hnodup
    have hacts := autoipTmrNetif_acts tx w m
    rw [List.foldl_cons]
    by_cases hnm : n = m
    · subst hnm
      exact others_acts tx l hm (autoipTmrNetif_watched h (htx (List.mem_cons_self ..)))
    · apply ih hl (h.acts hacts hnm)
      intro hmem
      rw [hacts.netif n hnm]
      exact htx (List.mem_cons_of_mem _ hmem)

/-! ### Runs -/

/-- The functions of AutoIP, and received ARP packets. -/
inductive AutoipOp where
  | start (alloc : Bool) (n : ℕ)
  | networkChanged (n : ℕ)
  | tmr (tx : ℕ → Tx)
  | arpInput (tx : Tx) (n len : ℕ) (hdr : EtharpPacket)

def AutoipOp.toOp : AutoipOp → Op
  | .start alloc n => .autoipStart alloc n
  | .networkChanged n => .autoipNetworkChanged n
  | .tmr tx => .autoipTmr tx
  | .arpInput tx n len hdr => .arpInput tx n len hdr

/-- AutoIP has not been started on any interface. -/
structure World.AutoipStart (w : World) : Prop where
  netifList : w.netifList.Nodup
  off : ∀ n a, (w.netif n).autoip = some a → a.state = .off
  log : w.log = []

def autoip : System World AutoipOp where
  start := World.AutoipStart
  step w op w' := op.toOp.exec w = .ok w'

/-- The transmission of every probe succeeds, and while an interface probes no ARP request that it
would answer comes from its own hardware address. -/
def AutoipOp.Heard (w : World) : AutoipOp → Prop
  | .tmr tx => ∀ n ∈ w.netifList, ∀ a, (w.netif n).autoip = some a → a.state = .probing →
      a.ttw = 0 → a.sentNum < PROBE_NUM → (tx n).alloc ∧ (tx n).linkoutput = .ok
  | .arpInput _ n len hdr =>
    (w.netif n).etharp ∧ SIZEOF_ETHARP_PACKET ≤ len ∧ hdr.wellFormed → w.Unasked n hdr
  | _ => True

theorem AutoipOp.exec_watched {op : AutoipOp} (hop : op.Heard w) (hlist : w.netifList.Nodup)
    (hstep : autoip.step w op w') (h : Watched n hwaddr 0 (w.netif n) w.log) :
    Watched n hwaddr 0 (w'.netif n) w'.log := by
  cases op with
  | start alloc m =>
    cases hstep
    by_cases hm : n = m
    · subst hm
      exact autoipStart_watched alloc h
    · exact h.acts (autoipStart_acts w alloc m) hm
  | networkChanged m =>
    cases hstep
    by_cases hm : n = m
    · subst hm
      exact autoipNetworkChanged_watched h
    · exact h.acts (autoipNetworkChanged_acts w m) hm
  | tmr tx =>
    cases hstep
    have hev : Event.tick.concerns n = false := rfl
    have htick : Watched n hwaddr 1 ((w.emit .tick).netif n) (w.emit .tick).log := h.push hev
    exact autoipTmr_foldl tx hlist htick fun hmem => hop n hmem
  | arpInput tx m len hdr =>
    by_cases hm : n = m
    · subst hm
      exact etharpArpInput_watched hstep h hop
    · exact h.acts (etharpArpInput_acts hstep) hm

theorem foldl_netifList (tx : ℕ → Tx) (l : List ℕ) (w : World) :
    (l.foldl (autoipTmrNetif tx) w).netifList = w.netifList := by
  induction l generalizing w with
  | nil => rfl
  | cons m l ih => exact (ih _).trans (autoipTmrNetif_acts tx w m).netifList

theorem AutoipOp.exec_netifList {op : AutoipOp} (hstep : autoip.step w op w') :
    w'.netifList = w.netifList := by
  cases op with
  | start alloc m =>
    cases hstep
    exact (autoipStart_acts w alloc m).netifList
  | networkChanged m =>
    cases hstep
    exact (autoipNetworkChanged_acts w m).netifList
  | tmr tx =>
    cases hstep
    exact foldl_netifList tx _ _
  | arpInput tx m len hdr => exact (etharpArpInput_acts hstep).netifList

theorem World.AutoipStart.watched (h : w.AutoipStart) (n : ℕ) :
    Watched n (w.netif n).hwaddr 0 (w.netif n) w.log := by
  rw [h.log]
  refine ⟨rfl, .nil, ?_, fun _ => rfl, ?_⟩
  · intro a ha hoff
    exact absurd (h.off n a ha) hoff
  · intro a ha hp
    simp [Autoip.isProbing, h.off n a ha] at hp

/-- Every bind closes a window with three probes handed to the interface, no conflict and the pause
after the last probe; and no window ever shows the candidate as the sender of an ARP packet. -/
theorem claims_after_probing (h : autoip.ReachableWhile (fun w op => op.Heard w) w) (n : ℕ) :
    History n (w.netif n).hwaddr w.log := by
  have hall : w.netifList.Nodup ∧ ∃ hwaddr, Watched n hwaddr 0 (w.netif n) w.log := by
    apply h.invariant
      (I := fun w => w.netifList.Nodup ∧ ∃ hwaddr, Watched n hwaddr 0 (w.netif n) w.log)
    · exact fun w hw => ⟨hw.netifList, _, hw.watched n⟩
    · rintro w op w' ⟨hlist, hwaddr, hwatched⟩ hop hstep
      refine ⟨?_, hwaddr, AutoipOp.exec_watched hop hlist hstep hwatched⟩
      rw [AutoipOp.exec_netifList hstep]
      exact hlist
  obtain ⟨-, hwaddr, hwatched⟩ := hall
  rw [hwatched.own]
  exact hwatched.history

/-! ### Two histories that break the rule -/

/-- An interface without an address. -/
def freshWorld : World :=
  { emptyWorld with
    netif := fun _ => { hostNetif with ipAddr := 0, netmask := 0, up := false }
    netifList := [0] }

theorem freshWorld_start : freshWorld.AutoipStart where
  netifList := by decide
  off n a ha := nomatch ha
  log := rfl

/-- The interface starts to probe for its first candidate. -/
def probingWorld : World := (autoipStart freshWorld true 0).1

def firstAddr : IpAddr := autoipCreateAddr hostNetif.hwaddr 0

/-- `k` calls of `autoip_tmr`. -/
def ticks (tx : ℕ → Tx) (w : World) : ℕ → World
  | 0 => w
  | k + 1 => autoipTmr (ticks tx w k) tx

def soundTx : ℕ → Tx := fun _ => ⟨true, .ok⟩

/-- No memory for any probe. -/
def silentTx : ℕ → Tx := fun _ => ⟨false, .ok⟩

section ticks

variable {ok : World → AutoipOp → Prop} {tx : ℕ → Tx}

theorem reachable_probingWorld (hok : ok freshWorld (.start true 0)) :
    autoip.ReachableWhile ok probingWorld :=
  ⟨_, .snoc (.start freshWorld_start) hok rfl⟩

theorem reachable_ticks (h : autoip.ReachableWhile ok w) (hok : ∀ w, ok w (.tmr tx)) (k : ℕ) :
    autoip.ReachableWhile ok (ticks tx w k) := by
  induction k with
  | zero => exact h
  | succ k ih =>
    obtain ⟨ops, hrun⟩ := ih
    have hstep : autoip.step (ticks tx w k) (.tmr tx) (ticks tx w (k + 1)) := rfl
    exact ⟨ops ++ [.tmr tx], .snoc hrun (hok _) hstep⟩

end ticks

set_option maxRecDepth 20000 in
/-- The probes that were not sent count. -/
theorem ticks_silentTx :
    (ticks silentTx probingWorld 79).log =
      .probing 0 firstAddr :: List.replicate 79 .tick ++ [.bind 0 firstAddr] := by
  decide

/-- A probe of the interface itself, as it comes back over a bridge. -/
def ownProbe : EtharpPacket :=
  ⟨ethbroadcast, hostNetif.hwaddr, HWTYPE_ETHERNET, ETHTYPE_IP, ETHARP_HWADDR_LEN, 4, ARP_REQUEST,
    hostNetif.hwaddr, IpAddr.any, ethzero, firstAddr⟩

/-- The address is bound, and the link comes back. -/
def reprobingWorld : World := autoipNetworkChanged (ticks soundTx probingWorld 79) 0

set_option maxRecDepth 20000 in
theorem reprobingWorld_window : window 0 reprobingWorld.log = some (firstAddr, []) := by
  decide

/-- The reply to the packet. -/
def ownReply : EtharpPacket := arpReply (reprobingWorld.netif 0) ownProbe

set_option maxRecDepth 20000 in
theorem ownReply_sipaddr : ownReply.sipaddr = firstAddr := by
  decide

set_option maxRecDepth 20000 in
theorem ownProbe_log :
    (etharpArpInput reprobingWorld (soundTx 0) 0 SIZEOF_ETHARP_PACKET ownProbe).toOption.map
      World.log = some (reprobingWorld.log ++ [.arpInput 0 ownProbe, .arp 0 ownReply true]) := by
  decide

theorem reachable_ticks_probing (tx : ℕ → Tx) (k : ℕ) :
    autoip.Reachable (ticks tx probingWorld k) :=
  reachable_ticks (reachable_probingWorld trivial) (fun _ => trivial) k

theorem reachable_reprobingWorld : autoip.Reachable reprobingWorld := by
  obtain ⟨ops, hrun⟩ := reachable_ticks_probing soundTx 79
  have hstep : autoip.step (ticks soundTx probingWorld 79) (.networkChanged 0) reprobingWorld := rfl
  exact ⟨ops ++ [.networkChanged 0], .snoc hrun trivial hstep⟩

/-- A bind without a single probe on the wire; and, with every probe sent, a reply that gives away the
candidate while the interface probes for it again. -/
theorem claims_unprobed :
    (∃ w, autoip.Reachable w ∧ ∃ before c later, w.log = before ++ .bind 0 c :: later ∧
      ∀ mid, window 0 before = some (c, mid) → probesSent 0 c mid = 0) ∧
    ∃ w, autoip.Reachable w ∧ ∃ c mid, window 0 w.log = some (c, mid) ∧ ¬ Silent 0 c mid := by
  constructor
  · refine ⟨_, reachable_ticks_probing silentTx 79, .probing 0 firstAddr :: List.replicate 79 .tick,
      firstAddr, [], ticks_silentTx, ?_⟩
    intro mid hmid
    cases hmid
    decide
  · obtain ⟨ops, hrun⟩ := reachable_reprobingWorld
    obtain ⟨w, hopt, hlog⟩ := Option.map_eq_some_iff.mp ownProbe_log
    have hw : etharpArpInput reprobingWorld (soundTx 0) 0 SIZEOF_ETHARP_PACKET ownProbe = .ok w :=
      Fallible.toOption_eq_some hopt
    have hstep : autoip.step reprobingWorld
        (.arpInput (soundTx 0) 0 SIZEOF_ETHARP_PACKET ownProbe) w := hw
    have hreach : autoip.Reachable w := ⟨_, hrun.snoc trivial hstep⟩
    refine ⟨w, hreach, firstAddr, [.arpInput 0 ownProbe, .arp 0 ownReply true], ?_, ?_⟩
    · have hwindow : window 0 reprobingWorld.log = some (firstAddr, []) := reprobingWorld_window
      rw [window] at hwindow
      rw [hlog, window, List.foldl_append, hwindow]
      rfl
    · intro hsilent
      exact hsilent ownReply true (by simp) ownReply_sipaddr

set_option maxRecDepth 20000 in
theorem ticks_soundTx : .bind 0 firstAddr ∈ (ticks soundTx probingWorld 79).log := by
  decide

/-- The probes are sent, and the address is bound. -/
theorem claims_after_probing_soundTx :
    ∃ w : World, .bind 0 firstAddr ∈ w.log ∧ History 0 (w.netif 0).hwaddr w.log := by
  refine ⟨ticks soundTx probingWorld 79, ticks_soundTx, claims_after_probing ?_ 0⟩
  apply reachable_ticks (reachable_probingWorld trivial)
  intro w n hn a ha hstate httw hsent
  exact ⟨rfl, rfl⟩
end QuietLwip.Arp
