import QuietLwip.Arp.Input

/-!
# What the ARP module may do to its table

Every function of the module is a sequence of moves, each of which writes to one entry or leaves the
table alone. Facts about the table are proved move by move; here, those that hold of every entry:
its address is its own, its packet goes with the pending state, its age is below the limit, and its
hardware address is the one stored last for its address.
-/

namespace QuietLwip.Arp

open Buffers Ip QuietLwip.Transition

/-! ### The log -/

/-- The event is about neither a kept packet nor a stored address. -/
def Event.plain : Event → Bool
  | .queued .. | .sent .. | .freed .. | .updated .. => false
  | .output .. | .arp .. | .arpInput .. | .probing .. | .tick | .bind .. => true

/-- The hardware address that the event stores for `ip`. -/
def Event.stores (ip : IpAddr) : Event → Option EthAddr
  | .updated a eth => if a = ip then some eth else none
  | _ => none

/-- The hardware address stored last for `ip`. -/
def lastUpdate (log : List Event) (ip : IpAddr) : Option EthAddr :=
  (log.filterMap (Event.stores ip)).getLast?

section lastUpdate

variable {log : List Event} {ip a : IpAddr} {eth : EthAddr} {ev : Event}

theorem lastUpdate_of_stores_none (h : ev.stores ip = none) :
    lastUpdate (log ++ [ev]) ip = lastUpdate log ip := by
  simp [lastUpdate, h]

theorem lastUpdate_updated : lastUpdate (log ++ [.updated ip eth]) ip = some eth := by
  simp [lastUpdate, Event.stores]

theorem stores_of_plain (h : ev.plain) : ev.stores ip = none := by
  cases ev <;> first | rfl | cases h

theorem stores_updated (h : a ≠ ip) : (Event.updated a eth).stores ip = none := if_neg h

end lastUpdate

/-! ### Moves -/

/-- No other entry has the address of this one. -/
def World.Alone (w : World) (i : Index) : Prop :=
  ∀ j, j ≠ i → (w.table j).state ≠ .empty → (w.table j).ipaddr ≠ (w.table i).ipaddr

/-- The packet kept is the packet given, or has its bytes. -/
inductive Keeps (q : List Pbuf) : Packet → Prop
  | byRef : Keeps q (.byRef (pbufRef q))
  | copy {addr len : ℕ} {data : List UInt8} (h : pbufCopy len q = .ok data) :
    Keeps q (.copy addr data)

/-- A write that keeps no packet and sends none that was kept: an entry is freed, or the table stays. -/
inductive Drop : World → World → Prop
  | free (w : World) (i : Index) : Drop w (etharpFreeEntry w i)
  | emit (w : World) {ev : Event} (hplain : ev.plain) : Drop w (w.emit ev)
  | other {w w' : World} (htable : w'.table = w.table) (htickets : w'.tickets = w.tickets)
    (hlog : w'.log = w.log) : Drop w w'

/-- One write of the module. With `own`, a packet leaves by the interface it was kept for. -/
inductive Move (own : Prop) : World → World → Prop
  | drop {w w' : World} (h : Drop w w') : Move own w w'
  | tmr (w : World) (i : Index) : Move own w (tmrEntry w i)
  | claim (w : World) (i : Index) (ip : IpAddr) (hempty : (w.table i).state = .empty) :
    Move own w (w.setEntry i { w.table i with ipaddr := ip, ctime := 0 })
  | mark (w : World) (n : ℕ) (i : Index) (hnew : (w.table i).ctime = 0) (halone : w.Alone i) :
    Move own w (w.markPending n i)
  | settle (w : World) (n : ℕ) (i : Index) (eth : EthAddr) {state : EtharpState}
    (hstate : state.isStable) (halone : w.Alone i)
    (hown : own → ∀ h, (w.table i).q = some h → h.netif = n) :
    Move own w (w.settle n i eth state)
  | hold (w : World) (n : ℕ) (i : Index) {q : List Pbuf} {p : Packet} (hkeeps : Keeps q p)
    (hpending : (w.table i).state = .pending) : Move own w (w.hold n i q p)
  | rerequest (w : World) (i : Index) (hstable : (w.table i).state = .stable) :
    Move own w (w.setEntry i { w.table i with state := .stableRerequesting })

abbrev Drops : World → World → Prop := Relation.ReflTransGen Drop

abbrev Moves (own : Prop) : World → World → Prop := Relation.ReflTransGen (Move own)

variable {own : Prop} {w w' : World}

theorem Move.moves (h : Move own w w') : Moves own w w' := .single h

theorem Drops.moves (h : Drops w w') : Moves own w w' := by
  induction h with
  | refl => exact .refl
  | tail _ hd ih => exact ih.tail (.drop hd)

theorem drops_emit (w : World) {ev : Event} (h : ev.plain) : Drops w (w.emit ev) :=
  .single (.emit w h)

theorem drops_other (htable : w'.table = w.table) (htickets : w'.tickets = w.tickets)
    (hlog : w'.log = w.log) : Drops w w' := .single (.other htable htickets hlog)

/-- A loop whose rounds are sequences of writes is one. -/
theorem foldl_trans {ι : Type*} {r : World → World → Prop} {f : World → ι → World}
    (hf : ∀ w i, Relation.ReflTransGen r w (f w i)) (l : List ι) (w : World) :
    Relation.ReflTransGen r w (l.foldl f w) := by
  induction l generalizing w with
  | nil => exact .refl
  | cons i l ih => exact (hf w i).trans (ih (f w i))

/-! ### What holds of every entry -/

/-- The entry by itself is sound, given what was stored last for its address. -/
structure Entry.Sound (e : Entry) (stored : Option EthAddr) : Prop where
  queue : e.q ≠ none → e.state = .pending
  pending : e.state = .pending → e.ctime < ARP_MAXPENDING
  young : e.state ≠ .empty → e.state ≠ .static → e.ctime < ARP_MAXAGE
  learnt : e.state.isStable → stored = some e.ethaddr

structure World.Sound (w : World) : Prop where
  entry : ∀ i, (w.table i).Sound (lastUpdate w.log (w.table i).ipaddr)
  alone : ∀ i, (w.table i).state ≠ .empty → w.Alone i

theorem EtharpState.isStable_iff {state : EtharpState} :
    state.isStable ↔ state ≠ .empty ∧ state ≠ .pending := by
  cases state <;> decide

theorem Entry.Sound.empty {e : Entry} {stored : Option EthAddr} (hq : e.q = none)
    (he : e.state = .empty) : e.Sound stored where
  queue h := absurd hq h
  pending h := by rw [he] at h; cases h
  young h := absurd he h
  learnt h := absurd he (EtharpState.isStable_iff.mp h).1

/-- One entry is rewritten: the others keep their addresses, and what was stored for them. -/
theorem World.Sound.setEntry {w' : World} {i : Index} (hs : w.Sound)
    (htable : ∀ j, j ≠ i → w'.table j = w.table j)
    (hstored : ∀ j, j ≠ i → (w.table j).state ≠ .empty →
      lastUpdate w'.log (w.table j).ipaddr = lastUpdate w.log (w.table j).ipaddr)
    (hi : (w'.table i).Sound (lastUpdate w'.log (w'.table i).ipaddr))
    (halone : (w'.table i).state ≠ .empty → w'.Alone i) : w'.Sound := by
  constructor
  · intro j
    obtain rfl | hj := eq_or_ne j i
    · exact hi
    · rw [htable j hj]
      by_cases he : (w.table j).state = .empty
      · refine .empty ?_ he
        by_contra hq
        have hpend := (hs.entry j).queue hq
        rw [he] at hpend
        cases hpend
      · rw [hstored j hj he]
        exact hs.entry j
  · intro j hj k hkj hk
    obtain rfl | hji := eq_or_ne j i
    · exact halone hj k hkj hk
    · obtain rfl | hki := eq_or_ne k i
      · exact (halone hk j hji hj).symm
      · rw [htable j hji] at hj ⊢
        rw [htable k hki] at hk ⊢
        exact hs.alone j hj k hkj hk

/-- An entry keeps its address, so that it stays the only one with it. -/
theorem World.Alone.congr {i : Index} (h : w.Alone i) (htable : ∀ j, j ≠ i → w'.table j = w.table j)
    (hip : (w'.table i).ipaddr = (w.table i).ipaddr) : w'.Alone i := by
  intro j hj hstate
  rw [htable j hj] at hstate ⊢
  rw [hip]
  exact h j hj hstate

section freeEntry

variable (w) (i : Index)

@[simp] theorem freeHeld_table (q : Option Held) : (w.freeHeld q).table = w.table := by
  cases q <;> rfl

@[simp] theorem freeHeld_netif (q : Option Held) : (w.freeHeld q).netif = w.netif := by
  cases q <;> rfl

@[simp] theorem freeHeld_tickets (q : Option Held) : (w.freeHeld q).tickets = w.tickets := by
  cases q <;> rfl

@[simp] theorem freeHeld_lastUpdate (q : Option Held) (ip : IpAddr) :
    lastUpdate (w.freeHeld q).log ip = lastUpdate w.log ip := by
  cases q with
  | none => rfl
  | some h => exact lastUpdate_of_stores_none rfl

@[simp] theorem etharpFreeEntry_self :
    (etharpFreeEntry w i).table i = { w.table i with q := none, state := .empty } :=
  World.setEntry_self ..

theorem etharpFreeEntry_of_ne {j : Index} (h : j ≠ i) :
    (etharpFreeEntry w i).table j = w.table j := by
  rw [etharpFreeEntry, World.setEntry_of_ne _ _ _ _ h, freeHeld_table]

@[simp] theorem etharpFreeEntry_netif : (etharpFreeEntry w i).netif = w.netif :=
  freeHeld_netif w _

@[simp] theorem etharpFreeEntry_lastUpdate (ip : IpAddr) :
    lastUpdate (etharpFreeEntry w i).log ip = lastUpdate w.log ip :=
  freeHeld_lastUpdate w _ ip

end freeEntry

/-- An entry is freed, whatever it was rewritten to. -/
theorem World.Sound.expire (hs : w.Sound) (i : Index) (e : Entry) :
    (etharpFreeEntry (w.setEntry i e) i).Sound := by
  apply hs.setEntry (i := i)
  · intro j hj
    rw [etharpFreeEntry_of_ne _ _ hj, World.setEntry_of_ne _ _ _ _ hj]
  · intro j _ _
    rw [etharpFreeEntry_lastUpdate, World.setEntry_log]
  · rw [etharpFreeEntry_self]
    exact .empty rfl rfl
  · rw [etharpFreeEntry_self]
    exact fun h => absurd rfl h

theorem World.Sound.free (hs : w.Sound) (i : Index) : (etharpFreeEntry w i).Sound := by
  have hsame : w.setEntry i (w.table i) = w := by
    rw [World.setEntry, Function.update_eq_self]
  rw [← hsame]
  exact hs.expire i _

/-- An entry is rewritten with its address kept, and nothing is logged. -/
theorem World.Sound.rewrite (hs : w.Sound) {i : Index} {e : Entry}
    (hip : e.ipaddr = (w.table i).ipaddr) (hi : e.Sound (lastUpdate w.log e.ipaddr))
    (halone : e.state ≠ .empty → w.Alone i) : (w.setEntry i e).Sound := by
  have htable : ∀ j, j ≠ i → (w.setEntry i e).table j = w.table j :=
    fun j hj => w.setEntry_of_ne i j e hj
  apply hs.setEntry htable
  · intro j _ _
    rfl
  · rwa [World.setEntry_self]
  · rw [World.setEntry_self]
    intro he
    apply (halone he).congr htable
    rw [World.setEntry_self, hip]

/-- One round of the timer: an entry that reaches its limit is freed. -/
theorem World.Sound.tmr (hs : w.Sound) (i : Index) : (tmrEntry w i).Sound := by
  have hi := hs.entry i
  by_cases hused : (w.table i).state = .empty ∨ (w.table i).state = .static
  · rw [tmrEntry, if_pos hused]
    exact hs
  · obtain ⟨hempty, hstatic⟩ := not_or.mp hused
    have hage := hi.young hempty hstatic
    have hage' : (w.table i).ctime + 1 < 256 := by
      rw [ARP_MAXAGE] at hage
      omega
    rw [tmrEntry, if_neg hused]
    simp only [Nat.mod_eq_of_lt hage']
    split
    · exact hs.expire i _
    · next hlimit =>
      obtain ⟨hmax, hpend⟩ := not_or.mp hlimit
      split
      · next hre =>
        rw [World.setEntry_setEntry]
        refine hs.rewrite (e := { w.table i with ctime := _, state := .stable }) rfl ?_ ?_
        · refine ⟨fun hq => ?_, ?_, fun _ _ => not_le.mp hmax, fun _ => ?_⟩
          · have hstate := hi.queue hq
            rw [hre] at hstate
            cases hstate
          · intro h
            cases h
          · apply hi.learnt
            rw [hre]
            rfl
        · exact fun _ => hs.alone i hempty
      · refine hs.rewrite (e := { w.table i with ctime := _ }) rfl ?_ ?_
        · refine ⟨hi.queue, fun h => ?_, fun _ _ => not_le.mp hmax, hi.learnt⟩
          exact not_le.mp fun hle => hpend ⟨h, hle⟩
        · exact fun _ => hs.alone i hempty

theorem World.Sound.claim (hs : w.Sound) {i : Index} (ip : IpAddr)
    (hempty : (w.table i).state = .empty) :
    (w.setEntry i { w.table i with ipaddr := ip, ctime := 0 }).Sound := by
  apply hs.setEntry (i := i)
  · intro j hj
    exact w.setEntry_of_ne i j _ hj
  · intro j _ _
    rfl
  · rw [World.setEntry_self]
    refine .empty ?_ hempty
    by_contra hq
    have hpend := (hs.entry i).queue hq
    rw [hempty] at hpend
    cases hpend
  · rw [World.setEntry_self]
    exact fun h => absurd hempty h

theorem World.Sound.mark (hs : w.Sound) (n : ℕ) {i : Index} (hnew : (w.table i).ctime = 0)
    (halone : w.Alone i) : (w.markPending n i).Sound := by
  rw [World.markPending]
  split
  · refine hs.rewrite (e := { w.table i with state := .pending, askedOn := n }) rfl ?_ ?_
    · refine ⟨fun _ => rfl, fun _ => ?_, fun _ _ => ?_, fun h => ?_⟩
      · rw [hnew]
        decide
      · rw [hnew]
        decide
      · cases h
    · exact fun _ => halone
  · exact hs

section settle

variable (w) (n : ℕ) (i : Index) (eth : EthAddr) (state : EtharpState)

@[simp] theorem settle_self :
    (w.settle n i eth state).table i =
      { w.table i with q := none, state := state, netif := some n, ethaddr := eth, ctime := 0 } := by
  rw [World.settle]
  split <;> exact World.setEntry_self ..

theorem settle_of_ne {j : Index} (h : j ≠ i) :
    (w.settle n i eth state).table j = w.table j := by
  rw [World.settle]
  split <;> exact World.setEntry_of_ne _ _ _ _ h

theorem settle_lastUpdate (ip : IpAddr) :
    lastUpdate (w.settle n i eth state).log ip =
      lastUpdate (w.log ++ [.updated (w.table i).ipaddr eth]) ip := by
  rw [World.settle]
  split
  · rfl
  · exact (lastUpdate_of_stores_none rfl).trans (lastUpdate_of_stores_none rfl)

@[simp] theorem settle_netif : (w.settle n i eth state).netif = w.netif := by
  rw [World.settle]
  split <;> rfl

end settle

theorem World.Sound.settle (hs : w.Sound) (n : ℕ) {i : Index} (eth : EthAddr) {state : EtharpState}
    (hstate : state.isStable) (halone : w.Alone i) : (w.settle n i eth state).Sound := by
  have htable : ∀ j, j ≠ i → (w.settle n i eth state).table j = w.table j :=
    fun j hj => settle_of_ne w n i eth state hj
  apply hs.setEntry htable
  · intro j hj he
    rw [settle_lastUpdate]
    exact lastUpdate_of_stores_none (stores_updated (halone j hj he).symm)
  · rw [settle_lastUpdate, settle_self, lastUpdate_updated]
    refine ⟨fun h => absurd rfl h, fun h => ?_, fun _ _ => ?_, fun _ => rfl⟩
    · exact absurd h (EtharpState.isStable_iff.mp hstate).2
    · exact Nat.zero_lt_succ _
  · intro _
    apply halone.congr htable
    rw [settle_self]

section hold

variable (w) (n : ℕ) (i : Index) (q : List Pbuf) (p : Packet)

@[simp] theorem hold_self :
    (w.hold n i q p).table i = { w.table i with q := some ⟨p, w.tickets, n⟩ } := by
  simp [World.hold, World.emit, World.setEntry]

theorem hold_of_ne {j : Index} (h : j ≠ i) : (w.hold n i q p).table j = w.table j := by
  change ((w.freeHeld (w.table i).q).setEntry i _).table j = _
  rw [World.setEntry_of_ne _ _ _ _ h, freeHeld_table]

theorem hold_lastUpdate (ip : IpAddr) :
    lastUpdate (w.hold n i q p).log ip = lastUpdate w.log ip := by
  rw [← freeHeld_lastUpdate w (w.table i).q]
  exact lastUpdate_of_stores_none rfl

end hold

theorem World.Sound.hold (hs : w.Sound) (n : ℕ) {i : Index} (q : List Pbuf) (p : Packet)
    (hpending : (w.table i).state = .pending) : (w.hold n i q p).Sound := by
  have htable : ∀ j, j ≠ i → (w.hold n i q p).table j = w.table j :=
    fun j hj => hold_of_ne w n i q p hj
  have hi := hs.entry i
  have hused : (w.table i).state ≠ .empty := by
    rw [hpending]
    decide
  apply hs.setEntry htable
  · intro j _ _
    exact hold_lastUpdate w n i q p _
  · rw [hold_lastUpdate, hold_self]
    exact ⟨fun _ => hpending, hi.pending, hi.young, hi.learnt⟩
  · intro _
    apply (hs.alone i hused).congr htable
    rw [hold_self]

theorem World.Sound.rerequest (hs : w.Sound) {i : Index} (hstable : (w.table i).state = .stable) :
    (w.setEntry i { w.table i with state := .stableRerequesting }).Sound := by
  have hi := hs.entry i
  refine hs.rewrite (e := { w.table i with state := .stableRerequesting }) rfl ?_ ?_
  · refine ⟨fun hq => ?_, ?_, fun _ _ => hi.young ?_ ?_, fun _ => hi.learnt ?_⟩
    · have hstate := hi.queue hq
      rw [hstable] at hstate
      cases hstate
    · intro h
      cases h
    · rw [hstable]
      decide
    · rw [hstable]
      decide
    · rw [hstable]
      rfl
  · intro _
    apply hs.alone i
    rw [hstable]
    decide

/-- The log grows by what is no stored address, and the table stays. -/
theorem World.Sound.congr (hs : w.Sound) (htable : w'.table = w.table)
    (hstored : ∀ ip, lastUpdate w'.log ip = lastUpdate w.log ip) : w'.Sound := by
  constructor
  · intro i
    rw [htable, hstored]
    exact hs.entry i
  · intro i hi
    rw [htable] at hi
    exact (hs.alone i hi).congr (fun j _ => congrFun htable j) (by rw [htable])

theorem Drop.sound (h : Drop w w') (hs : w.Sound) : w'.Sound := by
  cases h with
  | free i => exact hs.free i
  | emit hplain => exact hs.congr rfl fun ip => lastUpdate_of_stores_none (stores_of_plain hplain)
  | other htable _ hlog => exact hs.congr htable fun ip => by rw [hlog]

theorem Move.sound (h : Move own w w') (hs : w.Sound) : w'.Sound := by
  cases h with
  | drop h => exact h.sound hs
  | tmr i => exact hs.tmr i
  | claim i ip hempty => exact hs.claim ip hempty
  | mark n i hnew halone => exact hs.mark n hnew halone
  | settle n i eth hstate halone _ => exact hs.settle n eth hstate halone
  | hold n i _ hpending => exact hs.hold n _ _ hpending
  | rerequest i hstable => exact hs.rerequest hstable

theorem Moves.sound (h : Moves own w w') (hs : w.Sound) : w'.Sound := by
  induction h with
  | refl => exact hs
  | tail _ hm ih => exact hm.sound ih

end QuietLwip.Arp
