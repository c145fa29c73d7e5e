import QuietLwip.Arp.Calls

/-!
# The entries of the ARP table

What holds of the table in every reachable state, and the packets that fail an assertion: `q` given
to `etharp_query` has to be one packet, and a packet with an empty last pbuf is taken for two.
-/

namespace QuietLwip.Arp

open Buffers Ip QuietLwip.Transition

structure World.TableRight (w : World) : Prop where
  distinct : ∀ i j, (w.table i).state ≠ .empty → (w.table j).state ≠ .empty →
    (w.table i).ipaddr = (w.table j).ipaddr → i = j
  queue : ∀ i, (w.table i).q ≠ none → (w.table i).state = .pending
  pending : ∀ i, (w.table i).state = .pending → (w.table i).ctime < ARP_MAXPENDING
  young : ∀ i, (w.table i).state ≠ .empty → (w.table i).state ≠ .static →
    (w.table i).ctime < ARP_MAXAGE
  learnt : ∀ i, (w.table i).state ≠ .empty → (w.table i).state ≠ .pending →
    lastUpdate w.log (w.table i).ipaddr = some (w.table i).ethaddr

theorem World.Start.sound {w : World} (h : w.Start) : w.Sound where
  entry i := .empty (h.table i).2 (h.table i).1
  alone i hi := absurd (h.table i).1 hi

theorem reachable_sound {ok : World → Op → Prop} {w : World} (h : arp.ReachableWhile ok w) :
    w.Sound := by
  apply h.invariant (I := World.Sound)
  · intro w hw
    exact hw.sound
  · intro w op w' hs _ hstep
    have hruns : Runs False op.OnePacket w (op.exec w) := Op.exec_runs hs fun ho => ho.elim
    change op.exec w = .ok w' at hstep
    rw [hstep] at hruns
    cases hruns with
    | ok hm => exact hm.sound hs

theorem World.Sound.tableRight {w : World} (hs : w.Sound) : w.TableRight where
  distinct i j hi hj hip := by
    by_contra hne
    exact hs.alone i hi j (Ne.symm hne) hj hip.symm
  queue i := (hs.entry i).queue
  pending i := (hs.entry i).pending
  young i := (hs.entry i).young
  learnt i hempty hpending := (hs.entry i).learnt (EtharpState.isStable_iff.mpr ⟨hempty, hpending⟩)

/-- In every state reached the table is right, and no operation on a single packet fails an
assertion of `etharp.c`. -/
theorem table_right {w : World} (h : arp.Reachable w) :
    w.TableRight ∧ ∀ op : Op, op.OnePacket → op.exec w ≠ .error .etharp := by
  have hs := reachable_sound h
  refine ⟨hs.tableRight, fun op hop herr => ?_⟩
  have hruns : Runs False op.OnePacket w (op.exec w) := Op.exec_runs hs fun ho => ho.elim
  rw [herr] at hruns
  cases hruns with
  | etharp hone => exact hone hop

/-! ### A packet with an empty last pbuf -/

/-- An interface at 10.0.0.1/24. -/
def hostNetif : Netif where
  ipAddr := 0x0a000001#32
  netmask := 0xffffff00#32
  gw := 0
  hwaddr := 0x020000000001#48
  mtu := 1500
  up := true
  linkUp := true
  broadcast := true
  etharp := true
  autoip := none

def emptyWorld : World where
  table _ := ⟨none, 0, none, 0, .empty, 0, 0⟩
  etharpCachedEntry := ⟨0, by decide⟩
  netif _ := hostNetif
  netifList := [0, 1]
  tickets := 0
  log := []

theorem emptyWorld_start : emptyWorld.Start := ⟨fun _ => ⟨rfl, rfl⟩, rfl, rfl⟩

def allOk : QueryEnv := ⟨⟨true, .ok⟩, .ok, some 100⟩

def romPbuf (data : List UInt8) (h : data.length < 2 ^ 16) : Pbuf :=
  ⟨1, data, 0, data.length, data.length, .rom, 0, 1, Buffers.wholeData_inMem data, h, h, Buffers.oneRef_lt⟩

/-- A packet of two bytes for 10.0.0.2. -/
def queryRom : Op := .query allOk 0 0x0a000002#32 (some [romPbuf [1, 2] (by decide)])

theorem table_right_queryRom :
    ∃ w, arp.Reachable w ∧ (∃ i, (w.table i).q ≠ none) ∧
      w.TableRight ∧ ∀ op : Op, op.OnePacket → op.exec w ≠ .error .etharp := by
  obtain ⟨w, hw⟩ : ∃ w, queryRom.exec emptyWorld = .ok w := ⟨_, rfl⟩
  have hrun : arp.Reachable w := ⟨_, .snoc (.start emptyWorld_start) trivial hw⟩
  refine ⟨w, hrun, ⟨⟨0, by decide⟩, ?_⟩, table_right hrun⟩
  cases hw
  exact fun h => nomatch h

/-- The same packet with an empty pbuf behind it is a well-formed chain, and fails the assertion
"no packet queues allowed!". -/
theorem table_right_empty_tail :
    ∃ w q, arp.Reachable w ∧ WellFormed q ∧
      (Op.query allOk 0 0x0a000002#32 (some q)).exec w = .error .etharp :=
  ⟨emptyWorld, [romPbuf [1, 2] (by decide), romPbuf [] (by decide)], .of_start emptyWorld_start,
    by decide, rfl⟩

end QuietLwip.Arp
