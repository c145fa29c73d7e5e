import QuietLwip.Foundation.Reorder
import QuietLwip.Tcp.Moves

/-!
# The pcb of a segment

`tcp_input` searches the active pcbs, those in TIME-WAIT and those that listen, one list after the other. The pcbs of
a list differ in their addresses and ports, so the choice does not depend on the order of the lists.
-/

namespace QuietLwip.Tcp

open Links Reorder

/-- The pcb that `tcp_input` passes a segment to. -/
inductive Chosen where
  | active (n : ℕ)
  | timeWait (n : ℕ)
  | listening (n : ℕ)
  | none
  deriving DecidableEq

namespace Stack

variable {t t' : Stack} {seg : Segment} {pcb : TcpPcb} {la lt ll la' lt' ll' : List ℕ}

/-- `tcp_input` up to the choice: the pcb is moved to the front of its list. -/
def demux (seg : Segment) (t : Stack) : Option (Stack × Chosen) := do
  match ← t.find .active seg.matches with
  | some (prev, n) => some (t.toFront .active prev n, .active n)
  | none =>
    match ← t.find .tw seg.matches with
    | some (_, n) => some (t, .timeWait n)
    | none =>
      match ← t.findListen seg with
      | some (prev, n) => some (t.toFront .listen prev n, .listening n)
      | none => some (t, .none)

/-- `tcp_input` from the choice on. -/
def dispatch (env : Env) (seg : Segment) (t : Stack) : Chosen → Option (Stack × Await)
  | .active n =>
    match (t.pcb n).conn.refusedData with
    | some fin => some (t.takeRefused n, .input (.refused fin) n seg)
    | none => t.tcpProcess env n seg
  | .timeWait n => some (t.tcpTimewaitInput env n seg, .done)
  | .listening n => t.tcpListenInput env n seg
  | .none => some (t, .done)

theorem tcpInput_demux (env : Env) (seg : Segment) (t : Stack) :
    t.tcpInput env seg = (t.demux seg).bind fun (t, chosen) => t.dispatch env seg chosen := by
  rw [tcpInput, demux]
  cases t.find .active seg.matches with
  | none => rfl
  | some found =>
    cases found with
    | some found => rfl
    | none =>
      simp only [Option.bind_eq_bind, Option.bind_some]
      cases t.find .tw seg.matches with
      | none => rfl
      | some found =>
        cases found with
        | some found => rfl
        | none =>
          simp only [Option.bind_some]
          cases t.findListen seg with
          | none => rfl
          | some found => cases found <;> rfl

/-- The three lists hold these pcbs, no more than there are, and none twice. -/
structure Lists (t : Stack) (la lt ll : List ℕ) : Prop where
  active : t.lists.At .active la
  timeWait : t.lists.At .tw lt
  listening : t.lists.At .listen ll
  pooled : la.length ≤ t.room ∧ lt.length ≤ t.room ∧ ll.length ≤ t.room
  apart : la.Disjoint lt ∧ la.Disjoint ll ∧ lt.Disjoint ll

/-- The pcbs of a list have different addresses and ports. -/
structure Distinct (t : Stack) (la lt ll : List ℕ) : Prop where
  active : (la.map fun n => ((t.pcb n).localIp, (t.pcb n).localPort, (t.pcb n).remoteIp,
    (t.pcb n).remotePort)).Nodup
  timeWait : (lt.map fun n => ((t.pcb n).localIp, (t.pcb n).localPort, (t.pcb n).remoteIp,
    (t.pcb n).remotePort)).Nodup
  listening : (ll.map fun n => ((t.pcb n).localIp, (t.pcb n).localPort)).Nodup

/-- A pcb listens at the address of the segment. -/
def specific (t : Stack) (seg : Segment) (n : ℕ) : Bool :=
  (t.pcb n).localPort == seg.dest && (t.pcb n).localIp == seg.destIp

/-- A pcb listens at any address. -/
def wildcard (t : Stack) (seg : Segment) (n : ℕ) : Bool :=
  (t.pcb n).localPort == seg.dest && (t.pcb n).localIp == 0

/-- An active connection, or else one in TIME-WAIT, or else a pcb that listens at the address, or else one that
listens at any -/
def chosen (t : Stack) (seg : Segment) (la lt ll : List ℕ) : Chosen :=
  match la.find? fun n => seg.matches (t.pcb n) with
  | some n => .active n
  | none =>
    match lt.find? fun n => seg.matches (t.pcb n) with
    | some n => .timeWait n
    | none =>
      match (ll.find? (t.specific seg)).or (ll.reverse.find? (t.wildcard seg)) with
      | some n => .listening n
      | none => .none

theorem Lists.find {w : PcbList} {l : List ℕ} (hl : t.lists.At w l) (hroom : l.length ≤ t.room)
    (p : TcpPcb → Bool) : (t.find w p).map (Option.map Prod.snd) = some (l.find? fun n => p (t.pcb n)) :=
  findFrom_find? hl hroom

theorem Lists.findListen (h : t.Lists la lt ll) (seg : Segment) :
    ∃ found, t.findListen seg = some found ∧
      found.map Prod.snd = (ll.find? (t.specific seg)).or (ll.reverse.find? (t.wildcard seg)) := by
  obtain ⟨found, hfound, hexact⟩ := Option.map_eq_some_iff.mp (Lists.find h.listening h.pooled.2.2
    fun lpcb => lpcb.localPort == seg.dest && lpcb.localIp == seg.destIp)
  change found.map Prod.snd = ll.find? (t.specific seg) at hexact
  rw [Stack.findListen, hfound, ← hexact]
  cases found with
  | some found => exact ⟨some found, rfl, rfl⟩
  | none =>
    have hwalk : t.walk .listen = some ll := ListAt.walk h.listening h.pooled.2.2
    simp only [Option.bind_eq_bind, Option.bind_some, hwalk]
    refine ⟨_, rfl, ?_⟩
    have hsnd : ((none :: ll.map some).zip ll).map Prod.snd = ll := List.map_snd_zip (by simp)
    have hreverse : ll.reverse = ((none :: ll.map some).zip ll).reverse.map Prod.snd := by
      rw [List.map_reverse, hsnd]
    rw [Option.map_none, Option.none_or, hreverse, List.find?_map]
    rfl

/-- Moving a pcb to the front leaves the other lists alone. -/
theorem toFront_apart {p : PcbLists} {w v : PcbList} {front back l : List ℕ} {n : ℕ} (hl : p.At w l)
    (hapart : l.Disjoint (front ++ n :: back)) (hwv : w ≠ v) : (p.toFront v front.getLast? n).At w l := by
  refine hl.toFront_other (fun m hm hmem => ?_) (fun hmem => hapart hmem (by simp)) hwv
  exact hapart hmem (List.mem_append_left _ (List.mem_of_getLast? hm))

theorem perm_toFront (front back : List ℕ) (n : ℕ) : (n :: (front ++ back)).Perm (front ++ n :: back) :=
  List.perm_middle.symm

theorem disjoint_of_perm {l₁ l₂ l₁' l₂' : List ℕ} (h : l₁.Disjoint l₂) (h₁ : l₁'.Perm l₁) (h₂ : l₂'.Perm l₂) :
    l₁'.Disjoint l₂' :=
  fun _ ha hb => h (h₁.subset ha) (h₂.subset hb)

theorem Lists.frontActive {front back : List ℕ} {n : ℕ} (h : t.Lists (front ++ n :: back) lt ll) :
    (t.toFront .active front.getLast? n).Lists (n :: (front ++ back)) lt ll := by
  have hperm := perm_toFront front back n
  refine ⟨h.active.toFront, toFront_apart h.timeWait h.apart.1.symm nofun,
    toFront_apart h.listening h.apart.2.1.symm nofun, ⟨?_, h.pooled.2⟩,
    disjoint_of_perm h.apart.1 hperm (.refl _), disjoint_of_perm h.apart.2.1 hperm (.refl _), h.apart.2.2⟩
  rw [hperm.length_eq]
  exact h.pooled.1

theorem Lists.frontListen {front back : List ℕ} {n : ℕ} (h : t.Lists la lt (front ++ n :: back)) :
    (t.toFront .listen front.getLast? n).Lists la lt (n :: (front ++ back)) := by
  have hperm := perm_toFront front back n
  refine ⟨toFront_apart h.active h.apart.2.1 nofun, toFront_apart h.timeWait h.apart.2.2 nofun,
    h.listening.toFront, ⟨h.pooled.1, h.pooled.2.1, ?_⟩, h.apart.1,
    disjoint_of_perm h.apart.2.1 (.refl _) hperm, disjoint_of_perm h.apart.2.2 (.refl _) hperm⟩
  rw [hperm.length_eq]
  exact h.pooled.2.2

/-- The choice, and what is left of the lists. -/
theorem Lists.demux (h : t.Lists la lt ll) (seg : Segment) :
    ∃ t' la' ll', t.demux seg = some (t', t.chosen seg la lt ll) ∧ t'.Lists la' lt ll' ∧ la'.Perm la ∧
      ll'.Perm ll ∧ t'.pcb = t.pcb := by
  obtain ⟨active, hactive, hla⟩ :=
    Option.map_eq_some_iff.mp (Lists.find h.active h.pooled.1 seg.matches)
  rw [Stack.demux, chosen, hactive, ← hla]
  cases active with
  | some active =>
    obtain ⟨prev, n⟩ := active
    obtain ⟨front, back, rfl, rfl⟩ := find_at h.active hactive
    exact ⟨_, _, ll, rfl, h.frontActive, perm_toFront front back n, .refl _, rfl⟩
  | none =>
    obtain ⟨timeWait, htimeWait, hlt⟩ :=
      Option.map_eq_some_iff.mp (Lists.find h.timeWait h.pooled.2.1 seg.matches)
    simp only [Option.bind_eq_bind, Option.bind_some, Option.map_none, htimeWait, ← hlt]
    cases timeWait with
    | some timeWait => exact ⟨t, la, ll, rfl, h, .refl _, .refl _, rfl⟩
    | none =>
      obtain ⟨listening, hlistening, hll⟩ := h.findListen seg
      simp only [Option.bind_some, Option.map_none, hlistening, ← hll]
      cases listening with
      | none => exact ⟨t, la, ll, rfl, h, .refl _, .refl _, rfl⟩
      | some listening =>
        obtain ⟨prev, n⟩ := listening
        obtain ⟨front, back, rfl, rfl⟩ := findListen_at h.listening hlistening
        exact ⟨_, la, _, rfl, h.frontListen, .refl _, perm_toFront front back n, rfl⟩

theorem matches_eq (hmatch : seg.matches pcb = true) :
    (pcb.localIp, pcb.localPort, pcb.remoteIp, pcb.remotePort) =
      (seg.destIp, seg.dest, seg.srcIp, seg.src) := by
  simp only [Segment.matches, Bool.and_eq_true, beq_iff_eq] at hmatch
  obtain ⟨⟨⟨hrport, hlport⟩, hrip⟩, hlip⟩ := hmatch
  rw [hlip, hlport, hrip, hrport]

/-- The choice is the same in every order of the lists. -/
theorem Distinct.chosen_perm (h : t.Distinct la lt ll) (seg : Segment) (ha : la'.Perm la) (ht : lt'.Perm lt)
    (hl : ll'.Perm ll) : t.chosen seg la' lt' ll' = t.chosen seg la lt ll := by
  have hactive : AtMostOne (fun n => seg.matches (t.pcb n)) la :=
    atMostOne_of_keys h.active _ fun n _ hn => matches_eq hn
  have htimeWait : AtMostOne (fun n => seg.matches (t.pcb n)) lt :=
    atMostOne_of_keys h.timeWait _ fun n _ hn => matches_eq hn
  have hexact : AtMostOne (t.specific seg) ll := by
    refine atMostOne_of_keys h.listening (seg.destIp, seg.dest) fun n _ hn => ?_
    simp only [specific, Bool.and_eq_true, beq_iff_eq] at hn
    rw [hn.1, hn.2]
  have hwildcard : AtMostOne (t.wildcard seg) ll := by
    refine atMostOne_of_keys h.listening (0, seg.dest) fun n _ hn => ?_
    simp only [wildcard, Bool.and_eq_true, beq_iff_eq] at hn
    rw [hn.1, hn.2]
  have hreverse : ll'.reverse.find? (t.wildcard seg) = ll.reverse.find? (t.wildcard seg) := by
    rw [hwildcard.find?_perm ((List.reverse_perm ll').trans hl), hwildcard.find?_perm (List.reverse_perm ll)]
  rw [chosen, chosen, hactive.find?_perm ha, htimeWait.find?_perm ht, hexact.find?_perm hl, hreverse]

/-- The same pcbs in other orders -/
structure Reordered (t t' : Stack) (la lt ll la' lt' ll' : List ℕ) : Prop where
  pcb : t'.pcb = t.pcb
  holds : t'.Lists la' lt' ll'
  active : la'.Perm la
  timeWait : lt'.Perm lt
  listening : ll'.Perm ll

theorem Lists.demux_order (h : t.Lists la lt ll) (hdistinct : t.Distinct la lt ll) (seg : Segment)
    (hreorder : t.Reordered t' la lt ll la' lt' ll') :
    (t'.demux seg).map Prod.snd = (t.demux seg).map Prod.snd := by
  obtain ⟨t₁, la₁, ll₁, hdemux, -⟩ := h.demux seg
  obtain ⟨t₂, la₂, ll₂, hdemux', -⟩ := hreorder.holds.demux seg
  have hchosen : t'.chosen seg la' lt' ll' = t.chosen seg la' lt' ll' := by
    have hspecific : t'.specific seg = t.specific seg := by
      funext n
      rw [specific, specific, hreorder.pcb]
    have hwildcard : t'.wildcard seg = t.wildcard seg := by
      funext n
      rw [wildcard, wildcard, hreorder.pcb]
    rw [chosen, chosen, hspecific, hwildcard, hreorder.pcb]
  rw [hdemux, hdemux', hchosen,
    hdistinct.chosen_perm seg hreorder.active hreorder.timeWait hreorder.listening]
  rfl

end Stack

end QuietLwip.Tcp
