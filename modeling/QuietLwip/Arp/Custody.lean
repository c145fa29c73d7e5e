import QuietLwip.Arp.Entries

/-!
# The packets kept for pending entries

Each call of `etharp_query` that keeps a packet has a number, and the log tells what became of the
packet: it is kept by one entry, or was sent and freed, or was freed. A packet leaves by the interface
that the answer of its next hop comes in on, and `etharp_cleanup_netif` looks at the interface that an
entry was last stored for: both are the interface of the packet only under conditions on the calls.
-/

namespace QuietLwip.Arp

open Buffers Ip QuietLwip.Transition

/-! ### The history of a packet -/

/-- The call whose packet the event is about. -/
def Event.ticket : Event → Option ℕ
  | .queued k .. | .sent k .. | .freed k => some k
  | _ => none

def history (log : List Event) (k : ℕ) : List Event := log.filter (Event.ticket · = some k)

section history

variable {log : List Event} {ev : Event} {k : ℕ}

@[simp] theorem history_nil : history [] k = [] := rfl

theorem history_snoc (h : ev.ticket = some k) : history (log ++ [ev]) k = history log k ++ [ev] := by
  simp [history, List.filter_append, h]

theorem history_snoc_of_ne (h : ev.ticket ≠ some k) : history (log ++ [ev]) k = history log k := by
  simp [history, List.filter_append, h]

theorem ticket_of_plain (h : ev.plain) : ev.ticket = none := by
  cases ev <;> first | rfl | cases h

end history

/-- No entry owns the packet of the call `k`. -/
def World.Released (w : World) (k : ℕ) : Prop := ∀ i h, (w.table i).q = some h → h.ticket ≠ k

/-- Where the packet is that was given to `etharp_query` for `ip` on the interface `n`. -/
inductive World.Fate (w : World) (k n : ℕ) (ip : IpAddr) (q : List Pbuf) (p : Packet) : Prop
  | held (i : Index) (hheld : (w.table i).q = some ⟨p, k, n⟩) (hip : (w.table i).ipaddr = ip)
    (honly : ∀ j h, (w.table j).q = some h → h.ticket = k → j = i)
    (hist : history w.log k = [.queued k n ip q p])
  | sent (eth : EthAddr) (hlearnt : .updated ip eth ∈ w.log) (hreleased : w.Released k)
    (hist : history w.log k = [.queued k n ip q p, .sent k n ip eth p, .freed k])
  | dropped (hreleased : w.Released k) (hist : history w.log k = [.queued k n ip q p, .freed k])

/-- Every packet kept is accounted for. -/
structure World.Accounted (w : World) : Prop where
  fate : ∀ k < w.tickets, ∃ n ip q p, Keeps q p ∧ w.Fate k n ip q p
  later : ∀ k, w.tickets ≤ k → history w.log k = []
  issued : ∀ i h, (w.table i).q = some h → h.ticket < w.tickets

variable {w w' : World}

/-- What is not about the packet of the call `k` leaves its fate alone. -/
theorem World.Fate.congr {k n : ℕ} {ip : IpAddr} {q : List Pbuf} {p : Packet}
    (hf : w.Fate k n ip q p)
    (hq : ∀ i h, h.ticket = k → ((w'.table i).q = some h ↔ (w.table i).q = some h))
    (hip : ∀ i h, (w.table i).q = some h → h.ticket = k → (w'.table i).ipaddr = (w.table i).ipaddr)
    (hhist : history w'.log k = history w.log k) (hlog : ∀ ev, ev ∈ w.log → ev ∈ w'.log) :
    w'.Fate k n ip q p := by
  have hreleased : w.Released k → w'.Released k := fun hr i h hh hk =>
    hr i h ((hq i h hk).mp hh) hk
  cases hf with
  | held i hheld hi honly hist =>
    refine .held i ((hq i _ rfl).mpr hheld) ((hip i _ hheld rfl).trans hi) ?_ (hhist.trans hist)
    intro j h hh hk
    exact honly j h ((hq j h hk).mp hh) hk
  | sent eth hlearnt hr hist => exact .sent eth (hlog _ hlearnt) (hreleased hr) (hhist.trans hist)
  | dropped hr hist => exact .dropped (hreleased hr) (hhist.trans hist)

/-- A write that is about no kept packet. -/
theorem World.Accounted.congr (ha : w.Accounted) (hq : ∀ i, (w'.table i).q = (w.table i).q)
    (hip : ∀ i, (w.table i).q ≠ none → (w'.table i).ipaddr = (w.table i).ipaddr)
    (htickets : w'.tickets = w.tickets) (hhist : ∀ k, history w'.log k = history w.log k)
    (hlog : ∀ ev, ev ∈ w.log → ev ∈ w'.log) : w'.Accounted where
  fate k hk := by
    rw [htickets] at hk
    obtain ⟨n, ip, q, p, hkeeps, hf⟩ := ha.fate k hk
    refine ⟨n, ip, q, p, hkeeps, hf.congr (fun i h _ => by rw [hq i]) ?_ (hhist k) hlog⟩
    intro i h hh _
    apply hip
    rw [hh]
    exact Option.some_ne_none h
  later k hk := by
    rw [htickets] at hk
    rw [hhist]
    exact ha.later k hk
  issued i h hh := by
    rw [hq] at hh
    rw [htickets]
    exact ha.issued i h hh

/-- The packet of one entry is let go, and what the log says about it ends its history. -/
theorem World.Accounted.release (ha : w.Accounted) {i : Index} {h : Held}
    (hheld : (w.table i).q = some h) (hother : ∀ j, j ≠ i → w'.table j = w.table j)
    (hnone : (w'.table i).q = none) (htickets : w'.tickets = w.tickets)
    (hhist : ∀ k, k ≠ h.ticket → history w'.log k = history w.log k)
    (hlog : ∀ ev, ev ∈ w.log → ev ∈ w'.log)
    (hend : ∀ q, history w.log h.ticket =
        [.queued h.ticket h.netif (w.table i).ipaddr q h.packet] → w'.Released h.ticket →
      w'.Fate h.ticket h.netif (w.table i).ipaddr q h.packet) : w'.Accounted where
  fate k hk := by
    rw [htickets] at hk
    obtain ⟨n, ip, q, p, hkeeps, hf⟩ := ha.fate k hk
    refine ⟨n, ip, q, p, hkeeps, ?_⟩
    by_cases hki : k = h.ticket
    · cases hf with
      | held i' hheld' hip honly hist =>
        have hii : i = i' := honly i h hheld hki.symm
        subst hii
        rw [hheld] at hheld'
        cases hheld'
        subst hip
        apply hend q hist
        intro j h' hh' hk'
        obtain rfl | hj := eq_or_ne j i
        · rw [hnone] at hh'
          cases hh'
        · rw [hother j hj] at hh'
          exact hj (honly j h' hh' hk')
      | sent eth _ hr _ => exact absurd hki.symm (hr i h hheld)
      | dropped hr _ => exact absurd hki.symm (hr i h hheld)
    · apply hf.congr
      · intro j h' hk'
        obtain rfl | hj := eq_or_ne j i
        · rw [hnone, hheld]
          constructor
          · exact fun hh => nomatch hh
          · intro hh
            cases hh
            exact absurd hk'.symm hki
        · rw [hother j hj]
      · intro j h' hh' hk'
        obtain rfl | hj := eq_or_ne j i
        · rw [hheld] at hh'
          cases hh'
          exact absurd hk'.symm hki
        · rw [hother j hj]
      · exact hhist k hki
      · exact hlog
  later k hk := by
    rw [htickets] at hk
    have hlt := ha.issued i h hheld
    rw [hhist k (by omega)]
    exact ha.later k hk
  issued j h' hh' := by
    rw [htickets]
    obtain rfl | hj := eq_or_ne j i
    · rw [hnone] at hh'
      cases hh'
    · rw [hother j hj] at hh'
      exact ha.issued j h' hh'

/-! ### Moves -/

/-- The packet of an entry is freed, whatever else becomes of the entry. -/
theorem World.Accounted.freeHeld (ha : w.Accounted) (i : Index) {e : Entry} (he : e.q = none)
    (hip : e.ipaddr = (w.table i).ipaddr) :
    ((w.freeHeld (w.table i).q).setEntry i e).Accounted := by
  have hself : (((w.freeHeld (w.table i).q).setEntry i e).table i) = e := World.setEntry_self ..
  have hother : ∀ j, j ≠ i → ((w.freeHeld (w.table i).q).setEntry i e).table j = w.table j := by
    intro j hj
    rw [World.setEntry_of_ne _ _ _ _ hj, freeHeld_table]
  cases hq : (w.table i).q with
  | none =>
    rw [hq] at hself hother
    apply ha.congr
    · intro j
      obtain rfl | hj := eq_or_ne j i
      · rw [hself, he, hq]
      · rw [hother j hj]
    · intro j _
      obtain rfl | hj := eq_or_ne j i
      · rw [hself, hip]
      · rw [hother j hj]
    · rfl
    · exact fun _ => rfl
    · exact fun _ hev => hev
  | some h =>
    rw [hq] at hself hother
    refine ha.release hq hother (by rw [hself, he]) rfl ?_ ?_ ?_
    · intro k hk
      apply history_snoc_of_ne
      exact fun heq => hk (Option.some.inj heq).symm
    · exact fun ev hev => List.mem_append_left _ hev
    · intro q hist hreleased
      apply World.Fate.dropped hreleased
      have hsnoc : history (w.log ++ [.freed h.ticket]) h.ticket =
        history w.log h.ticket ++ [.freed h.ticket] := history_snoc rfl
      exact hsnoc.trans (by rw [hist]; rfl)

theorem World.Accounted.free (ha : w.Accounted) (i : Index) : (etharpFreeEntry w i).Accounted :=
  ha.freeHeld i rfl rfl

/-- An entry is rewritten with its packet and its address kept. -/
theorem World.Accounted.rewrite (ha : w.Accounted) (i : Index) (e : Entry)
    (hq : e.q = (w.table i).q) (hip : e.q ≠ none → e.ipaddr = (w.table i).ipaddr) :
    (w.setEntry i e).Accounted := by
  apply ha.congr
  · intro j
    obtain rfl | hj := eq_or_ne j i
    · rw [World.setEntry_self, hq]
    · rw [World.setEntry_of_ne _ _ _ _ hj]
  · intro j hj'
    obtain rfl | hj := eq_or_ne j i
    · rw [World.setEntry_self]
      exact hip (hq ▸ hj')
    · rw [World.setEntry_of_ne _ _ _ _ hj]
  · rfl
  · exact fun _ => rfl
  · exact fun _ hev => hev

theorem World.Accounted.tmr (ha : w.Accounted) (i : Index) : (tmrEntry w i).Accounted := by
  rw [tmrEntry]
  simp only
  split
  · exact ha
  · split
    · have hage : (w.setEntry i { w.table i with
          ctime := ((w.table i).ctime + 1) % 256 }).Accounted := ha.rewrite i _ rfl fun _ => rfl
      exact hage.free i
    · split
      · rw [World.setEntry_setEntry]
        exact ha.rewrite i _ rfl fun _ => rfl
      · exact ha.rewrite i _ rfl fun _ => rfl

/-- The packet that waited for the address is sent, by the interface it was kept for. -/
theorem World.Accounted.settle (ha : w.Accounted) (n : ℕ) {i : Index} (eth : EthAddr)
    (state : EtharpState) (hown : ∀ h, (w.table i).q = some h → h.netif = n) :
    (w.settle n i eth state).Accounted := by
  have hself := settle_self w n i eth state
  have hother : ∀ j, j ≠ i → (w.settle n i eth state).table j = w.table j :=
    fun j hj => settle_of_ne w n i eth state hj
  cases hq : (w.table i).q with
  | none =>
    have hlog : (w.settle n i eth state).log = w.log ++ [.updated (w.table i).ipaddr eth] := by
      rw [World.settle, hq]
      rfl
    have htickets : (w.settle n i eth state).tickets = w.tickets := by
      rw [World.settle, hq]
      rfl
    apply ha.congr
    · intro j
      obtain rfl | hj := eq_or_ne j i
      · rw [hself, hq]
      · rw [hother j hj]
    · intro j _
      obtain rfl | hj := eq_or_ne j i
      · rw [hself]
      · rw [hother j hj]
    · exact htickets
    · intro k
      rw [hlog]
      exact history_snoc_of_ne fun h => by cases h
    · intro ev hev
      rw [hlog]
      exact List.mem_append_left _ hev
  | some h =>
    have hlog : (w.settle n i eth state).log = w.log ++ [.updated (w.table i).ipaddr eth] ++
        [.sent h.ticket n (w.table i).ipaddr eth h.packet] ++ [.freed h.ticket] := by
      rw [World.settle, hq]
      rfl
    have htickets : (w.settle n i eth state).tickets = w.tickets := by
      rw [World.settle, hq]
      rfl
    refine ha.release hq hother (by rw [hself]) htickets ?_ ?_ ?_
    · intro k hk
      have hne : ∀ {ev : Event}, ev.ticket = some h.ticket → ev.ticket ≠ some k :=
        fun hev heq => hk (Option.some.inj (heq.symm.trans hev))
      rw [hlog, history_snoc_of_ne (hne rfl), history_snoc_of_ne (hne rfl)]
      exact history_snoc_of_ne fun h => by cases h
    · intro ev hev
      rw [hlog]
      exact List.mem_append_left _ (List.mem_append_left _ (List.mem_append_left _ hev))
    · intro q hist hreleased
      apply World.Fate.sent eth ?_ hreleased
      · have hplain : history (w.log ++ [.updated (w.table i).ipaddr eth]) h.ticket =
            history w.log h.ticket := history_snoc_of_ne fun h => by cases h
        rw [hlog, history_snoc rfl, history_snoc rfl, hplain, hist, hown h hq]
        rfl
      · rw [hlog]
        simp

/-- The entry gets the packet of a new call. -/
theorem World.Accounted.put (ha : w.Accounted) (n : ℕ) {i : Index} {q : List Pbuf} {p : Packet}
    (hkeeps : Keeps q p) (hnone : (w.table i).q = none)
    (hself : w'.table i = { w.table i with q := some ⟨p, w.tickets, n⟩ })
    (hother : ∀ j, j ≠ i → w'.table j = w.table j) (htickets : w'.tickets = w.tickets + 1)
    (hlog : w'.log = w.log ++ [.queued w.tickets n (w.table i).ipaddr q p]) : w'.Accounted where
  fate k hk := by
    rw [htickets] at hk
    obtain rfl | hlt : k = w.tickets ∨ k < w.tickets := by omega
    · refine ⟨n, (w.table i).ipaddr, q, p, hkeeps, .held i ?_ ?_ ?_ ?_⟩
      · rw [hself]
      · rw [hself]
      · intro j h hh hkj
        by_contra hj
        rw [hother j hj] at hh
        exact absurd hkj (ha.issued j h hh).ne
      · rw [hlog, history_snoc rfl, ha.later _ le_rfl]
        rfl
    · obtain ⟨m, ip, q', p', hkeeps', hf⟩ := ha.fate k hlt
      refine ⟨m, ip, q', p', hkeeps', hf.congr ?_ ?_ ?_ ?_⟩
      · intro j h hkj
        obtain rfl | hj := eq_or_ne j i
        · rw [hself, hnone]
          refine ⟨fun hh => ?_, fun hh => nomatch hh⟩
          cases hh
          exact absurd hkj hlt.ne'
        · rw [hother j hj]
      · intro j h hh _
        obtain rfl | hj := eq_or_ne j i
        · rw [hself]
        · rw [hother j hj]
      · rw [hlog]
        exact history_snoc_of_ne fun heq => hlt.ne' (Option.some.inj heq)
      · intro ev hev
        rw [hlog]
        exact List.mem_append_left _ hev
  later k hk := by
    rw [htickets] at hk
    rw [hlog, history_snoc_of_ne, ha.later k (by omega)]
    exact fun heq => absurd (Option.some.inj heq) (by omega)
  issued j h hh := by
    rw [htickets]
    obtain rfl | hj := eq_or_ne j i
    · rw [hself] at hh
      cases hh
      exact Nat.lt_succ_self _
    · rw [hother j hj] at hh
      exact (ha.issued j h hh).trans (Nat.lt_succ_self _)

theorem World.Accounted.hold (ha : w.Accounted) (n : ℕ) (i : Index) {q : List Pbuf} {p : Packet}
    (hkeeps : Keeps q p) : (w.hold n i q p).Accounted := by
  -- the packet that the entry owned is freed first
  set w₁ := (w.freeHeld (w.table i).q).setEntry i { w.table i with q := none } with hw₁
  have hfreed : w₁.Accounted := ha.freeHeld i rfl rfl
  have hself : w₁.table i = { w.table i with q := none } := World.setEntry_self ..
  have hother : ∀ j, j ≠ i → w₁.table j = w.table j := by
    intro j hj
    rw [hw₁, World.setEntry_of_ne _ _ _ _ hj, freeHeld_table]
  have htickets : w₁.tickets = w.tickets := freeHeld_tickets ..
  apply hfreed.put n hkeeps
  · rw [hself]
  · rw [hold_self, hself, htickets]
  · intro j hj
    rw [hold_of_ne _ _ _ _ _ hj, hother j hj]
  · rw [htickets]
    change (w.freeHeld _).tickets + 1 = _
    rw [freeHeld_tickets]
  · rw [hself, htickets]
    change (w.freeHeld _).log ++ [.queued (w.freeHeld _).tickets _ _ _ _] = _
    rw [freeHeld_tickets]
    rfl

theorem Move.accounted (h : Move True w w') (hs : w.Sound) (ha : w.Accounted) : w'.Accounted := by
  cases h with
  | drop h =>
    cases h with
    | free i => exact ha.free i
    | emit hplain =>
      refine ha.congr (fun _ => rfl) (fun _ _ => rfl) rfl (fun k => ?_) (fun ev hev => ?_)
      · apply history_snoc_of_ne
        rw [ticket_of_plain hplain]
        exact fun h => nomatch h
      · exact List.mem_append_left _ hev
    | other htable htickets hlog =>
      apply ha.congr (fun i => by rw [htable]) (fun i _ => by rw [htable]) htickets
      · intro k
        rw [hlog]
      · intro ev hev
        rwa [hlog]
  | tmr i => exact ha.tmr i
  | claim i ip hempty =>
    refine ha.rewrite i _ rfl fun hq => ?_
    have hpending := (hs.entry i).queue hq
    rw [hempty] at hpending
    cases hpending
  | mark n i _ _ =>
    rw [World.markPending]
    split
    · exact ha.rewrite i _ rfl fun _ => rfl
    · exact ha
  | settle n i eth _ _ hown => exact ha.settle n eth _ (hown trivial)
  | hold n i hkeeps _ => exact ha.hold n i hkeeps
  | rerequest i _ => exact ha.rewrite i _ rfl fun _ => rfl

theorem Moves.accounted (h : Moves True w w') (hs : w.Sound) (ha : w.Accounted) :
    w'.Accounted := by
  induction h with
  | refl => exact ha
  | tail hms hm ih => exact hm.accounted (Moves.sound hms hs) ih

/-! ### Cleaning up an interface -/

/-- What `etharp_cleanup_netif` makes of an entry. -/
def Entry.cleaned (e : Entry) (n : ℕ) : Entry :=
  if e.state ≠ .empty ∧ e.netif = some n then { e with q := none, state := .empty } else e

theorem cleanupEntry_table (n : ℕ) (w : World) (i : Index) :
    (cleanupEntry n w i).table i = (w.table i).cleaned n ∧
      ∀ j, j ≠ i → (cleanupEntry n w i).table j = w.table j := by
  rw [cleanupEntry, Entry.cleaned]
  split
  · exact ⟨etharpFreeEntry_self w i, fun j hj => etharpFreeEntry_of_ne w i hj⟩
  · exact ⟨rfl, fun _ _ => rfl⟩

theorem Entry.cleaned_cleaned (e : Entry) (n : ℕ) : (e.cleaned n).cleaned n = e.cleaned n := by
  by_cases h : e.state ≠ .empty ∧ e.netif = some n
  · rw [Entry.cleaned, Entry.cleaned, if_pos h, if_neg fun h' => h'.1 rfl]
  · rw [Entry.cleaned, Entry.cleaned, if_neg h, if_neg h]

theorem foldl_cleanup_table (n : ℕ) (l : List Index) (w : World) (i : Index) :
    (l.foldl (cleanupEntry n) w).table i =
      if i ∈ l then (w.table i).cleaned n else w.table i := by
  induction l generalizing w with
  | nil => rfl
  | cons j l ih =>
    obtain ⟨hself, hother⟩ := cleanupEntry_table n w j
    rw [List.foldl_cons, ih]
    obtain rfl | hi := eq_or_ne i j
    · rw [hself, Entry.cleaned_cleaned, if_pos (List.mem_cons_self ..), ite_self]
    · rw [hother i hi]
      simp only [List.mem_cons, hi, false_or]

theorem etharpCleanupNetif_table (w : World) (n : ℕ) (i : Index) :
    (etharpCleanupNetif w n).table i = (w.table i).cleaned n := by
  rw [etharpCleanupNetif, foldl_cleanup_table, if_pos (List.mem_finRange i)]

/-- The entry is one of the interface `n`: a query on `n` made it, or an answer on `n` resolved it. -/
def Entry.Of (e : Entry) (n : ℕ) : Prop :=
  match e.state with
  | .empty => False
  | .pending => e.askedOn = n
  | _ => e.netif = some n

/-- The interface that a pending entry was last stored for is `n` if and only if the entry, and the
packet in it, are of `n`. -/
def World.Tidy (w : World) (n : ℕ) : Prop :=
  ∀ i, (w.table i).state = .pending →
    ((w.table i).netif = some n ↔ (w.table i).askedOn = n) ∧
      ∀ h, (w.table i).q = some h → (h.netif = n ↔ (w.table i).askedOn = n)

/-- Nothing refers to the interface `n` any more, and what is of other interfaces is as it was. -/
structure World.CleanOf (w' w : World) (n : ℕ) : Prop where
  gone : ∀ i, (w'.table i).state ≠ .empty → (w'.table i).netif ≠ some n ∧ ¬ (w'.table i).Of n
  packets : ∀ i h, (w'.table i).q = some h → h.netif ≠ n
  others : ∀ i, ¬ (w.table i).Of n → w'.table i = w.table i

theorem cleanup_cleanOf (hs : w.Sound) {n : ℕ} (ht : w.Tidy n) :
    (etharpCleanupNetif w n).CleanOf w n := by
  have hstored : ∀ i, (w.table i).state ≠ .empty →
      ((w.table i).netif = some n ↔ (w.table i).Of n) := by
    intro i hi
    rw [Entry.Of]
    split
    · next h => exact absurd h hi
    · next h => exact (ht i h).1
    · exact Iff.rfl
  constructor
  · intro i hi
    rw [etharpCleanupNetif_table, Entry.cleaned] at hi ⊢
    split at hi
    · exact absurd rfl hi
    · next h =>
      rw [if_neg h]
      have hne : (w.table i).netif ≠ some n := fun heq => h ⟨hi, heq⟩
      exact ⟨hne, fun hof => hne ((hstored i hi).mpr hof)⟩
  · intro i h hh
    rw [etharpCleanupNetif_table, Entry.cleaned] at hh
    split at hh
    · cases hh
    · next hkeep =>
      have hpending : (w.table i).state = .pending := by
        apply (hs.entry i).queue
        rw [hh]
        exact Option.some_ne_none h
      intro hn
      apply hkeep
      refine ⟨by rw [hpending]; decide, ?_⟩
      exact (ht i hpending).1.mpr (((ht i hpending).2 h hh).mp hn)
  · intro i hof
    rw [etharpCleanupNetif_table, Entry.cleaned, if_neg]
    rintro ⟨hi, hn⟩
    exact hof ((hstored i hi).mp hn)

/-! ### Runs -/

theorem World.Start.accounted (h : w.Start) : w.Accounted where
  fate k hk := by
    rw [h.tickets] at hk
    exact absurd hk (Nat.not_lt_zero k)
  later k _ := by
    rw [h.log]
    rfl
  issued i held hheld := by
    rw [(h.table i).2] at hheld
    cases hheld

/-- An answer, or a static setting, for an address that a packet waits for comes with the interface
of the packet; an interface is cleaned up while the pending entries stored for it are its own. -/
def Op.Right (w : World) (op : Op) : Prop :=
  op.Owns w ∧ ∀ n, op = .cleanup n → w.Tidy n

/-- Every packet kept is in one place, and goes with the pending entry for its next hop. -/
structure World.Custody (w : World) : Prop where
  fate : ∀ k n ip q p, .queued k n ip q p ∈ w.log → Keeps q p ∧ w.Fate k n ip q p
  pending : ∀ i, (w.table i).q ≠ none → (w.table i).state = .pending

/-- The first event of a history says with which call, address and packet it began. -/
theorem World.Fate.queued {k n m : ℕ} {ip ip' : IpAddr} {q q' : List Pbuf} {p p' : Packet}
    (hf : w.Fate k m ip' q' p') (h : .queued k n ip q p ∈ w.log) :
    (n, ip, q, p) = (m, ip', q', p') := by
  have hmem : .queued k n ip q p ∈ history w.log k :=
    List.mem_filter.mpr ⟨h, decide_eq_true rfl⟩
  cases hf with
  | held _ _ _ _ hist =>
    rw [hist] at hmem
    simpa using hmem
  | sent _ _ _ hist =>
    rw [hist] at hmem
    simpa using hmem
  | dropped _ hist =>
    rw [hist] at hmem
    simpa using hmem

theorem World.Accounted.custody (hs : w.Sound) (ha : w.Accounted) : w.Custody where
  fate k n ip q p h := by
    have hk : k < w.tickets := by
      by_contra hk
      have hmem : .queued k n ip q p ∈ history w.log k :=
        List.mem_filter.mpr ⟨h, decide_eq_true rfl⟩
      rw [ha.later k (not_lt.mp hk)] at hmem
      cases hmem
    obtain ⟨m, ip', q', p', hkeeps, hf⟩ := ha.fate k hk
    cases hf.queued h
    exact ⟨hkeeps, hf⟩
  pending i := (hs.entry i).queue

/-- In every state reached by such operations each packet is kept, was sent or was dropped, and
cleaning up an interface leaves nothing of it and all of the others. -/
theorem packets_conserved (h : arp.ReachableWhile (fun w op => op.Right w) w) :
    w.Custody ∧ ∀ n, w.Tidy n → (etharpCleanupNetif w n).CleanOf w n := by
  have hboth : w.Sound ∧ w.Accounted := by
    apply h.invariant (I := fun w => w.Sound ∧ w.Accounted)
    · exact fun w hw => ⟨hw.sound, hw.accounted⟩
    · rintro w op w' ⟨hs, ha⟩ hop hstep
      have hruns : Runs True op.OnePacket w (op.exec w) := Op.exec_runs hs fun _ => hop.1
      change op.exec w = .ok w' at hstep
      rw [hstep] at hruns
      cases hruns with
      | ok hm => exact ⟨Moves.sound hm hs, Moves.accounted hm hs ha⟩
  exact ⟨hboth.2.custody hboth.1, fun n ht => cleanup_cleanOf hboth.1 ht⟩

/-- The table that an operation leaves, where it does not abort. -/
def after (w : World) (op : Op) : World :=
  match op.exec w with
  | .ok w' => w'
  | .error _ => w

/-- The answer of 10.0.0.2 to the host. -/
def answer (n : ℕ) : Op :=
  .arpInput ⟨true, .ok⟩ n 42
    ⟨0x020000000001#48, 0x020000000002#48, HWTYPE_ETHERNET, ETHTYPE_IP, ETHARP_HWADDR_LEN, 4,
      ARP_REPLY, 0x020000000002#48, 0x0a000002#32, 0x020000000001#48, 0x0a000001#32⟩

theorem after_step {op : Op} (h : (op.exec w).isOk) : arp.step w op (after w op) := by
  change op.exec w = .ok (after w op)
  rw [after]
  split
  · assumption
  · next hw =>
    rw [hw] at h
    cases h

theorem queryRom_step : arp.step emptyWorld queryRom (after emptyWorld queryRom) :=
  after_step rfl

/-- The packet for 10.0.0.2 is sent when the answer comes in on its interface. -/
theorem packets_conserved_answer :
    ∃ w, arp.ReachableWhile (fun w op => op.Right w) w ∧
      (∃ eth p, Event.sent 0 0 0x0a000002#32 eth p ∈ w.log) ∧
      w.Custody ∧ ∀ n, w.Tidy n → (etharpCleanupNetif w n).CleanOf w n := by
  have hquery : queryRom.Right emptyWorld := ⟨trivial, fun n h => nomatch h⟩
  have hwaits : ∀ i : Index, ∀ h ∈ ((after emptyWorld queryRom).table i).q, h.netif = 0 := by
    decide
  have hanswer : (answer 0).Right (after emptyWorld queryRom) :=
    ⟨fun _ i h hh _ => hwaits i h hh, fun n h => nomatch h⟩
  have hrun : arp.ReachableWhile (fun w op => op.Right w)
      (after (after emptyWorld queryRom) (answer 0)) :=
    ⟨_, .snoc (.snoc (.start emptyWorld_start) hquery queryRom_step) hanswer (after_step rfl)⟩
  refine ⟨_, hrun, ⟨0x020000000002#48, .byRef (pbufRef [romPbuf [1, 2] (by decide)]), ?_⟩,
    packets_conserved hrun⟩
  decide

/-- A pending entry is not cleaned up with the interface that its packet is for, and an answer on
another interface sends the packet there. -/
theorem packets_not_conserved :
    (∃ w, arp.Reachable w ∧ ¬ (etharpCleanupNetif w 0).CleanOf w 0) ∧
      ∃ w, arp.Reachable w ∧ ¬ w.Custody := by
  have hquery : arp.Reachable (after emptyWorld queryRom) :=
    (System.Reachable.of_start emptyWorld_start).step queryRom_step
  have hanswer : arp.Reachable (after (after emptyWorld queryRom) (answer 1)) :=
    hquery.step (after_step rfl)
  refine ⟨⟨_, hquery, fun hclean => ?_⟩, ⟨_, hanswer, fun hcustody => ?_⟩⟩
  · exact hclean.packets ⟨0, by decide⟩ ⟨.byRef (pbufRef [romPbuf [1, 2] (by decide)]), 0, 0⟩ (by decide) rfl
  · obtain ⟨-, hf⟩ := hcustody.fate 0 0 0x0a000002#32 [romPbuf [1, 2] (by decide)]
      (.byRef (pbufRef [romPbuf [1, 2] (by decide)])) (by decide)
    have hfree : ∀ i : Index, ((after (after emptyWorld queryRom) (answer 1)).table i).q = none := by
      decide
    cases hf with
    | held i hheld _ _ _ =>
      rw [hfree i] at hheld
      cases hheld
    | sent eth _ _ hist =>
      have hsent : (history (after (after emptyWorld queryRom) (answer 1)).log 0)[1]? =
          some (.sent 0 1 0x0a000002#32 0x020000000002#48
            (.byRef (pbufRef [romPbuf [1, 2] (by decide)]))) := by decide
      rw [hist] at hsent
      simp at hsent
    | dropped _ hist => exact absurd hist (by decide)

end QuietLwip.Arp
