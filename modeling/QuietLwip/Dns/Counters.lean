import QuietLwip.Dns.Requests

/-!
# Tickets, stamps and counters

What each function of the module does to the entries in use. A query that asks counts down to its timeout,
over the retries and the servers; an answer counts down its time to live; and an entry is used for a later request
when it is not pending.
-/

namespace QuietLwip.Dns

open Fallible Ip Transition

variable {s s' : Resolver} {i j : Index} {c : Call} {e e' : Entry} {x : Option Index}

/-! ### Entries -/

/-- The calls of `dns_tmr` up to the timeout at a server: the retries wait one, two and three. -/
def waits : ℕ → ℕ → ℕ
  | 0, _ => 7
  | 1, tmr => 5 + tmr
  | 2, tmr => 3 + tmr
  | _, tmr => tmr

/-- The calls of `dns_tmr` up to the timeout of a query -/
def Entry.left (e : Entry) : ℕ :=
  7 * (DNS_MAX_SERVERS - 1 - e.numdns) + waits e.retries.toNat e.tmr.toNat

/-- The counters of a query that asks a configured server -/
structure Entry.Counts (servers : ℕ → IpAddr) (e : Entry) : Prop where
  index : e.numdns < DNS_MAX_SERVERS
  server : !(servers e.numdns).isAny
  retries : e.retries.toNat < 4
  tmr : 1 ≤ e.tmr.toNat
  wait : e.tmr.toNat ≤ max 1 e.retries.toNat

/-- What becomes of a request or an answer, with a call of `dns_tmr` or without -/
inductive EntryStep (tick : Bool) (e e' : Entry) : Prop
  | gone (h : e'.state = .unused)
  | same (hidle : tick = false ∨ e.state = .unused) (h : e' = e)
  | asks (htick : tick = true) (h : e.state = .asking) (h' : e'.state = .asking)
    (hticket : e'.ticket = e.ticket) (hleft : e'.left + 1 = e.left)
  | ages (htick : tick = true) (h : e.state = .done) (hlast : e.ttl - 1 ≠ 0)
    (h' : e' = { e with ttl := e.ttl - 1 })
  | answered (htick : tick = false) (h : e.state = .asking) (h' : e'.state = .done)
    (hticket : e'.ticket = e.ticket)

/-- The entry of a request that came later -/
def Entry.Later (s : Resolver) (e : Entry) : Prop := s.tickets ≤ e.ticket

/-- The tickets and the stamps of the entries in use, and the counters of those that ask. The callback of `x`
is running. -/
structure Regular (x : Option Index) (s : Resolver) : Prop where
  server : !(s.servers 0).isAny
  settled : ∀ i, (s.table i).state ≠ .new
  asking : ∀ i, x ≠ some i → (s.table i).state = .asking → (s.table i).Counts s.servers
  busy : ∀ i, x = some i → (s.table i).state = .asking
  fresh : ∀ i, (s.table i).state ≠ .unused → (s.table i).ticket < s.tickets
  apart : ∀ i j, (s.table i).state ≠ .unused → (s.table j).state ≠ .unused →
    (s.table i).ticket = (s.table j).ticket → i = j
  -- the stamp of an entry is behind `dns_seqno` by the number of requests since
  stamp : ∀ i, (s.table i).state ≠ .unused →
    s.seqno.toNat = ((s.table i).seqno.toNat + (s.tickets - (s.table i).ticket)) % 256

/-! ### Writes -/

theorem Regular.emit (h : Regular x s) (ev : Event) : Regular x (s.emit ev) :=
  ⟨h.server, h.settled, h.asking, h.busy, h.fresh, h.apart, h.stamp⟩

/-- An entry is written that keeps its ticket and its stamp. -/
theorem Regular.setEntry (h : Regular x s) (hticket : e.ticket = (s.table i).ticket)
    (hseqno : e.seqno = (s.table i).seqno) (hused : e.state ≠ .unused → (s.table i).state ≠ .unused)
    (hnew : e.state ≠ .new) (hcounts : e.state = .asking → e.Counts s.servers)
    (hx : x = none ∨ x = some i) : Regular none (s.setEntry i e) := by
  have hentry : ∀ j, ((s.setEntry i e).table j).ticket = (s.table j).ticket ∧
      ((s.setEntry i e).table j).seqno = (s.table j).seqno ∧
      (((s.setEntry i e).table j).state ≠ .unused → (s.table j).state ≠ .unused) := fun j => by
    by_cases hj : j = i
    · subst hj
      rw [Resolver.setEntry_self]
      exact ⟨hticket, hseqno, hused⟩
    · rw [Resolver.setEntry_of_ne _ _ hj]
      exact ⟨rfl, rfl, id⟩
  refine ⟨h.server, fun j => ?_, fun j _ hasking => ?_, fun j hj => (nomatch hj), fun j hj => ?_,
    fun j k hj hk heq => ?_, fun j hj => ?_⟩
  · by_cases hj : j = i
    · subst hj
      rw [Resolver.setEntry_self]
      exact hnew
    · rw [Resolver.setEntry_of_ne _ _ hj]
      exact h.settled j
  · by_cases hj : j = i
    · subst hj
      rw [Resolver.setEntry_self] at hasking ⊢
      exact hcounts hasking
    · rw [Resolver.setEntry_of_ne _ _ hj] at hasking ⊢
      refine h.asking j (fun hxj => ?_) hasking
      obtain rfl | rfl := hx
      · cases hxj
      · exact hj (Option.some.inj hxj).symm
  · rw [(hentry j).1]
    exact h.fresh j ((hentry j).2.2 hj)
  · rw [(hentry j).1, (hentry k).1] at heq
    exact h.apart j k ((hentry j).2.2 hj) ((hentry k).2.2 hk) heq
  · rw [(hentry j).1, (hentry j).2.1]
    exact h.stamp j ((hentry j).2.2 hj)

/-- The query that has timed out, while its callback runs -/
theorem Regular.timeout (h : Regular none s) (hask : (s.table i).state = .asking)
    (hticket : e.ticket = (s.table i).ticket) (hseqno : e.seqno = (s.table i).seqno)
    (hstate : e.state = .asking) : Regular (some i) (s.setEntry i e) := by
  have hused : (s.table i).state ≠ .unused := by
    rw [hask]
    decide
  have hentry : ∀ j, ((s.setEntry i e).table j).ticket = (s.table j).ticket ∧
      ((s.setEntry i e).table j).seqno = (s.table j).seqno ∧
      ((s.setEntry i e).table j).state = (s.table j).state := fun j => by
    by_cases hj : j = i
    · subst hj
      rw [Resolver.setEntry_self]
      exact ⟨hticket, hseqno, hstate.trans hask.symm⟩
    · rw [Resolver.setEntry_of_ne _ _ hj]
      exact ⟨rfl, rfl, rfl⟩
  refine ⟨h.server, fun j => ?_, fun j hj hasking => ?_, fun j hj => ?_, fun j hj => ?_,
    fun j k hj hk heq => ?_, fun j hj => ?_⟩
  · rw [(hentry j).2.2]
    exact h.settled j
  · have hne : j ≠ i := fun heq => hj (by rw [heq])
    rw [Resolver.setEntry_of_ne _ _ hne] at hasking ⊢
    exact h.asking j (fun hnone => nomatch hnone) hasking
  · cases hj
    rw [Resolver.setEntry_self]
    exact hstate
  · rw [(hentry j).2.2] at hj
    rw [(hentry j).1]
    exact h.fresh j hj
  · rw [(hentry j).2.2] at hj
    rw [(hentry k).2.2] at hk
    rw [(hentry j).1, (hentry k).1] at heq
    exact h.apart j k hj hk heq
  · rw [(hentry j).2.2] at hj
    rw [(hentry j).1, (hentry j).2.1]
    exact h.stamp j hj

theorem Resolver.setEntry_flush (s : Resolver) (i : Index) (e : Entry) :
    flush (s.setEntry i e) i = s.setEntry i { e with state := .unused, found := none } := by
  rw [flush, Resolver.setEntry_self, Resolver.setEntry, Resolver.setEntry, Function.update_idem]
  rfl

theorem Regular.flush (h : Regular x s) (hx : x = none ∨ x = some i) : Regular none (flush s i) :=
  h.setEntry rfl rfl (fun hne => absurd rfl hne) DnsState.noConfusion DnsState.noConfusion hx

/-! ### Calls -/

/-- What calls do to the table: an entry that is not pending may be used for a later request. -/
structure Called (s s' : Resolver) : Prop where
  servers : s'.servers = s.servers
  tickets : s.tickets ≤ s'.tickets
  log : s.log ⊆ s'.log
  entry : ∀ j, s'.table j = s.table j ∨
    (s.table j).state.isPending = false ∧ (s'.table j).Later s ∧ (s'.table j).state = .asking

theorem Called.refl (s : Resolver) : Called s s := ⟨rfl, le_rfl, List.Subset.refl _, fun _ => .inl rfl⟩

theorem Called.trans {s₁ : Resolver} (h : Called s s₁) (h' : Called s₁ s') : Called s s' where
  servers := h'.servers.trans h.servers
  tickets := h.tickets.trans h'.tickets
  log := List.Subset.trans h.log h'.log
  entry j := by
    rcases h'.entry j with heq | ⟨hfree, hlater, hask⟩
    · rw [heq]
      exact h.entry j
    · rcases h.entry j with heq | ⟨-, -, hask'⟩
      · rw [heq] at hfree
        exact .inr ⟨hfree, h.tickets.trans hlater, hask⟩
      · rw [hask'] at hfree
        cases hfree

/-- The entry of a new request -/
def newEntry (s : Resolver) (i : Index) (c : Call) : Entry :=
  { s.table i with
    state := .asking, numdns := 0, tmr := 1, retries := 0, seqno := s.seqno, found := c.found, arg := c.arg
    name := CString.take c.hostname (DNS_MAX_NAME_LENGTH - 1), ticket := s.tickets }

/-- `dns_enqueue` finds the first server. -/
theorem dnsEnqueue_eq (hserver : !(s.servers 0).isAny) (c : Call) :
    dnsEnqueue s c = match chooseEntry s with
      | none => .ok (s, .mem)
      | some i => .ok ({ (s.emit (.enqueued s.tickets c)).setEntry i (newEntry s i c) with
          seqno := s.seqno + 1, tickets := s.tickets + 1 }, .inprogress) := by
  rw [dnsEnqueue]
  cases chooseEntry s with
  | none => rfl
  | some i =>
    dsimp only
    rw [checkNew]
    simp only [Resolver.setEntry, Resolver.emit, Function.update_self, Function.update_idem]
    rw [dnsSend, if_pos ⟨by decide, hserver⟩]
    rfl

theorem newEntry_counts (hserver : !(s.servers 0).isAny) (i : Index) (c : Call) :
    (newEntry s i c).Counts s.servers :=
  ⟨show 0 < DNS_MAX_SERVERS by decide, hserver, show (0 : UInt8).toNat < 4 by decide,
    show 1 ≤ (1 : UInt8).toNat by decide, show (1 : UInt8).toNat ≤ max 1 (0 : UInt8).toNat by decide⟩

theorem Regular.enqueue (h : Regular x s) (hx : ∀ k, x = some k → k ≠ i) (c : Call) :
    Regular x { (s.emit (.enqueued s.tickets c)).setEntry i (newEntry s i c) with
      seqno := s.seqno + 1, tickets := s.tickets + 1 } := by
  have hself : ((s.emit (.enqueued s.tickets c)).setEntry i (newEntry s i c)).table i = newEntry s i c :=
    Resolver.setEntry_self ..
  have hother : ∀ {j}, j ≠ i →
      ((s.emit (.enqueued s.tickets c)).setEntry i (newEntry s i c)).table j = s.table j :=
    fun hj => Resolver.setEntry_of_ne _ _ hj
  have hseqno : (s.seqno + 1).toNat = (s.seqno.toNat + 1) % 256 := UInt8.toNat_add ..
  refine ⟨h.server, fun j => ?_, fun j hj hasking => ?_, fun j hj => ?_, fun j hj => ?_,
    fun j k hj hk heq => ?_, fun j hj => ?_⟩ <;> dsimp only at *
  · by_cases hji : j = i
    · subst hji
      rw [hself]
      exact DnsState.noConfusion
    · rw [hother hji]
      exact h.settled j
  · by_cases hji : j = i
    · subst hji
      rw [hself]
      exact newEntry_counts h.server j c
    · rw [hother hji] at hasking ⊢
      exact h.asking j hj hasking
  · rw [hother (hx j hj)]
    exact h.busy j hj
  · by_cases hji : j = i
    · subst hji
      rw [hself]
      exact Nat.lt_succ_self _
    · rw [hother hji] at hj ⊢
      exact Nat.lt_succ_of_lt (h.fresh j hj)
  · by_cases hji : j = i <;> by_cases hki : k = i
    · rw [hji, hki]
    · subst hji
      rw [hother hki] at hk heq
      rw [hself] at heq
      exact absurd heq.symm (h.fresh k hk).ne
    · subst hki
      rw [hother hji] at hj heq
      rw [hself] at heq
      exact absurd heq (h.fresh j hj).ne
    · rw [hother hji] at hj heq
      rw [hother hki] at hk heq
      exact h.apart j k hj hk heq
  · rw [hseqno]
    by_cases hji : j = i
    · subst hji
      rw [hself]
      change (s.seqno.toNat + 1) % 256 = (s.seqno.toNat + (s.tickets + 1 - s.tickets)) % 256
      rw [Nat.add_sub_cancel_left]
    · rw [hother hji] at hj ⊢
      have hfresh := h.fresh j hj
      have hstamp := h.stamp j hj
      omega

theorem runCall_cases (h : runCall s c = .ok s') :
    s' = s ∨ (∃ ipaddr, s' = s.emit (.resolved c.hostname ipaddr)) ∨ ∃ r, dnsEnqueue s c = .ok (s', r) := by
  obtain ⟨⟨s₁, r⟩, hrun, rfl⟩ := map_ok h
  rw [dnsGethostbyname] at hrun
  dsimp only at hrun
  generalize (if ipaddrAddr c.hostname.1 = IPADDR_NONE then dnsLookup s c.hostname
    else ipaddrAddr c.hostname.1) = ipaddr at hrun
  by_cases hname : c.hostname.1 = [] ∨ DNS_MAX_NAME_LENGTH ≤ c.hostname.1.length
  · rw [if_pos hname] at hrun
    cases hrun
    exact .inl rfl
  · rw [if_neg hname] at hrun
    by_cases haddr : ipaddr ≠ IPADDR_NONE
    · rw [if_pos haddr] at hrun
      cases hrun
      exact .inr (.inl ⟨ipaddr, rfl⟩)
    · rw [if_neg haddr] at hrun
      exact .inr (.inr ⟨r, hrun⟩)

theorem Regular.call (h : Regular x s) (hcall : runCall s c = .ok s') : Regular x s' ∧ Called s s' := by
  obtain rfl | ⟨ipaddr, rfl⟩ | ⟨r, hrun⟩ := runCall_cases hcall
  · exact ⟨h, .refl _⟩
  · exact ⟨h.emit _, ⟨rfl, le_rfl, List.subset_append_left _ _, fun _ => .inl rfl⟩⟩
  · rw [dnsEnqueue_eq h.server] at hrun
    cases hi : chooseEntry s with
    | none =>
      rw [hi] at hrun
      cases hrun
      exact ⟨h, .refl _⟩
    | some i =>
      rw [hi] at hrun
      cases hrun
      have hfree := chooseEntry_free hi
      refine ⟨h.enqueue (fun k hk heq => ?_) c, rfl, Nat.le_succ _, List.subset_append_left _ _, fun j => ?_⟩
      · subst heq
        rw [h.busy k hk] at hfree
        cases hfree
      · by_cases hji : j = i
        · subst hji
          refine .inr ⟨hfree, ?_, ?_⟩ <;> dsimp only <;> rw [Resolver.setEntry_self]
          · exact le_refl s.tickets
          · rfl
        · exact .inl (Resolver.setEntry_of_ne _ _ hji)

theorem Regular.calls {calls : List Call} (h : Regular x s) (hcalls : runCalls s calls = .ok s') :
    Regular x s' ∧ Called s s' := by
  refine foldlM_ok (I := fun s' => Regular x s' ∧ Called s s') ?_ (Along.of_forall (fun _ _ _ => trivial) s)
    ⟨h, .refl s⟩ hcalls
  rintro s₁ c s₂ ⟨h₁, hcalled⟩ _ hc
  obtain ⟨h₂, hstep⟩ := h₁.call hc
  exact ⟨h₂, hcalled.trans hstep⟩

theorem Regular.callFound {a : Option IpAddr} {calls : List Call} (h : Regular x s)
    (hcalls : callFound s i a calls = .ok s') : Regular x s' ∧ Called s s' := by
  rw [Dns.callFound] at hcalls
  split at hcalls
  · cases hcalls
    exact ⟨h, .refl s⟩
  · obtain ⟨h', hcalled⟩ := (h.emit _).calls hcalls
    exact ⟨h', hcalled.servers, hcalled.tickets, List.Subset.trans (List.subset_append_left _ _) hcalled.log,
      hcalled.entry⟩

/-! ### The check of an entry -/

/-- What the check of an entry does to the table -/
structure Checked (s : Resolver) (i : Index) (s' : Resolver) : Prop where
  tickets : s.tickets ≤ s'.tickets
  log : s.log ⊆ s'.log
  self : EntryStep true (s.table i) (s'.table i)
  other : ∀ j, j ≠ i → s'.table j = s.table j ∨ (s'.table j).Later s ∧ (s'.table j).state = .asking

theorem Checked.setEntry (h : EntryStep true (s.table i) e) : Checked s i (s.setEntry i e) where
  tickets := le_rfl
  log := List.Subset.refl _
  self := by
    rw [Resolver.setEntry_self]
    exact h
  other j hj := .inl (Resolver.setEntry_of_ne _ _ hj)

theorem toNat_pred {n : UInt8} (h : 1 ≤ n.toNat) : (n - 1).toNat = n.toNat - 1 :=
  UInt8.toNat_sub_of_le _ _ (UInt8.le_iff_toNat_le.mpr h)

theorem toNat_succ {n : UInt8} (h : n.toNat < 4) : (n + 1).toNat = n.toNat + 1 := by
  rw [UInt8.toNat_add, Nat.mod_eq_of_lt]
  · rfl
  · exact (Nat.add_lt_add_right h 1).trans (by decide)

section asking

variable {servers : ℕ → IpAddr}

/-- The query waits. -/
theorem Entry.Counts.tick (h : e.Counts servers) (htmr : e.tmr - 1 ≠ 0) :
    { e with tmr := e.tmr - 1 }.Counts servers ∧ { e with tmr := e.tmr - 1 }.left + 1 = e.left := by
  obtain ⟨hindex, hserver, hretries, hpos, hwait⟩ := h
  have hpred := toNat_pred hpos
  have hne : (e.tmr - 1).toNat ≠ 0 := fun hzero => htmr (UInt8.toNat_inj.mp hzero)
  refine ⟨⟨hindex, hserver, hretries, ?_, ?_⟩, ?_⟩
  · exact Nat.one_le_iff_ne_zero.mpr hne
  · exact (hpred.trans_le (Nat.sub_le _ _)).trans hwait
  · rw [Entry.left, Entry.left]
    dsimp only
    rw [hpred]
    rw [hpred] at hne
    generalize e.retries.toNat = r at hretries hwait ⊢
    have hwaits : waits r (e.tmr.toNat - 1) + 1 = waits r e.tmr.toNat := by
      match r with
      | 0 | 1 | 2 | 3 =>
        simp only [waits]
        omega
      | r + 4 => omega
    omega

/-- The query is sent again. -/
theorem Entry.Counts.retry (h : e.Counts servers) (htmr : e.tmr - 1 = 0)
    (hretry : e.retries + 1 ≠ DNS_MAX_RETRIES) :
    { e with retries := e.retries + 1, tmr := e.retries + 1 }.Counts servers ∧
      { e with retries := e.retries + 1, tmr := e.retries + 1 }.left + 1 = e.left := by
  obtain ⟨hindex, hserver, hretries, hpos, hwait⟩ := h
  have hpred := toNat_pred hpos
  have hone : e.tmr.toNat = 1 := by
    rw [htmr] at hpred
    change 0 = _ at hpred
    omega
  have hsucc := toNat_succ hretries
  have hlt : e.retries.toNat ≠ 3 := fun hthree =>
    hretry (UInt8.toNat_inj.mp (by rw [hsucc, hthree]; rfl))
  refine ⟨⟨hindex, hserver, ?_, ?_, ?_⟩, ?_⟩
  · change (e.retries + 1).toNat < 4
    omega
  · change 1 ≤ (e.retries + 1).toNat
    omega
  · exact Nat.le_max_right _ _
  · rw [Entry.left, Entry.left]
    dsimp only
    rw [hsucc, hone]
    generalize e.retries.toNat = r at hretries hlt ⊢
    match r with
    | 0 | 1 | 2 => rfl
    | 3 => exact absurd rfl hlt
    | r + 4 => omega

/-- The next server is asked. -/
theorem Entry.Counts.change (h : e.Counts servers) (htmr : e.tmr - 1 = 0)
    (hretry : e.retries + 1 = DNS_MAX_RETRIES)
    (hnext : e.numdns + 1 < DNS_MAX_SERVERS ∧ !(servers (e.numdns + 1)).isAny) :
    { e with numdns := e.numdns + 1, tmr := 1, retries := 0 }.Counts servers ∧
      { e with numdns := e.numdns + 1, tmr := 1, retries := 0 }.left + 1 = e.left := by
  obtain ⟨hindex, hserver, hretries, hpos, hwait⟩ := h
  have hpred := toNat_pred hpos
  have hone : e.tmr.toNat = 1 := by
    rw [htmr] at hpred
    change 0 = _ at hpred
    omega
  have hthree : e.retries.toNat = 3 := by
    have hsucc := toNat_succ hretries
    rw [hretry] at hsucc
    change 4 = _ at hsucc
    omega
  refine ⟨⟨hnext.1, hnext.2, show (0 : UInt8).toNat < 4 by decide, show 1 ≤ (1 : UInt8).toNat by decide,
    show (1 : UInt8).toNat ≤ max 1 (0 : UInt8).toNat by decide⟩, ?_⟩
  have hmax : DNS_MAX_SERVERS = 2 := rfl
  have hzero : e.numdns = 0 := by omega
  rw [Entry.left, Entry.left, hone, hthree, hzero]
  rfl

end asking

theorem Regular.checkAsking {calls : List Call} (h : Regular none s) (hask : (s.table i).state = .asking)
    (hcheck : checkAsking s i calls = .ok s') : Regular none s' ∧ Checked s i s' := by
  have hcounts := h.asking i (fun hnone => nomatch hnone) hask
  have hset : ∀ {e : Entry}, e.state = .asking → e.ticket = (s.table i).ticket →
      e.seqno = (s.table i).seqno → e.Counts s.servers ∧ e.left + 1 = (s.table i).left →
        Regular none (s.setEntry i e) ∧ Checked s i (s.setEntry i e) := by
    intro e hstate hticket hseqno hnext
    refine ⟨h.setEntry hticket hseqno (fun _ => ?_) ?_ (fun _ => hnext.1) (.inl rfl), .setEntry ?_⟩
    · rw [hask]
      exact DnsState.noConfusion
    · rw [hstate]
      exact DnsState.noConfusion
    · exact .asks rfl hask hstate hticket hnext.2
  rw [Dns.checkAsking] at hcheck
  dsimp only at hcheck
  split at hcheck
  · next htmr =>
    split at hcheck
    · next hretry =>
      split at hcheck
      · next hnext =>
        cases hcheck
        exact hset hask rfl rfl (hcounts.change htmr hretry hnext)
      · obtain ⟨s₁, hcalls, hflush⟩ := bind_ok hcheck
        cases hflush
        have hout := h.timeout (e := { s.table i with
          tmr := (s.table i).tmr - 1, retries := (s.table i).retries + 1 }) hask rfl rfl hask
        obtain ⟨h₁, hcalled⟩ := hout.callFound hcalls
        refine ⟨h₁.flush (.inr rfl), hcalled.tickets, hcalled.log, .gone ?_, fun j hj => ?_⟩
        · rw [Dns.flush, Resolver.setEntry_self]
        · rw [Dns.flush, Resolver.setEntry_of_ne _ _ hj]
          have hentry := hcalled.entry j
          rw [Resolver.setEntry_of_ne _ _ hj] at hentry
          exact hentry.imp id fun hnew => hnew.2
    · next hretry =>
      obtain ⟨u, -, hok⟩ := bind_ok hcheck
      cases hok
      exact hset hask rfl rfl (hcounts.retry htmr hretry)
  · next htmr =>
    cases hcheck
    exact hset hask rfl rfl (hcounts.tick htmr)

theorem Regular.check {calls : List Call} (h : Regular none s) (hcheck : dnsCheckEntry s i calls = .ok s') :
    Regular none s' ∧ Checked s i s' := by
  rw [dnsCheckEntry] at hcheck
  split at hcheck
  · next hnew => exact absurd hnew (h.settled i)
  · next hask => exact h.checkAsking hask hcheck
  · next hdone =>
    cases hcheck
    have hused : (s.table i).state ≠ .unused := by
      rw [hdone]
      exact DnsState.noConfusion
    split
    · rw [Resolver.setEntry_flush]
      refine ⟨h.setEntry rfl rfl (fun hne => absurd rfl hne) DnsState.noConfusion DnsState.noConfusion
        (.inl rfl), .setEntry (.gone rfl)⟩
    · next hlast =>
      refine ⟨h.setEntry rfl rfl (fun _ => hused) (fun hnew => ?_) (fun hasking => ?_) (.inl rfl),
        .setEntry (.ages rfl hdone hlast rfl)⟩
      · exact absurd (hnew.symm.trans hdone) DnsState.noConfusion
      · exact absurd (hasking.symm.trans hdone) DnsState.noConfusion
  · next hunused =>
    cases hcheck
    exact ⟨h, le_rfl, List.Subset.refl _, .same (.inr hunused) rfl, fun j _ => .inl rfl⟩

/-! ### Steps -/

theorem EntryStep.used {tick : Bool} (h : EntryStep tick e e') (hused : e'.state ≠ .unused) :
    e.state ≠ .unused := by
  intro hunused
  cases h with
  | gone h => exact hused h
  | same _ h => exact hused (h ▸ hunused)
  | asks _ h => exact absurd (hunused.symm.trans h) DnsState.noConfusion
  | ages _ h => exact absurd (hunused.symm.trans h) DnsState.noConfusion
  | answered _ h => exact absurd (hunused.symm.trans h) DnsState.noConfusion

theorem EntryStep.ticket {tick : Bool} (h : EntryStep tick e e') (hused : e'.state ≠ .unused) :
    e'.ticket = e.ticket := by
  cases h with
  | gone h => exact absurd h hused
  | same _ h => rw [h]
  | asks _ _ _ hticket _ => exact hticket
  | ages _ _ _ h' => rw [h']
  | answered _ _ _ hticket => exact hticket

/-- What a step does to the table -/
structure Stepped (tick : Bool) (s s' : Resolver) : Prop where
  tickets : s.tickets ≤ s'.tickets
  log : s.log ⊆ s'.log
  entry : ∀ j, (s'.table j).Later s ∨ EntryStep tick (s.table j) (s'.table j)

/-- The check of the entries of a list -/
theorem Regular.loop {calls : Index → List Call} {is : List Index} (hnodup : is.Nodup) (h : Regular none s)
    (hloop : is.foldlM (fun s i => dnsCheckEntry s i (calls i)) s = .ok s') :
    Regular none s' ∧ s.tickets ≤ s'.tickets ∧ s.log ⊆ s'.log ∧ ∀ j, (s'.table j).Later s ∨
      if j ∈ is then EntryStep true (s.table j) (s'.table j) else s'.table j = s.table j := by
  induction is generalizing s with
  | nil =>
    cases hloop
    exact ⟨h, le_rfl, List.Subset.refl _, fun j => .inr (by rw [if_neg List.not_mem_nil])⟩
  | cons i is ih =>
    obtain ⟨hi, his⟩ := List.nodup_cons.mp hnodup
    obtain ⟨s₁, hcheck, hrest⟩ := bind_ok hloop
    obtain ⟨h₁, hchecked⟩ := h.check hcheck
    obtain ⟨h', htickets, hlog, hentry⟩ := ih his h₁ hrest
    refine ⟨h', hchecked.tickets.trans htickets, List.Subset.trans hchecked.log hlog, fun j => ?_⟩
    rcases hentry j with hlater | hentry
    · exact .inl (hchecked.tickets.trans hlater)
    · by_cases hj : j = i
      · subst hj
        rw [if_neg hi] at hentry
        rw [if_pos List.mem_cons_self, hentry]
        exact .inr hchecked.self
      · rcases hchecked.other j hj with hsame | ⟨hlater, -⟩
        · rw [hsame] at hentry
          simpa only [List.mem_cons, hj, false_or] using .inr hentry
        · split at hentry
          · next hmem =>
            by_cases hused : (s'.table j).state = .unused
            · rw [if_pos (List.mem_cons_of_mem _ hmem)]
              exact .inr (.gone hused)
            · exact .inl (hlater.trans (hentry.ticket hused).ge)
          · exact .inl (hentry ▸ hlater)

theorem Regular.tmr {calls : Index → List Call} (h : Regular none s) (htmr : dnsTmr s calls = .ok s') :
    Regular none s' ∧ Stepped true s s' := by
  obtain ⟨h', htickets, hlog, hentry⟩ := h.loop (List.nodup_finRange _) htmr
  refine ⟨h', htickets, hlog, fun j => ?_⟩
  have hj := hentry j
  rwa [if_pos (List.mem_finRange j)] at hj

/-- The entry was answered with the address and its time to live. -/
structure Answered (msg : List UInt8) (behind : Behind) (e e' : Entry) : Prop where
  ticket : e'.ticket = e.ticket
  ttl : ∃ ttl ipaddr, HasAddr e.name msg behind ttl ipaddr ∧ e'.ttl = min ttl DNS_MAX_TTL

/-- What a response does: an entry that is completed behind it was completed before, or is answered by it, and
the entry of the response does not ask any more. -/
structure Completes (msg : List UInt8) (behind : Behind) (s s' : Resolver) : Prop where
  done : ∀ j, (s'.table j).state = .done → s'.table j = s.table j ∨
    Processed s j msg ∧ Answered msg behind (s.table j) (s'.table j)
  settled : ∀ j, Processed s j msg → (s'.table j).Later s ∨ (s'.table j).state ≠ .asking

/-- The entry of a response is completed. -/
theorem Regular.accepted {msg : List UInt8} (h : Regular none s) (hproc : Processed s i msg)
    (hstate : e.state = .done) (hticket : e.ticket = (s.table i).ticket)
    (hseqno : e.seqno = (s.table i).seqno) :
    Regular none ((s.emit (.accepted (s.table i).name msg)).setEntry i e) := by
  refine (h.emit _).setEntry hticket hseqno (fun _ => ?_) (fun hnew => ?_) (fun hasking => ?_) (.inl rfl)
  · change (s.table i).state ≠ .unused
    rw [hproc.asking]
    exact DnsState.noConfusion
  · exact absurd (hnew.symm.trans hstate) DnsState.noConfusion
  · exact absurd (hasking.symm.trans hstate) DnsState.noConfusion

theorem Regular.recv {msg : List UInt8} {behind : Behind} {calls : List Call} (h : Regular none s)
    (hrecv : dnsRecv s msg behind calls = .ok s') :
    Regular none s' ∧ Stepped false s s' ∧ Completes msg behind s s' := by
  by_cases hproc : ∃ i, Processed s i msg
  · obtain ⟨i, hproc⟩ := hproc
    rw [hproc.exec] at hrecv
    have hother : ∀ {j e}, j ≠ i →
        ((s.emit (.accepted (s.table i).name msg)).setEntry i e).table j = s.table j :=
      fun hj => Resolver.setEntry_of_ne _ _ hj
    have hlog : ∀ e, s.log ⊆ ((s.emit (.accepted (s.table i).name msg)).setEntry i e).log :=
      fun _ => List.subset_append_left _ _
    have hset : ∀ e : Entry, e.state = .done → e.ticket = (s.table i).ticket → e.seqno = (s.table i).seqno →
        Regular none ((s.emit (.accepted (s.table i).name msg)).setEntry i e) :=
      fun _ hstate hticket hseqno => h.accepted hproc hstate hticket hseqno
    generalize hr : dnsAnswer (s.table i).name msg behind = r at hrecv
    match r with
    | none => cases hrecv
    | some (some (ttl, ipaddr)) =>
      rw [finish_addr] at hrecv
      generalize he : ({ s.table i with
        state := .done, err := (dnsHdr msg).flags2 &&& DNS_FLAG2_ERR_MASK
        ttl := min ttl DNS_MAX_TTL, ipaddr := ipaddr } : Entry) = e at hrecv
      have hticket : e.ticket = (s.table i).ticket := by rw [← he]
      have hstate : e.state = .done := by rw [← he]
      obtain ⟨h', hcalled⟩ := (hset e hstate hticket (by rw [← he])).callFound hrecv
      refine ⟨h', ⟨hcalled.tickets, List.Subset.trans (hlog e) hcalled.log, fun j => ?_⟩, fun j hj => ?_,
        fun j hj => ?_⟩
      · rcases hcalled.entry j with hsame | ⟨-, hlater, -⟩
        · right
          rw [hsame]
          by_cases hji : j = i
          · subst hji
            rw [Resolver.setEntry_self]
            exact .answered rfl hproc.asking hstate hticket
          · rw [hother hji]
            exact .same (.inl rfl) rfl
        · exact .inl hlater
      · rcases hcalled.entry j with hsame | ⟨-, -, hask⟩
        · rw [hsame]
          by_cases hji : j = i
          · subst hji
            rw [Resolver.setEntry_self]
            exact .inr ⟨hproc, hticket, ttl, ipaddr, dnsAnswer_eq_some.mp hr, by rw [← he]⟩
          · exact .inl (hother hji)
        · rw [hask] at hj
          cases hj
      · obtain rfl : j = i := Fin.ext (hj.id.symm.trans hproc.id)
        rcases hcalled.entry j with hsame | ⟨-, hlater, -⟩
        · rw [hsame, Resolver.setEntry_self, hstate]
          exact .inr DnsState.noConfusion
        · exact .inl hlater
    | some none =>
      obtain ⟨s₁, hcalls, hflush⟩ := bind_ok hrecv
      cases hflush
      rw [complete] at hcalls
      generalize he : ({ s.table i with
        state := .done, err := (dnsHdr msg).flags2 &&& DNS_FLAG2_ERR_MASK } : Entry) = e at hcalls
      obtain ⟨h₁, hcalled⟩ := (hset e (by rw [← he]) (by rw [← he]) (by rw [← he])).callFound hcalls
      refine ⟨h₁.flush (.inl rfl), ⟨hcalled.tickets, List.Subset.trans (hlog e) hcalled.log, fun j => ?_⟩,
        fun j hj => ?_, fun j hj => ?_⟩
      · rw [Dns.flush]
        by_cases hji : j = i
        · subst hji
          rw [Resolver.setEntry_self]
          exact .inr (.gone rfl)
        · rw [Resolver.setEntry_of_ne _ _ hji]
          rcases hcalled.entry j with hsame | ⟨-, hlater, -⟩
          · rw [hsame, hother hji]
            exact .inr (.same (.inl rfl) rfl)
          · exact .inl hlater
      · rw [Dns.flush] at hj ⊢
        by_cases hji : j = i
        · subst hji
          rw [Resolver.setEntry_self] at hj
          cases hj
        · rw [Resolver.setEntry_of_ne _ _ hji] at hj ⊢
          rcases hcalled.entry j with hsame | ⟨-, -, hask⟩
          · exact .inl (hsame.trans (hother hji))
          · rw [hask] at hj
            cases hj
      · obtain rfl : j = i := Fin.ext (hj.id.symm.trans hproc.id)
        rw [Dns.flush, Resolver.setEntry_self]
        exact .inr DnsState.noConfusion
  · rw [dnsRecv_dropped fun i hi => hproc ⟨i, hi⟩] at hrecv
    cases hrecv
    exact ⟨h, ⟨le_rfl, List.Subset.refl _, fun _ => .inr (.same (.inl rfl) rfl)⟩, fun _ _ => .inl rfl,
      fun j hj => absurd ⟨j, hj⟩ hproc⟩

def Op.isTmr : Op → Bool
  | .tmr _ => true
  | _ => false

theorem Regular.exec {op : Op} (h : Regular none s) (hexec : op.exec s = .ok s') :
    Regular none s' ∧ Stepped op.isTmr s s' := by
  cases op with
  | gethostbyname c =>
    obtain ⟨h', hcalled⟩ := h.call hexec
    refine ⟨h', hcalled.tickets, hcalled.log, fun j => ?_⟩
    rcases hcalled.entry j with hsame | ⟨-, hlater, -⟩
    · exact .inr (.same (.inl rfl) hsame)
    · exact .inl hlater
  | recv msg behind calls =>
    obtain ⟨h', hstepped, -⟩ := h.recv hexec
    exact ⟨h', hstepped⟩
  | tmr calls => exact h.tmr hexec
  | setserver numdns dnsserver =>
    cases hexec
    rw [dnsSetserver]
    split
    · next hset =>
      have hservers : ∀ k, !(s.servers k).isAny → !(Function.update s.servers numdns dnsserver k).isAny := by
        intro k hk
        by_cases hkn : k = numdns
        · subst hkn
          rw [Function.update_self]
          exact hset.2
        · rw [Function.update_of_ne hkn]
          exact hk
      refine ⟨⟨hservers 0 h.server, h.settled, fun i hi hasking => ?_, h.busy, h.fresh, h.apart, h.stamp⟩,
        le_rfl, List.Subset.refl _, fun _ => .inr (.same (.inl rfl) rfl)⟩
      have hcounts := h.asking i hi hasking
      exact ⟨hcounts.index, hservers _ hcounts.server, hcounts.retries, hcounts.tmr, hcounts.wait⟩
    · exact ⟨h, le_rfl, List.Subset.refl _, fun _ => .inr (.same (.inl rfl) rfl)⟩

theorem Resolver.Start.regular (h : s.Start) : Regular none s := by
  have hunused : ∀ i, ¬ (s.table i).state ≠ .unused := fun i => not_not.mpr (h.table i)
  refine ⟨h.servers, fun i hnew => ?_, fun i _ hasking => ?_, fun i hi => (nomatch hi),
    fun i hi => absurd hi (hunused i), fun i j hi => absurd hi (hunused i), fun i hi => absurd hi (hunused i)⟩
  · exact absurd ((h.table i).symm.trans hnew) DnsState.noConfusion
  · exact absurd ((h.table i).symm.trans hasking) DnsState.noConfusion

theorem reachable_regular {ok : Resolver → Op → Prop} (h : dns.ReachableWhile ok s) : Regular none s :=
  h.invariant (I := Regular none) (fun _ hs => Resolver.Start.regular hs)
    fun _ _ _ hs _ hexec => (Regular.exec hs hexec).1

end QuietLwip.Dns
