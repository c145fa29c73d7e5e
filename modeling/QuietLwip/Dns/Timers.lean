import QuietLwip.Dns.Counters

/-!
# The timers of the resolver

How long a query asks and an answer is kept, in calls of `dns_tmr`. A time to live of 0 is counted down, too.
-/

namespace QuietLwip.Dns

open Fallible Ip Transition

variable {s s' s'' : Resolver} {i j : Index} {c : Call} {e e' e'' : Entry} {x : Option Index}

/-! ### No assertion fails -/

theorem Regular.call_total (h : Regular x s) (c : Call) : ∃ s', runCall s c = .ok s' ∧ Regular x s' := by
  have hrun : ∃ s', runCall s c = .ok s' := by
    rw [runCall, dnsGethostbyname]
    dsimp only
    generalize (if ipaddrAddr c.hostname.1 = IPADDR_NONE then dnsLookup s c.hostname
      else ipaddrAddr c.hostname.1) = ipaddr
    split
    · exact ⟨_, rfl⟩
    · split
      · exact ⟨_, rfl⟩
      · rw [dnsEnqueue_eq h.server]
        cases chooseEntry s with
        | none => exact ⟨_, rfl⟩
        | some i => exact ⟨_, rfl⟩
  obtain ⟨s', hrun⟩ := hrun
  exact ⟨s', hrun, (h.call hrun).1⟩

theorem Regular.callFound_total (h : Regular x s) (i : Index) (a : Option IpAddr) (calls : List Call) :
    ∃ s', Dns.callFound s i a calls = .ok s' := by
  rw [Dns.callFound]
  split
  · exact ⟨s, rfl⟩
  · obtain ⟨s', hrun, -⟩ := foldlM_total calls (f := runCall)
      (fun s c hs => Regular.call_total hs c) (h.emit (.found (s.table i).ticket (s.table i).call a))
    exact ⟨s', hrun⟩

theorem Regular.check_total (h : Regular none s) (i : Index) (calls : List Call) :
    ∃ s', dnsCheckEntry s i calls = .ok s' ∧ Regular none s' := by
  have hrun : ∃ s', dnsCheckEntry s i calls = .ok s' := by
    rw [dnsCheckEntry]
    split
    · next hnew => exact absurd hnew (h.settled i)
    · next hask =>
      have hcounts := h.asking i (Option.some_ne_none i).symm hask
      rw [Dns.checkAsking]
      dsimp only
      split
      · split
        · split
          · exact ⟨_, rfl⟩
          · have hout := h.timeout (e := { s.table i with
              tmr := (s.table i).tmr - 1, retries := (s.table i).retries + 1 }) hask rfl rfl hask
            obtain ⟨s₁, hcalls⟩ := hout.callFound_total i none calls
            rw [hcalls]
            exact ⟨_, rfl⟩
        · rw [dnsSend, if_pos ⟨hcounts.index, hcounts.server⟩]
          exact ⟨_, rfl⟩
      · exact ⟨_, rfl⟩
    · exact ⟨_, rfl⟩
    · exact ⟨_, rfl⟩
  obtain ⟨s', hrun⟩ := hrun
  exact ⟨s', hrun, (h.check hrun).1⟩

theorem Regular.no_assertion (h : Regular none s) (op : Op) : op.exec s ≠ .error .assertion := by
  have hok : ∀ {r : Except Fault Resolver}, (∃ s', r = .ok s') → r ≠ .error .assertion := by
    rintro r ⟨s', rfl⟩ herr
    cases herr
  cases op with
  | gethostbyname c =>
    obtain ⟨s', hrun, -⟩ := h.call_total c
    exact hok ⟨s', hrun⟩
  | tmr calls =>
    obtain ⟨s', hrun, -⟩ := foldlM_total (List.finRange DNS_TABLE_SIZE)
      (f := fun s i => dnsCheckEntry s i (calls i)) (fun s i hs => Regular.check_total hs i (calls i)) h
    exact hok ⟨s', hrun⟩
  | setserver numdns dnsserver => exact hok ⟨_, rfl⟩
  | recv msg behind calls =>
    change dnsRecv s msg behind calls ≠ _
    by_cases hproc : ∃ i, Processed s i msg
    · obtain ⟨i, hproc⟩ := hproc
      have hset : ∀ e : Entry, e.state = .done → e.ticket = (s.table i).ticket → e.seqno = (s.table i).seqno →
          Regular none ((s.emit (.accepted (s.table i).name msg)).setEntry i e) :=
        fun e hstate hticket hseqno => h.accepted hproc hstate hticket hseqno
      rw [hproc.exec]
      match dnsAnswer (s.table i).name msg behind with
      | none => exact fun herr => nomatch herr
      | some (some (ttl, ipaddr)) =>
        rw [finish_addr]
        exact hok ((hset { s.table i with
          state := .done, err := (dnsHdr msg).flags2 &&& DNS_FLAG2_ERR_MASK
          ttl := min ttl DNS_MAX_TTL, ipaddr := ipaddr } rfl rfl rfl).callFound_total i (some ipaddr) calls)
      | some none =>
        obtain ⟨s₁, hcalls⟩ := (hset { s.table i with
          state := .done, err := (dnsHdr msg).flags2 &&& DNS_FLAG2_ERR_MASK } rfl rfl rfl).callFound_total
            i none calls
        rw [finish, complete, hcalls]
        exact hok ⟨_, rfl⟩
    · rw [dnsRecv_dropped fun i hi => hproc ⟨i, hi⟩]
      exact hok ⟨s, rfl⟩

/-! ### Times to live -/

/-- A completed entry has a time to live. -/
def Lasting (s : Resolver) : Prop := ∀ i, (s.table i).state = .done → (s.table i).ttl ≠ 0

/-- No response is taken with a time to live of 0. -/
def Op.Lasts (s : Resolver) : Op → Prop
  | .recv msg behind _ => ∀ i, Processed s i msg → ∀ ttl ipaddr,
      HasAddr (s.table i).name msg behind ttl ipaddr → ttl ≠ 0
  | _ => True

theorem min_ttl_ne_zero {ttl : UInt32} (h : ttl ≠ 0) : min ttl DNS_MAX_TTL ≠ 0 := by
  change (if ttl ≤ DNS_MAX_TTL then ttl else DNS_MAX_TTL) ≠ 0
  split
  · exact h
  · decide

theorem Lasting.check {calls : List Call} (hl : Lasting s) (h : Regular none s)
    (hcheck : dnsCheckEntry s i calls = .ok s') : Lasting s' := by
  intro j hj
  obtain ⟨-, hchecked⟩ := h.check hcheck
  by_cases hji : j = i
  · subst hji
    cases hchecked.self with
    | gone hgone =>
      rw [hgone] at hj
      cases hj
    | same _ hsame =>
      rw [hsame] at hj ⊢
      exact hl j hj
    | asks _ _ hask =>
      rw [hask] at hj
      cases hj
    | ages _ _ hlast hages =>
      rw [hages]
      exact hlast
    | answered htick => cases htick
  · rcases hchecked.other j hji with hsame | ⟨-, hask⟩
    · rw [hsame] at hj ⊢
      exact hl j hj
    · rw [hask] at hj
      cases hj

/-- At every check of a call of `dns_tmr` the counters are above 0. -/
def CountersPositive (s : Resolver) (calls : Index → List Call) : Prop :=
  Along (fun s i => dnsCheckEntry s i (calls i)) (fun s i =>
    ((s.table i).state = .asking → (s.table i).tmr ≠ 0) ∧ ((s.table i).state = .done → (s.table i).ttl ≠ 0))
    (List.finRange DNS_TABLE_SIZE) s

theorem counters_positive (h : Regular none s) (hl : Lasting s) (calls : Index → List Call) :
    CountersPositive s calls := by
  rw [CountersPositive]
  induction List.finRange DNS_TABLE_SIZE generalizing s with
  | nil => trivial
  | cons i is ih =>
    refine ⟨⟨fun hask hzero => ?_, hl i⟩, fun s' hs' => ih (h.check hs').1 (hl.check h hs')⟩
    have hpos := (h.asking i (fun hnone => nomatch hnone) hask).tmr
    rw [hzero] at hpos
    exact absurd hpos (by decide)

theorem Lasting.exec {op : Op} (hl : Lasting s) (h : Regular none s) (hop : op.Lasts s)
    (hexec : op.exec s = .ok s') : Lasting s' := by
  cases op with
  | gethostbyname c =>
    intro j hj
    rcases (h.call hexec).2.entry j with hsame | ⟨-, -, hask⟩
    · rw [hsame] at hj ⊢
      exact hl j hj
    · rw [hask] at hj
      cases hj
  | recv msg behind calls =>
    intro j hj
    obtain ⟨-, -, hcompletes⟩ := h.recv hexec
    rcases hcompletes.done j hj with hsame | ⟨hproc, hanswered⟩
    · rw [hsame] at hj ⊢
      exact hl j hj
    · obtain ⟨ttl, ipaddr, haddr, httl⟩ := hanswered.ttl
      rw [httl]
      exact min_ttl_ne_zero (hop j hproc ttl ipaddr haddr)
  | tmr calls =>
    refine (foldlM_ok (I := fun s => Regular none s ∧ Lasting s) ?_ (Along.of_forall (fun _ _ _ => trivial) s)
      ⟨h, hl⟩ hexec).2
    rintro s₁ i s₂ ⟨h₁, hl₁⟩ _ hcheck
    exact ⟨(h₁.check hcheck).1, hl₁.check h₁ hcheck⟩
  | setserver numdns dnsserver =>
    cases hexec
    rw [dnsSetserver]
    split <;> exact hl

/-! ### From a state on -/

/-- What becomes of a request or an answer in `k` calls of `dns_tmr` -/
structure EntrySince (k : ℕ) (e e' : Entry) : Prop where
  used : e.state ≠ .unused
  ticket : e'.ticket = e.ticket
  asks : e'.state = .asking → e.state = .asking ∧ e'.left + k = e.left
  kept : e.state = .done → e'.state = .done ∧ (e.ttl ≠ 0 → e'.ttl ≠ 0 ∧ e'.ttl.toNat + k = e.ttl.toNat)

theorem EntrySince.step {k : ℕ} {tick : Bool} (h : EntrySince k e e') (hs : EntryStep tick e' e'')
    (hused : e''.state ≠ .unused) (hused' : e'.state ≠ .unused) : EntrySince (k + tick.toNat) e e'' := by
  cases hs with
  | gone hgone => exact absurd hgone hused
  | same hidle hsame =>
    obtain rfl | hunused := hidle
    · rw [hsame]
      exact h
    · exact absurd hunused hused'
  | asks htick hask hask' hticket hleft =>
    subst htick
    refine ⟨h.used, hticket.trans h.ticket, fun _ => ?_, fun hdone => ?_⟩
    · obtain ⟨hask₀, hleft₀⟩ := h.asks hask
      refine ⟨hask₀, ?_⟩
      change e''.left + (k + 1) = e.left
      omega
    · exact absurd (hask.symm.trans (h.kept hdone).1) DnsState.noConfusion
  | ages htick hdone hlast hages =>
    subst htick hages
    refine ⟨h.used, h.ticket, fun hask => absurd (hask.symm.trans hdone) DnsState.noConfusion,
      fun hdone₀ => ⟨hdone, fun httl => ⟨hlast, ?_⟩⟩⟩
    obtain ⟨httl', hcount⟩ := (h.kept hdone₀).2 httl
    have hpos : 1 ≤ e'.ttl.toNat := Nat.one_le_iff_ne_zero.mpr fun hzero => httl' (UInt32.toNat_inj.mp hzero)
    have hpred : (e'.ttl - 1).toNat = e'.ttl.toNat - 1 :=
      UInt32.toNat_sub_of_le _ _ (UInt32.le_iff_toNat_le.mpr hpos)
    change (e'.ttl - 1).toNat + (k + 1) = e.ttl.toNat
    omega
  | answered htick hask hdone hticket =>
    subst htick
    refine ⟨h.used, hticket.trans h.ticket, fun hask' => absurd (hdone.symm.trans hask') DnsState.noConfusion,
      fun hdone₀ => absurd (hask.symm.trans (h.kept hdone₀).1) DnsState.noConfusion⟩

/-- What becomes of the table in `k` calls of `dns_tmr` -/
structure Since (s : Resolver) (k : ℕ) (s' : Resolver) : Prop where
  regular : Regular none s'
  tickets : s.tickets ≤ s'.tickets
  log : s.log ⊆ s'.log
  entry : ∀ j, (s'.table j).state ≠ .unused → (s'.table j).ticket < s.tickets →
    EntrySince k (s.table j) (s'.table j)

theorem run_since {ok : Resolver → Op → Prop} {ops : List Op} (h : Regular none s)
    (hrun : (dns.startAt s).Run ok ops s') : Since s (ops.countP Op.isTmr) s' := by
  induction hrun with
  | start heq =>
    obtain rfl := heq
    exact ⟨h, le_rfl, List.Subset.refl _, fun j hj _ => ⟨hj, rfl, fun hask => ⟨hask, rfl⟩,
      fun hdone => ⟨hdone, fun httl => ⟨httl, rfl⟩⟩⟩⟩
  | @snoc ops s₁ s₂ op _ _ hexec ih =>
    obtain ⟨h₂, hstepped⟩ := ih.regular.exec hexec
    have hcount : (ops ++ [op]).countP Op.isTmr = ops.countP Op.isTmr + op.isTmr.toNat := by
      rw [List.countP_append, List.countP_singleton]
      cases op.isTmr <;> rfl
    refine ⟨h₂, ih.tickets.trans hstepped.tickets, List.Subset.trans ih.log hstepped.log, fun j hj hold => ?_⟩
    rw [hcount]
    rcases hstepped.entry j with hlater | hstep
    · exact absurd (ih.tickets.trans hlater) (Nat.not_le.mpr hold)
    · have hused : (s₁.table j).state ≠ .unused := hstep.used hj
      exact (ih.entry j hused (hstep.ticket hj ▸ hold)).step hstep hj hused

theorem Entry.Counts.left_bounds {servers : ℕ → IpAddr} (h : e.Counts servers) :
    1 ≤ e.left ∧ e.left ≤ 7 * DNS_MAX_SERVERS := by
  obtain ⟨hindex, -, hretries, hpos, hwait⟩ := h
  have hmax : DNS_MAX_SERVERS = 2 := rfl
  have hwaits : 1 ≤ waits e.retries.toNat e.tmr.toNat ∧ waits e.retries.toNat e.tmr.toNat ≤ 7 := by
    generalize e.retries.toNat = r at hretries hwait ⊢
    match r with
    | 0 | 1 | 2 | 3 =>
      simp only [waits]
      omega
    | r + 4 => omega
  rw [Entry.left]
  omega

/-! ### The law -/

/-- The steps that are within the law: no callback of a failed response takes the entry of that response, and no
response is taken with a time to live of 0. -/
def Op.Timely (s : Resolver) (op : Op) : Prop := op.Spares s ∧ op.Lasts s

theorem timely_lasting (h : dns.ReachableWhile (fun s op => op.Timely s) s) : Regular none s ∧ Lasting s := by
  apply h.invariant (I := fun s => Regular none s ∧ Lasting s)
  · refine fun s hs => ⟨Resolver.Start.regular hs, fun i hdone => ?_⟩
    rw [Resolver.Start.table hs i] at hdone
    cases hdone
  · rintro s op s' ⟨hr, hl⟩ hop hexec
    exact ⟨(hr.exec hexec).1, hl.exec hr hop.2 hexec⟩

theorem timely_owed (h : dns.ReachableWhile (fun s op => op.Timely s) s) : Owed none s := by
  apply h.invariant (I := Owed none)
  · exact fun s hs => Resolver.Start.owed hs
  · exact fun s op s' hs hop hexec => Owed.exec hs hop.1 hexec

/-- An answer is kept for its time to live. -/
theorem answer_expires {msg : List UInt8} {behind : Behind} {calls : List Call} (h : Regular none s)
    (hrecv : dnsRecv s msg behind calls = .ok s') (hproc : Processed s i msg) {ttl : UInt32} {ipaddr : IpAddr}
    (haddr : HasAddr (s.table i).name msg behind ttl ipaddr) (httl : ttl ≠ 0)
    {ok : Resolver → Op → Prop} {ops : List Op} (hrun : (dns.startAt s').Run ok ops s'')
    (hticks : (min ttl DNS_MAX_TTL).toNat ≤ ops.countP Op.isTmr) :
    ¬ ((s''.table i).state = .done ∧ (s''.table i).ticket = (s.table i).ticket) := by
  rintro ⟨hdone, hticket⟩
  obtain ⟨h', hstepped, hcompletes⟩ := h.recv hrecv
  have hused : (s.table i).state ≠ .unused := by
    rw [hproc.asking]
    exact DnsState.noConfusion
  have hsince := run_since h' hrun
  have hentry := hsince.entry i (by rw [hdone]; exact DnsState.noConfusion)
    (hticket.trans_lt ((h.fresh i hused).trans_le hstepped.tickets))
  have hfresh := h.fresh i hused
  -- the entry has been completed by the response
  have hsame : (s'.table i).ticket < s.tickets := by
    rw [← hentry.ticket, hticket]
    exact hfresh
  have hdone' : (s'.table i).state = .done := by
    cases hstate : (s'.table i).state with
    | done => rfl
    | unused => exact absurd hstate hentry.used
    | new => exact absurd hstate (h'.settled i)
    | asking =>
      rcases hcompletes.settled i hproc with hlater | hnot
      · exact absurd hlater (Nat.not_le.mpr hsame)
      · exact absurd hstate hnot
  rcases hcompletes.done i hdone' with heq | ⟨-, hanswered⟩
  · rw [heq, hproc.asking] at hdone'
    cases hdone'
  · obtain ⟨ttl', ipaddr', haddr', hmin⟩ := hanswered.ttl
    have heq := (dnsAnswer_eq_some.mpr haddr').symm.trans (dnsAnswer_eq_some.mpr haddr)
    obtain rfl : ttl' = ttl := (Prod.mk.inj (Option.some.inj (Option.some.inj heq))).1
    obtain ⟨hpos, hcount⟩ := (hentry.kept hdone').2 (hmin ▸ min_ttl_ne_zero httl)
    have hone : (s''.table i).ttl.toNat ≠ 0 := fun hzero => hpos (UInt32.toNat_inj.mp hzero)
    rw [hmin] at hcount
    omega

/-- A request is answered before its timeout. -/
theorem request_expires (h : dns.ReachableWhile (fun s op => op.Timely s) s) {t : ℕ} (ht : s.Pending t c)
    {ops : List Op} (hrun : (dns.startAt s).Run (fun s op => op.Timely s) ops s')
    (hticks : 7 * DNS_MAX_SERVERS ≤ ops.countP Op.isTmr) :
    ¬ s'.Pending t c ∧ (c.found ≠ none → ∃ a, .found t c a ∈ s'.log) := by
  obtain ⟨i, hpend, rfl, rfl⟩ := ht
  have hr := (timely_lasting h).1
  have hused : (s.table i).state ≠ .unused := by
    intro hunused
    rw [hunused] at hpend
    cases hpend
  have hsince := run_since hr hrun
  have hnot : ¬ s'.Pending (s.table i).ticket (s.table i).call := by
    rintro ⟨j, hpend', hticket, -⟩
    have hask : (s'.table j).state = .asking := by
      cases hstate : (s'.table j).state with
      | asking => rfl
      | new => exact absurd hstate (hsince.regular.settled j)
      | unused | done =>
        rw [hstate] at hpend'
        cases hpend'
    have hentry := hsince.entry j (by rw [hask]; exact DnsState.noConfusion)
      (hticket.trans_lt (hr.fresh i hused))
    obtain ⟨hask₀, hleft⟩ := hentry.asks hask
    have hbound := (hr.asking j (fun hnone => nomatch hnone) hask₀).left_bounds
    have hbound' := (hsince.regular.asking j (fun hnone => nomatch hnone) hask).left_bounds
    omega
  refine ⟨hnot, fun hfound => ?_⟩
  have howed := timely_owed h
  have hlog := hsince.log (howed.mine i ⟨hpend, fun hnone => nomatch hnone⟩)
  rcases (timely_owed (h.append hrun)).lifeCycle.kept _ _ hlog hfound with hanswered | hpending
  · exact hanswered
  · exact absurd hpending hnot

/-- As long as no response is taken with a time to live of 0, and no callback of a failed response takes its
entry: no assertion fails, the counters are above 0 when they are counted down, an answer is kept for its time
to live, and a query is answered within the calls of `dns_tmr` for all servers. -/
theorem dns_timers (h : dns.ReachableWhile (fun s op => op.Timely s) s) :
    (∀ op : Op, op.exec s ≠ .error .assertion) ∧ (∀ calls, CountersPositive s calls) ∧
    (∀ msg behind calls s', dnsRecv s msg behind calls = .ok s' → ∀ i, Processed s i msg →
      ∀ ttl ipaddr, HasAddr (s.table i).name msg behind ttl ipaddr → ttl ≠ 0 →
        ∀ ops s'', (dns.startAt s').Run (fun _ _ => True) ops s'' →
          (min ttl DNS_MAX_TTL).toNat ≤ ops.countP Op.isTmr →
            ¬ ((s''.table i).state = .done ∧ (s''.table i).ticket = (s.table i).ticket)) ∧
    ∀ t c, s.Pending t c → ∀ ops s', (dns.startAt s).Run (fun s op => op.Timely s) ops s' →
      7 * DNS_MAX_SERVERS ≤ ops.countP Op.isTmr →
        ¬ s'.Pending t c ∧ (c.found ≠ none → ∃ a, .found t c a ∈ s'.log) := by
  obtain ⟨hr, hl⟩ := timely_lasting h
  refine ⟨hr.no_assertion, counters_positive hr hl, ?_, ?_⟩
  · intro msg behind calls s' hrecv i hproc ttl ipaddr haddr httl ops s'' hrun hticks
    exact answer_expires hr hrecv hproc haddr httl hrun hticks
  · intro t c ht ops s' hrun hticks
    exact request_expires h ht hrun hticks

/-- The entry of the first request -/
def firstEntry : Index := ⟨0, by decide⟩

/-- A call of `dns_tmr` whose callbacks do nothing. -/
def tick : Op := .tmr fun _ => []

/-- The request for "a", and the calls of `dns_tmr` for all servers. -/
def askInVain : List Op := .gethostbyname firstCall :: List.replicate (7 * DNS_MAX_SERVERS) tick

set_option maxRecDepth 20000 in
theorem askInVain_isSome : (askInVain.foldlM Op.exec emptyResolver).toOption.isSome = true := by
  decide

theorem dns_timers_askInVain : ∃ s s' : Resolver, s.Pending 0 firstCall ∧ ¬ s'.Pending 0 firstCall ∧
    ∃ a, .found 0 firstCall a ∈ s'.log := by
  obtain ⟨s', hs'⟩ := Option.isSome_iff_exists.mp askInVain_isSome
  obtain ⟨s, hs, hticks⟩ := bind_ok (toOption_eq_some hs')
  have hok : (Op.gethostbyname firstCall).Timely emptyResolver := ⟨trivial, trivial⟩
  have hreach : dns.ReachableWhile (fun s op => op.Timely s) s :=
    ⟨_, .snoc (.start emptyResolver_start) hok hs⟩
  have hrun : (dns.startAt s).Run (fun s op => op.Timely s) _ s' := run_foldlM (fun _ _ _ h => h)
    (.of_forall (fun _ op hop => by rw [List.eq_of_mem_replicate hop]; exact ⟨trivial, trivial⟩) _) hticks
  have hpend : s.Pending 0 firstCall := by
    cases hs
    exact ⟨firstEntry, rfl, rfl, rfl⟩
  have hcount : 7 * DNS_MAX_SERVERS ≤ (List.replicate (7 * DNS_MAX_SERVERS) tick).countP Op.isTmr := by decide
  obtain ⟨hnot, hfound⟩ := (dns_timers hreach).2.2.2 0 firstCall hpend _ s' hrun hcount
  exact ⟨s, s', hpend, hnot, hfound (Option.some_ne_none 1)⟩

/-! ### A time to live of 0 -/

/-- An answer of 10.0.0.1 for "a", with a time to live of 0. -/
def answerNull : List UInt8 :=
  responseHdr 1 ++ [1, 0x61, 0, 0, 1, 0, 1] ++
    [0xc0, 0x0c, 0, 1, 0, 1, 0, 0, 0, 0, 0, 4, 10, 0, 0, 1]

/-- The request for "a" is answered, and two calls of `dns_tmr` go by. -/
def askNull : List Op := [.gethostbyname firstCall, .recv answerNull nothing [], tick, tick]

theorem askNull_kept : (askNull.foldlM Op.exec emptyResolver).toOption.map (fun s =>
    decide ((s.table firstEntry).state = .done ∧ (s.table firstEntry).ticket = 0 ∧ (s.table firstEntry).ttl = 0xfffffffe ∧
      dnsLookup s (letter 0) = 0x0a000001)) = some true := by
  decide

/-- The counter of an answer with a time to live of 0 is counted down from 0, and the answer is kept. -/
theorem answer_outlives : ∃ (s s' s'' : Resolver) (ipaddr : IpAddr), dns.Reachable s ∧ Processed s firstEntry answerNull ∧
    HasAddr (s.table firstEntry).name answerNull nothing 0 ipaddr ∧ dnsRecv s answerNull nothing [] = .ok s' ∧
    ¬ CountersPositive s' (fun _ => []) ∧ (dns.startAt s').Run (fun _ _ => True) [tick, tick] s'' ∧
    (s''.table firstEntry).state = .done ∧ (s''.table firstEntry).ticket = (s.table firstEntry).ticket ∧
    (s''.table firstEntry).ttl = 0xfffffffe ∧ dnsLookup s'' (letter 0) = ipaddr := by
  obtain ⟨s'', hs'', hkept⟩ := Option.map_eq_some_iff.mp askNull_kept
  obtain ⟨hdone, hticket, httl, hlookup⟩ := of_decide_eq_true hkept
  obtain ⟨s, hs, h⟩ := bind_ok (toOption_eq_some hs'')
  obtain ⟨s', hs', hticks⟩ := bind_ok h
  have hrun : (dns.startAt s').Run (fun _ _ => True) [tick, tick] s'' := run_foldlM (fun _ _ _ h => h)
    (.of_forall (fun _ _ _ => trivial) _) hticks
  refine ⟨s, s', s'', 0x0a000001, .step (.of_start emptyResolver_start) (a := .gethostbyname firstCall) hs,
    ?_, ?_, hs', ?_, hrun, hdone, hticket.trans ?_, httl, hlookup⟩
  · cases hs
    exact ⟨by decide, by decide, rfl, rfl⟩
  · cases hs
    exact dnsAnswer_eq_some.mp (by decide)
  · cases hs
    cases hs'
    exact fun h => h.1.2 rfl rfl
  · cases hs
    rfl

end QuietLwip.Dns
