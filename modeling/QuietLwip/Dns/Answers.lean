import QuietLwip.Dns.Requests

/-!
# Answers

Where an address comes from that is returned for a name or handed to a callback.
-/

namespace QuietLwip.Dns

open Fallible Ip Transition

variable {s s' : Resolver} {i j : Index} {c : Call} {x : Option Index} {ev : Event}
  {name : CString} {ipaddr : IpAddr} {msg : List UInt8} {log : List Event}

/-! ### The law -/

/-- The message is a response for exactly this name, and the address is in an answer of it. -/
def Resolves (name : CString) (msg : List UInt8) (ipaddr : IpAddr) : Prop :=
  Sound msg ∧ ∃ rest ttl, Question name.1 (question msg) rest ∧
    Holds (dnsHdr msg).numanswers (rest.drop SIZEOF_DNS_QUERY) ttl ipaddr

/-- The address is the name's numeric form, or it is in the local host list, or it was in a response
for the name that came while an entry asked for it. -/
def Justified (hosts : List (CString × IpAddr)) (log : List Event) (name : CString)
    (ipaddr : IpAddr) : Prop :=
  ipaddrAton name.1 = some ipaddr ∨ (name, ipaddr) ∈ hosts ∨
    ∃ msg, .accepted name msg ∈ log ∧ Resolves name msg ipaddr

/-- The address that is given for a name. -/
def Event.gives : Event → Option (CString × IpAddr)
  | .resolved name ipaddr => some (name, ipaddr)
  | .found _ c (some ipaddr) => some (c.hostname, ipaddr)
  | _ => none

/-- Every address is justified by what was before. -/
def Truthful (hosts : List (CString × IpAddr)) (log : List Event) : Prop :=
  ∀ before ev later name ipaddr, log = before ++ ev :: later → ev.gives = some (name, ipaddr) →
    Justified hosts before name ipaddr

theorem Justified.append {hosts : List (CString × IpAddr)} (h : Justified hosts log name ipaddr)
    (evs : List Event) : Justified hosts (log ++ evs) name ipaddr := by
  refine h.imp_right (Or.imp_right ?_)
  rintro ⟨msg, hmem, hresolves⟩
  exact ⟨msg, List.mem_append_left _ hmem, hresolves⟩

theorem Truthful.snoc {hosts : List (CString × IpAddr)} (h : Truthful hosts log)
    (hev : ∀ name ipaddr, ev.gives = some (name, ipaddr) → Justified hosts log name ipaddr) :
    Truthful hosts (log ++ [ev]) := by
  intro before ev' later name ipaddr hlog hgives
  obtain rfl | ⟨l, e, rfl⟩ := later.eq_nil_or_concat
  · obtain ⟨rfl, hlast⟩ := List.append_inj' hlog rfl
    cases hlast
    exact hev name ipaddr hgives
  · have hcat : log ++ [ev] = (before ++ ev' :: l) ++ [e] := by simpa using hlog
    exact h before ev' l name ipaddr (List.append_inj' hcat rfl).1 hgives

/-! ### The invariant -/

/-- Completed entries hold justified addresses, but for the entry `x` that has failed. -/
structure Good (x : Option Index) (s : Resolver) : Prop where
  truthful : Truthful s.hosts s.log
  held : ∀ i, (s.table i).state = .done → x ≠ some i →
    Justified s.hosts s.log (s.table i).name (s.table i).ipaddr
  named : ∀ i, (s.table i).state.isPending → (s.table i).name.1 ≠ []

/-- The look-up finds the address of the failed entry. -/
structure Stale (i : Index) (s : Resolver) (c : Call) : Prop where
  noAddr : ipaddrAddr c.hostname.1 = IPADDR_NONE
  noHost : dnsLookupLocal s c.hostname = IPADDR_NONE
  holds : (s.table i).holds c.hostname
  first : ∀ j, j < i → ¬ (s.table j).holds c.hostname

theorem Good.emit (h : Good x s)
    (hev : ∀ name ipaddr, ev.gives = some (name, ipaddr) → Justified s.hosts s.log name ipaddr) :
    Good x (s.emit ev) where
  truthful := h.truthful.snoc hev
  held i hdone hx := (h.held i hdone hx).append [ev]
  named := h.named

theorem mem_hosts (h : dnsLookupLocal s name ≠ IPADDR_NONE) :
    (name, dnsLookupLocal s name) ∈ s.hosts := by
  rw [dnsLookupLocal] at h ⊢
  cases hfind : s.hosts.find? (·.1 = name) with
  | none =>
    rw [hfind] at h
    exact absurd rfl h
  | some host =>
    obtain rfl : host.1 = name := by simpa using List.find?_some hfind
    exact List.mem_of_find?_eq_some hfind

/-- The entry that answers a look-up is the first that holds the name. -/
theorem first_of_find (h : (List.finRange DNS_TABLE_SIZE).find? (fun i => (s.table i).holds name) = some i) :
    (s.table i).holds name ∧ ∀ j, j < i → ¬ (s.table j).holds name := by
  obtain ⟨hholds, as, bs, hsplit, hnone⟩ := List.find?_eq_some_iff_append.mp h
  refine ⟨hholds, fun j hj hholds' => ?_⟩
  have hsorted := List.pairwise_lt_finRange DNS_TABLE_SIZE
  have hmem := List.mem_finRange j
  rw [hsplit] at hsorted hmem
  obtain hmem | hmem := List.mem_append.mp hmem
  · have hnot := hnone j hmem
    rw [hholds'] at hnot
    cases hnot
  · have hle := (List.pairwise_cons.mp (List.pairwise_append.mp hsorted).2.1).1
    obtain rfl | hmem := List.mem_cons.mp hmem
    · exact lt_irrefl _ hj
    · exact (hle j hmem).not_gt hj

theorem lookup_justified (h : Good x s) (hstale : ∀ i, x = some i → ¬ Stale i s c)
    (hnum : ipaddrAddr c.hostname.1 = IPADDR_NONE) (hne : dnsLookup s c.hostname ≠ IPADDR_NONE) :
    Justified s.hosts s.log c.hostname (dnsLookup s c.hostname) := by
  rw [dnsLookup] at hne ⊢
  by_cases hlocal : dnsLookupLocal s c.hostname = IPADDR_NONE
  · rw [if_neg (not_not.mpr hlocal)] at hne ⊢
    split at hne
    · next k hfind =>
      obtain ⟨hholds, hfirst⟩ := first_of_find hfind
      obtain ⟨hdone, hname⟩ := of_decide_eq_true hholds
      rw [hname]
      apply h.held k hdone
      exact fun hx => hstale k hx ⟨hnum, hlocal, hholds, hfirst⟩
    · exact absurd rfl hne
  · rw [if_pos hlocal]
    exact .inr (.inl (mem_hosts hlocal))

theorem aton_of_addr (h : ipaddrAddr name.1 ≠ IPADDR_NONE) :
    ipaddrAton name.1 = some (ipaddrAddr name.1) := by
  rw [ipaddrAddr] at h ⊢
  cases haton : ipaddrAton name.1 with
  | none =>
    rw [haton] at h
    exact absurd rfl h
  | some ipaddr => rfl

theorem Good.call (h : Good x s) (hstale : ∀ i, x = some i → ¬ Stale i s c)
    (hstep : CallStep s c s') : Good x s' := by
  cases hstep with
  | rejected => exact h
  | numeric haddr =>
    apply h.emit
    intro name ipaddr hgives
    cases hgives
    exact .inl (aton_of_addr haddr)
  | known hnum haddr =>
    apply h.emit
    intro name ipaddr hgives
    cases hgives
    exact lookup_justified h hstale hnum haddr
  | @enqueued k s' hask hchoose henq =>
    refine ⟨?_, ?_, ?_⟩
    · rw [henq.log, henq.hosts]
      exact h.truthful.snoc fun name ipaddr hgives => nomatch hgives
    · intro j hdone hx
      have hj : j ≠ k := by
        rintro rfl
        rw [henq.state] at hdone
        cases hdone
      rw [henq.others j hj] at hdone ⊢
      rw [henq.log, henq.hosts]
      exact (h.held j hdone hx).append _
    · intro j hpend
      by_cases hj : j = k
      · subst hj
        have hname : (s'.table j).name = c.hostname := congrArg Call.hostname henq.call
        rw [hname]
        exact hask.pos
      · rw [henq.others j hj] at hpend ⊢
        exact h.named j hpend

/-- An entry is written. -/
theorem Good.setEntry {e : Entry} {x' : Option Index} (h : Good x s)
    (hx : ∀ j, j ≠ i → x' ≠ some j → x ≠ some j)
    (hdone : e.state = .done → x' ≠ some i → Justified s.hosts s.log e.name e.ipaddr)
    (hname : e.state.isPending → e.name.1 ≠ []) : Good x' (s.setEntry i e) where
  truthful := h.truthful
  held j hj hxj := by
    by_cases hij : j = i
    · subst hij
      rw [Resolver.setEntry_self] at hj ⊢
      exact hdone hj hxj
    · rw [Resolver.setEntry_of_ne _ _ hij] at hj ⊢
      exact h.held j hj (hx j hij hxj)
  named j hj := by
    by_cases hij : j = i
    · subst hij
      rw [Resolver.setEntry_self] at hj ⊢
      exact hname hj
    · rw [Resolver.setEntry_of_ne _ _ hij] at hj ⊢
      exact h.named j hj

theorem Good.keep {e : Entry} (h : Good x s) (he : (s.table i).Same e) : Good x (s.setEntry i e) := by
  have hname : e.name = (s.table i).name := congrArg Call.hostname he.call
  apply h.setEntry (fun j _ hx => hx)
  · intro hdone hx
    rw [hname, he.ipaddr]
    exact h.held i (he.done.mp hdone) hx
  · intro hpend
    rw [hname]
    exact h.named i (he.pending ▸ hpend)

theorem Good.unuse {e : Entry} (h : Good x s) (hx : ∀ j, x = some j → j = i) (he : e.state = .unused) :
    Good none (s.setEntry i e) := by
  apply h.setEntry
  · exact fun j hj _ hxj => hj (hx j hxj)
  · intro hdone
    rw [he] at hdone
    cases hdone
  · intro hpend
    rw [he] at hpend
    cases hpend

/-- No entry has failed. -/
theorem along_none (s : Resolver) (calls : List Call) :
    Along runCall (fun s' c => ∀ j, none = some j → ¬ Stale j s' c) calls s := by
  apply Along.of_forall
  intro s₁ c _ j hj
  cases hj

/-- A callback and its calls. -/
theorem Good.callFound {a : Option IpAddr} {calls : List Call} (h : Good x s)
    (ha : ∀ ipaddr, a = some ipaddr → Justified s.hosts s.log (s.table i).name ipaddr)
    (hstale : (s.table i).found ≠ none → Along runCall (fun s' c => ∀ j, x = some j → ¬ Stale j s' c)
      calls (s.emit (.found (s.table i).ticket (s.table i).call a)))
    (hcalls : callFound s i a calls = .ok s') : Good x s' := by
  rw [Dns.callFound] at hcalls
  split at hcalls
  · cases hcalls
    exact h
  · next f hfound =>
    have hemit : Good x (s.emit (.found (s.table i).ticket (s.table i).call a)) := by
      apply h.emit
      intro name ipaddr hgives
      cases a with
      | none => cases hgives
      | some a =>
        cases hgives
        exact ha _ rfl
    refine foldlM_ok (I := Good x) ?_ (hstale (by rw [hfound]; exact Option.some_ne_none f)) hemit hcalls
    intro s₁ c s₂ h₁ hstale₁ hc
    exact h₁.call hstale₁ (runCall_step hc)

/-! ### The timer -/

theorem Good.check {calls : List Call} (h : Good none s) (hstep : CheckStep s i calls s') :
    Good none s' := by
  cases hstep with
  | keep he => exact h.keep he
  | expired hdone he => exact h.unuse (fun j hj => nomatch hj) he
  | @timeout e s₁ hask he hsame hcalls =>
    have hfound : Good none s₁ := by
      refine (h.keep hsame).callFound ?_ (fun _ => along_none _ _) hcalls
      intro ipaddr ha
      cases ha
    exact hfound.unuse (fun j hj => nomatch hj) rfl

theorem Good.tmr {calls : Index → List Call} (h : Good none s) (htmr : dnsTmr s calls = .ok s') :
    Good none s' := by
  refine foldlM_ok (I := Good none) ?_ (Along.of_forall (fun _ _ _ => trivial) s) h htmr
  intro s₁ i s₂ h₁ _ hcheck
  exact h₁.check (dnsCheckEntry_step hcheck)

/-! ### Responses -/

/-- The response stays in the message and in the name, its question is not taken for another, and its
failure is not answered from the entry that has failed. -/
structure Clean (s : Resolver) (i : Index) (msg : List UInt8) (behind : Behind) (calls : List Call) :
    Prop where
  bounds : Sound msg → InBounds (s.table i).name msg
  strays : Sound msg → ¬ Strays ((s.table i).name.1 ++ [0]) (question msg)
  failure : (s.table i).found ≠ none →
    (∀ ttl ipaddr, ¬ HasAddr (s.table i).name msg behind ttl ipaddr) →
      Along runCall (fun s' c => ¬ Stale i s' c) calls (failing s i msg)

def Op.Clean (s : Resolver) : Op → Prop
  | .recv msg behind calls => ∀ i, Processed s i msg → Dns.Clean s i msg behind calls
  | _ => True

theorem HasAddr.resolves {behind : Behind} {ttl : UInt32} (h : HasAddr name msg behind ttl ipaddr)
    (hpos : name.1 ≠ []) (hbounds : Sound msg → InBounds name msg)
    (hstrays : Sound msg → ¬ Strays (name.1 ++ [0]) (question msg)) : Resolves name msg ipaddr := by
  have hs := h.1
  rw [← dnsAnswer_eq_some, dnsAnswer_behind hbounds, dnsAnswer_eq_some] at h
  obtain ⟨-, hmatch, p, hskip, hholds⟩ := h
  have hmsg : msg ++ nothing.msg = msg := List.append_nil msg
  rw [hmsg] at hmatch hskip
  obtain ⟨rest, hspells⟩ := hmatch.spells (hstrays hs) name.2
  obtain rfl : rest = p := by
    have hparse := dnsParseName_of_skips (hspells.skips hpos)
    rw [dnsParseName_of_skips hskip] at hparse
    exact (Option.some.inj hparse).symm
  exact ⟨hs, rest, ttl, hspells.question, hholds⟩

/-- The entry is completed, with the address of an older answer. -/
theorem Good.complete (h : Good none s) (msg : List UInt8) : Good (some i) (Dns.complete s i msg) := by
  have hemit : Good none (s.emit (.accepted (s.table i).name msg)) :=
    h.emit fun name ipaddr hgives => nomatch hgives
  apply hemit.setEntry
  · exact fun j _ _ => (Option.some_ne_none j).symm
  · exact fun _ hne => absurd rfl hne
  · exact fun hpend => nomatch hpend

theorem failing_eq (s : Resolver) (i : Index) (msg : List UInt8) :
    (complete s i msg).emit (.found ((complete s i msg).table i).ticket
      ((complete s i msg).table i).call none) = failing s i msg := by
  have hself : ((complete s i msg).table i).ticket = (s.table i).ticket ∧
      ((complete s i msg).table i).call = (s.table i).call := by
    rw [complete, Resolver.setEntry_self]
    exact ⟨rfl, rfl⟩
  rw [failing, hself.1, hself.2]

theorem Good.fail {behind : Behind} {calls : List Call} (h : Good none s)
    (hclean : Clean s i msg behind calls)
    (hnone : ∀ ttl ipaddr, ¬ HasAddr (s.table i).name msg behind ttl ipaddr)
    (hcalls : Dns.callFound (Dns.complete s i msg) i none calls = .ok s') : Good none (flush s' i) := by
  have hgood : Good (some i) s' := by
    refine (h.complete msg).callFound ?_ (fun hfound => ?_) hcalls
    · intro ipaddr ha
      cases ha
    · rw [failing_eq]
      rw [Dns.complete, Resolver.setEntry_self] at hfound
      refine (hclean.failure hfound hnone).mono fun s₁ c hstale j hj => ?_
      cases hj
      exact hstale
  exact hgood.unuse (fun j hj => (Option.some.inj hj).symm) rfl

theorem Good.answer {behind : Behind} {calls : List Call} {ttl : UInt32} (h : Good none s)
    (hask : (s.table i).state = .asking) (hclean : Clean s i msg behind calls)
    (haddr : HasAddr (s.table i).name msg behind ttl ipaddr) {e : Entry}
    (he : e.name = (s.table i).name) (hip : e.ipaddr = ipaddr) (hstate : e.state = .done)
    (hcalls : Dns.callFound ((s.emit (.accepted (s.table i).name msg)).setEntry i e) i (some ipaddr)
      calls = .ok s') : Good none s' := by
  have hemit : Good none (s.emit (.accepted (s.table i).name msg)) :=
    h.emit fun name ipaddr hgives => nomatch hgives
  have hpos : (s.table i).name.1 ≠ [] := by
    apply h.named i
    rw [hask]
    rfl
  have hjust : Justified s.hosts (s.log ++ [.accepted (s.table i).name msg]) (s.table i).name ipaddr :=
    .inr (.inr ⟨msg, by simp, haddr.resolves hpos hclean.bounds hclean.strays⟩)
  have hset : Good none ((s.emit (.accepted (s.table i).name msg)).setEntry i e) := by
    apply hemit.setEntry (fun j _ hx => hx)
    · intro _ _
      rw [he, hip]
      exact hjust
    · intro hpend
      rw [hstate] at hpend
      cases hpend
  refine hset.callFound ?_ (fun _ => along_none _ _) hcalls
  intro ipaddr' ha
  cases ha
  rw [Resolver.setEntry_self, he]
  exact hjust

theorem Good.finish {behind : Behind} {calls : List Call} (h : Good none s)
    (hproc : Processed s i msg) (hclean : Clean s i msg behind calls)
    (hfinish : Dns.finish (Dns.complete s i msg) i calls
      (dnsAnswer (s.table i).name msg behind) = .ok s') : Good none s' := by
  generalize hr : dnsAnswer (s.table i).name msg behind = r at hfinish
  cases r with
  | none => cases hfinish
  | some r =>
    cases r with
    | none =>
      obtain ⟨s₁, hcalls, hflush⟩ := bind_ok hfinish
      cases hflush
      refine h.fail hclean (fun ttl ipaddr haddr => ?_) hcalls
      rw [dnsAnswer_eq_some.mpr haddr] at hr
      cases hr
    | some r =>
      rw [finish_addr] at hfinish
      exact h.answer (e := { s.table i with
        state := .done, err := (dnsHdr msg).flags2 &&& DNS_FLAG2_ERR_MASK,
        ttl := min r.1 DNS_MAX_TTL, ipaddr := r.2 }) hproc.asking hclean (dnsAnswer_eq_some.mp hr) rfl rfl
        rfl hfinish

theorem Good.recv {behind : Behind} {calls : List Call} (h : Good none s)
    (hclean : (Op.recv msg behind calls).Clean s) (hrecv : dnsRecv s msg behind calls = .ok s') :
    Good none s' := by
  by_cases hproc : ∃ i, Processed s i msg
  · obtain ⟨i, hproc⟩ := hproc
    rw [hproc.exec] at hrecv
    exact h.finish hproc (hclean i hproc) hrecv
  · rw [dnsRecv_dropped fun i hi => hproc ⟨i, hi⟩] at hrecv
    cases hrecv
    exact h

theorem Good.exec {op : Op} (h : Good none s) (hclean : op.Clean s) (hexec : op.exec s = .ok s') :
    Good none s' := by
  cases op with
  | gethostbyname c => exact h.call (fun i hi => nomatch hi) (runCall_step hexec)
  | recv msg behind calls => exact h.recv hclean hexec
  | tmr calls => exact h.tmr hexec
  | setserver numdns dnsserver =>
    cases hexec
    rw [dnsSetserver]
    split
    · exact ⟨h.truthful, h.held, h.named⟩
    · exact h

theorem Resolver.Start.good (h : s.Start) : Good none s where
  truthful before ev later name ipaddr hlog := by
    rw [h.log] at hlog
    simp at hlog
  held i hdone := by
    rw [h.table i] at hdone
    cases hdone
  named i hpend := by
    rw [h.table i] at hpend
    cases hpend

/-- Every address that is given for a name is one of that name, and no entry that failed is left to
answer a look-up. And `dns_compare_name` takes a question for a name's that is not exactly when it
strays. -/
theorem addresses_justified (h : dns.ReachableWhile (fun s op => op.Clean s) s) :
    Truthful s.hosts s.log ∧
    (∀ i, (s.table i).state = .done →
      Justified s.hosts s.log (s.table i).name (s.table i).ipaddr) ∧
    ∀ (name : CString) bytes,
      (dnsCompareName (name.1 ++ [0]) bytes = some 0 → ∃ rest, Question name.1 bytes rest) ↔
        ¬ Strays (name.1 ++ [0]) bytes := by
  have hgood : Good none s := by
    apply h.invariant (I := Good none)
    · exact fun s hs => hs.good
    · exact fun s op s' hs hop hexec => hs.exec hop hexec
  refine ⟨hgood.truthful, fun i hdone => hgood.held i hdone ?_, fun name bytes => ?_⟩
  · exact (Option.some_ne_none i).symm
  · exact dnsCompareName_question name.2

/-! ### Addresses of other names -/

/-- "a.b" -/
def nameAB : CString := ⟨[0x61, dot, 0x62], by decide⟩

/-- An answer of 10.0.0.1 for "a". -/
def answerA : List UInt8 :=
  responseHdr 1 ++ [1, 0x61, 0, 0, 1, 0, 1] ++
    [0xc0, 0x0c, 0, 1, 0, 1, 0, 0, 0, 60, 0, 4, 10, 0, 0, 1]

/-- The callback of a failed request for "a" asks for "a" once more. -/
def askSame : List Op :=
  [.gethostbyname firstCall, .recv noSuchName nothing [firstCall]]

/-- The request for "a.b" is answered for "a". -/
def askLonger : List Op :=
  [.gethostbyname ⟨nameAB, some 1, 0⟩, .recv answerA nothing []]

theorem askSame_log : (askSame.foldlM Op.exec emptyResolver).toOption.map (fun s => (s.log, s.hosts)) =
    some ([.enqueued 0 (callLetter 0), .accepted (letter 0) noSuchName, .found 0 (callLetter 0) none] ++
      [.resolved (letter 0) 0], []) := by
  decide

theorem askLonger_log :
    (askLonger.foldlM Op.exec emptyResolver).toOption.map (fun s => (s.log, s.hosts)) =
      some ([.enqueued 0 ⟨nameAB, some 1, 0⟩, .accepted nameAB answerA] ++
        [.found 0 ⟨nameAB, some 1, 0⟩ (some 0x0a000001#32)], []) := by
  decide

theorem reachable_ops {ops : List Op} (h : (ops.foldlM Op.exec emptyResolver).toOption = some s) :
    dns.Reachable s :=
  reachable_foldlM (f := Op.exec) (fun _ _ _ h => h) (.of_forall (fun _ _ _ => trivial) _)
    (System.Reachable.of_start emptyResolver_start) (toOption_eq_some h)

/-- The last event gives an address that nothing before it justifies. -/
theorem not_truthful {hosts : List (CString × IpAddr)} (hev : ev.gives = some (name, ipaddr))
    (h : ¬ Justified hosts log name ipaddr) : ¬ Truthful hosts (log ++ [ev]) :=
  fun htrue => h (htrue log ev [] name ipaddr rfl hev)

theorem answerA_strays : Strays (nameAB.1 ++ [0]) (question answerA) := by
  have h : Strays ([0x61] ++ [dot, 0x62, 0]) (1 :: ([0x61] ++ 0 :: (question answerA).drop 3)) :=
    .short (by decide) rfl (by decide)
  exact h

theorem answerA_question (rest : List UInt8) : ¬ Question nameAB.1 (question answerA) rest :=
  fun h => h.spells.not_strays answerA_strays

/-- The failed entry answers the look-up of its own callback; and the answer for "a" is taken for
"a.b". -/
theorem addresses_unjustified :
    (∃ s, dns.Reachable s ∧ .resolved (letter 0) 0 ∈ s.log ∧ ¬ Truthful s.hosts s.log) ∧
    (∃ s, dns.Reachable s ∧ .found 0 ⟨nameAB, some 1, 0⟩ (some 0x0a000001#32) ∈ s.log ∧
      ¬ Truthful s.hosts s.log) ∧
    dnsCompareName (nameAB.1 ++ [0]) (question answerA) = some 0 ∧
      ∀ rest, ¬ Question nameAB.1 (question answerA) rest := by
  refine ⟨?_, ?_, rfl, answerA_question⟩
  · obtain ⟨s, hs, hlog⟩ := Option.map_eq_some_iff.mp askSame_log
    obtain ⟨hlog, hhosts⟩ := Prod.mk.inj hlog
    refine ⟨s, reachable_ops hs, by simp [hlog], ?_⟩
    rw [hlog, hhosts]
    refine not_truthful rfl ?_
    rintro (hnum | hhost | ⟨msg, hmem, hs, -⟩)
    · exact absurd hnum (by decide)
    · cases hhost
    · obtain rfl : msg = noSuchName := by simpa using hmem
      exact absurd hs.noError (by decide)
  · obtain ⟨s, hs, hlog⟩ := Option.map_eq_some_iff.mp askLonger_log
    obtain ⟨hlog, hhosts⟩ := Prod.mk.inj hlog
    refine ⟨s, reachable_ops hs, by simp [hlog], ?_⟩
    rw [hlog, hhosts]
    refine not_truthful rfl ?_
    rintro (hnum | hhost | ⟨msg, hmem, -, rest, ttl, hquestion, -⟩)
    · exact absurd hnum (by decide)
    · cases hhost
    · obtain rfl : msg = answerA := by simpa using hmem
      exact answerA_question rest hquestion

/-- The request for "a" is answered for "a". -/
def askA : List Op := [.gethostbyname firstCall, .recv answerA nothing []]

theorem askA_log : (askA.foldlM Op.exec emptyResolver).toOption.map (·.log) =
    some [.enqueued 0 (callLetter 0), .accepted (letter 0) answerA,
      .found 0 (callLetter 0) (some 0x0a000001#32)] := by
  decide

theorem addresses_justified_askA : ∃ s : Resolver,
    .found 0 (callLetter 0) (some 0x0a000001#32) ∈ s.log ∧ Truthful s.hosts s.log := by
  obtain ⟨s, hs, hlog⟩ := Option.map_eq_some_iff.mp askA_log
  refine ⟨s, by simp [hlog], (addresses_justified ?_).1⟩
  refine reachable_foldlM (f := Op.exec) (fun _ _ _ h => h) ?_ ⟨[], .start emptyResolver_start⟩
    (toOption_eq_some hs)
  refine ⟨trivial, fun s₁ hs₁ => ⟨fun i hproc => ?_, fun _ _ => trivial⟩⟩
  have hi : i = ⟨0, by decide⟩ := Fin.ext hproc.id.symm
  cases hs₁
  subst hi
  have hspells : Spells [0x61] (1 :: ([0x61] ++ 0 :: (question answerA).drop 3))
      ((question answerA).drop 3) := .last (by decide) (by decide) rfl
  refine ⟨fun hsound => inBounds_of_isSome hsound rfl, fun _ => hspells.not_strays, fun _ _ => trivial⟩

end QuietLwip.Dns
