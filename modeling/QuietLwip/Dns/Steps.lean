import QuietLwip.Dns.Table

/-!
# Steps of the resolver

What each function of the module does with the table: a call, the check of an entry, and a response.
-/

namespace QuietLwip.Dns

open Fallible Ip

variable {s s' : Resolver} {i j : Index} {c : Call} {msg : List UInt8}

/-! ### Writes -/

namespace Resolver

theorem setEntry_self (s : Resolver) (i : Index) (e : Entry) : (s.setEntry i e).table i = e :=
  Function.update_self ..

theorem setEntry_of_ne (s : Resolver) (e : Entry) (h : j ≠ i) :
    (s.setEntry i e).table j = s.table j :=
  Function.update_of_ne h ..

theorem setEntry_eq_self (s : Resolver) (i : Index) : s.setEntry i (s.table i) = s := by
  rw [setEntry, Function.update_eq_self]

end Resolver

/-! ### Calls -/

/-- The request has not been answered. -/
def DnsState.isPending : DnsState → Bool
  | .new | .asking => true
  | .unused | .done => false

theorem searchEntry_inl {is : List Index} {lseq : ℤ} {lseqi : Index}
    (h : searchEntry s is lseq lseqi = .inl i) : (s.table i).state = .unused := by
  induction is generalizing lseq lseqi with
  | nil => cases h
  | cons k is ih =>
    rw [searchEntry] at h
    split at h
    · next hunused =>
      cases h
      exact hunused
    · split at h
      · exact ih h
      · exact ih h

theorem chooseEntry_free (h : chooseEntry s = some i) : (s.table i).state.isPending = false := by
  rw [chooseEntry] at h
  split at h
  · next k hk =>
    cases h
    rw [searchEntry_inl hk]
    rfl
  · split at h
    · next hdone =>
      cases h
      rw [hdone]
      rfl
    · cases h

/-- The request is in the table. -/
structure Enqueued (s : Resolver) (i : Index) (c : Call) (s' : Resolver) : Prop where
  state : (s'.table i).state = .asking
  call : (s'.table i).call = c
  ticket : (s'.table i).ticket = s.tickets
  others : ∀ j, j ≠ i → s'.table j = s.table j
  log : s'.log = s.log ++ [.enqueued s.tickets c]
  tickets : s'.tickets = s.tickets + 1
  hosts : s'.hosts = s.hosts

/-- The name is for the network: it is no address, and it is in neither of the two lists. -/
structure Asks (s : Resolver) (c : Call) : Prop where
  pos : c.hostname.1 ≠ []
  short : c.hostname.1.length < DNS_MAX_NAME_LENGTH
  noAddr : ipaddrAddr c.hostname.1 = IPADDR_NONE
  unknown : dnsLookup s c.hostname = IPADDR_NONE

theorem take_hostname (h : Asks s c) : CString.take c.hostname (DNS_MAX_NAME_LENGTH - 1) = c.hostname :=
  Subtype.ext (List.take_of_length_le (Nat.le_sub_one_of_lt h.short))

theorem checkNew_ok (h : checkNew s i = .ok s') :
    s' = s.setEntry i { s.table i with state := .asking, numdns := 0, tmr := 1, retries := 0 } := by
  obtain ⟨u, -, h⟩ := bind_ok h
  cases h
  rfl

theorem dnsEnqueue_ok {r : Err} (hask : Asks s c) (h : dnsEnqueue s c = .ok (s', r)) :
    s' = s ∨ ∃ i, chooseEntry s = some i ∧ Enqueued s i c s' := by
  rw [dnsEnqueue] at h
  split at h
  · cases h
    exact .inl rfl
  · next i hi =>
    obtain ⟨s₁, hs₁, h⟩ := bind_ok h
    cases h
    right
    refine ⟨i, hi, ?_⟩
    rw [checkNew_ok hs₁, take_hostname hask]
    refine ⟨?_, ?_, ?_, ?_, rfl, rfl, rfl⟩
    · rw [Resolver.setEntry_self]
    · rw [Resolver.setEntry_self]
      simp [Entry.call, Resolver.emit, Resolver.setEntry_self]
    · rw [Resolver.setEntry_self]
      simp [Resolver.emit, Resolver.setEntry_self]
    · intro j hj
      rw [Resolver.setEntry_of_ne _ _ hj]
      exact s.setEntry_of_ne _ hj

/-- What a call of `dns_gethostbyname` does. -/
inductive CallStep (s : Resolver) (c : Call) : Resolver → Prop
  | rejected : CallStep s c s
  | numeric (haddr : ipaddrAddr c.hostname.1 ≠ IPADDR_NONE) :
    CallStep s c (s.emit (.resolved c.hostname (ipaddrAddr c.hostname.1)))
  | known (hnum : ipaddrAddr c.hostname.1 = IPADDR_NONE) (haddr : dnsLookup s c.hostname ≠ IPADDR_NONE) :
    CallStep s c (s.emit (.resolved c.hostname (dnsLookup s c.hostname)))
  | enqueued {i : Index} {s' : Resolver} (hask : Asks s c) (hchoose : chooseEntry s = some i)
    (h : Enqueued s i c s') : CallStep s c s'

theorem runCall_step (hrun : runCall s c = .ok s') : CallStep s c s' := by
  obtain ⟨⟨s₁, r⟩, h, rfl⟩ := map_ok hrun
  rw [dnsGethostbyname] at h
  by_cases hname : c.hostname.1 = [] ∨ DNS_MAX_NAME_LENGTH ≤ c.hostname.1.length
  · rw [if_pos hname] at h
    cases h
    exact .rejected
  · rw [if_neg hname] at h
    obtain ⟨hpos, hshort⟩ := not_or.mp hname
    by_cases hnum : ipaddrAddr c.hostname.1 = IPADDR_NONE
    · simp only [if_pos hnum] at h
      by_cases hlookup : dnsLookup s c.hostname = IPADDR_NONE
      · rw [if_neg (not_not.mpr hlookup)] at h
        have hask : Asks s c := ⟨hpos, Nat.not_le.mp hshort, hnum, hlookup⟩
        obtain rfl | ⟨i, hi, henq⟩ := dnsEnqueue_ok hask h
        · exact .rejected
        · exact .enqueued hask hi henq
      · rw [if_pos hlookup] at h
        cases h
        exact .known hnum hlookup
    · simp only [if_neg hnum] at h
      rw [if_pos hnum] at h
      cases h
      exact .numeric hnum

/-! ### The check of an entry -/

/-- Another entry with the same request in the same state. -/
structure Entry.Same (e e' : Entry) : Prop where
  pending : e'.state.isPending = e.state.isPending
  done : e'.state = .done ↔ e.state = .done
  call : e'.call = e.call
  ticket : e'.ticket = e.ticket
  ipaddr : e'.ipaddr = e.ipaddr

/-- What `dns_check_entry` does with the entry. -/
inductive CheckStep (s : Resolver) (i : Index) (calls : List Call) : Resolver → Prop
  | keep {e : Entry} (h : (s.table i).Same e) : CheckStep s i calls (s.setEntry i e)
  | expired {e : Entry} (hdone : (s.table i).state = .done) (he : e.state = .unused) :
    CheckStep s i calls (s.setEntry i e)
  | timeout {e : Entry} {s' : Resolver} (hask : (s.table i).state = .asking) (he : e.state = .asking)
    (h : (s.table i).Same e) (hcalls : callFound (s.setEntry i e) i none calls = .ok s') :
    CheckStep s i calls (flush s' i)

/-- An entry that still asks is the same request, whatever its counters. -/
theorem Entry.Same.of_asking {e e' : Entry} (h : e.state = .asking) (h' : e'.state = .asking)
    (hcall : e'.call = e.call) (hticket : e'.ticket = e.ticket) (haddr : e'.ipaddr = e.ipaddr) :
    e.Same e' :=
  ⟨by rw [h, h'], by simp [h, h'], hcall, hticket, haddr⟩

theorem checkAsking_step {calls : List Call} (hask : (s.table i).state = .asking)
    (h : checkAsking s i calls = .ok s') : CheckStep s i calls s' := by
  rw [checkAsking] at h
  dsimp only at h
  split at h
  · split at h
    · split at h
      · cases h
        exact .keep (.of_asking hask hask rfl rfl rfl)
      · obtain ⟨s₁, hcalls, h⟩ := bind_ok h
        cases h
        refine .timeout hask ?_ ?_ hcalls
        · exact hask
        · exact .of_asking hask hask rfl rfl rfl
    · obtain ⟨u, -, h⟩ := bind_ok h
      cases h
      exact .keep (.of_asking hask hask rfl rfl rfl)
  · cases h
    exact .keep (.of_asking hask hask rfl rfl rfl)

theorem dnsCheckEntry_step {calls : List Call} (h : dnsCheckEntry s i calls = .ok s') :
    CheckStep s i calls s' := by
  rw [dnsCheckEntry] at h
  split at h
  · next hnew =>
    rw [checkNew_ok h]
    exact .keep ⟨by rw [hnew]; rfl, by simp [hnew], rfl, rfl, rfl⟩
  · next hask => exact checkAsking_step hask h
  · next hdone =>
    cases h
    split
    · rw [flush, Resolver.setEntry_self, Resolver.setEntry, Resolver.setEntry, Function.update_idem]
      exact .expired hdone rfl
    · exact .keep ⟨rfl, .rfl, rfl, rfl, rfl⟩
  · cases h
    have hkeep : CheckStep s i calls (s.setEntry i (s.table i)) := .keep ⟨rfl, .rfl, rfl, rfl, rfl⟩
    rwa [Resolver.setEntry_eq_self] at hkeep

/-! ### Responses -/

/-- The message passes the size checks, for an entry that asks for its name. -/
structure Processed (s : Resolver) (i : Index) (msg : List UInt8) : Prop where
  small : msg.length ≤ DNS_MSG_SIZE
  large : SIZEOF_DNS_HDR + SIZEOF_DNS_QUERY + SIZEOF_DNS_ANSWER ≤ msg.length
  id : (dnsHdr msg).id = i
  asking : (s.table i).state = .asking

theorem Processed.exec (h : Processed s i msg) (behind : Behind) (calls : List Call) :
    dnsRecv s msg behind calls =
      finish (complete s i msg) i calls (dnsAnswer (s.table i).name msg behind) := by
  have hid : (dnsHdr msg).id < DNS_TABLE_SIZE := by
    rw [h.id]
    exact i.isLt
  obtain rfl : i = ⟨_, hid⟩ := Fin.ext h.id.symm
  rw [dnsRecv, if_neg (Nat.not_lt.mpr h.small), if_neg (Nat.not_lt.mpr h.large), dif_pos hid,
    if_pos h.asking]

/-- The address and its time to live are stored, and handed over. -/
theorem finish_addr (s : Resolver) (i : Index) (msg : List UInt8) (calls : List Call) (ttl : UInt32)
    (ipaddr : IpAddr) : finish (complete s i msg) i calls (some (some (ttl, ipaddr))) =
      Dns.callFound ((s.emit (.accepted (s.table i).name msg)).setEntry i { s.table i with
        state := .done, err := (dnsHdr msg).flags2 &&& DNS_FLAG2_ERR_MASK
        ttl := min ttl DNS_MAX_TTL, ipaddr := ipaddr }) i (some ipaddr) calls := by
  rw [finish, complete, Resolver.setEntry_self, Resolver.setEntry, Resolver.setEntry, Function.update_idem]
  rfl

/-- Any other message is dropped. -/
theorem dnsRecv_dropped (h : ∀ i, ¬ Processed s i msg) (behind : Behind) (calls : List Call) :
    dnsRecv s msg behind calls = .ok s := by
  by_contra hne
  rw [dnsRecv] at hne
  split at hne
  · exact hne rfl
  · next hsmall =>
    split at hne
    · exact hne rfl
    · next hlarge =>
      split at hne
      · next hid =>
        split at hne
        · next hask => exact h ⟨_, hid⟩ ⟨Nat.not_lt.mp hsmall, Nat.not_lt.mp hlarge, rfl, hask⟩
        · exact hne rfl
      · exact hne rfl

end QuietLwip.Dns
