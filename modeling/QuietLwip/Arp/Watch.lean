import QuietLwip.Arp.Calls

/-!
# Watching an interface probe

What an observer of one interface has seen since probing last started or restarted: the candidate, and
the events since. The window is closed by the bind. `History` is what has to hold of a log: every bind
is justified by the window it closes, and no window shows the candidate as the sender of an ARP packet.
-/

namespace QuietLwip.Arp

open Ip

/-! ### The window -/

/-- The events of an interface's own ARP traffic and AutoIP client. -/
def Event.concerns (n : ℕ) : Event → Bool
  | .arp m .. | .arpInput m _ | .probing m _ | .bind m _ => m = n
  | _ => false

def pushEvent (ev : Event) (acc : Option (IpAddr × List Event)) : Option (IpAddr × List Event) :=
  acc.map fun a => (a.1, a.2 ++ [ev])

def watch (n : ℕ) (acc : Option (IpAddr × List Event)) : Event → Option (IpAddr × List Event)
  | .probing m ip => if m = n then some (ip, []) else pushEvent (.probing m ip) acc
  | .bind m ip => if m = n then none else pushEvent (.bind m ip) acc
  | ev => pushEvent ev acc

/-- The candidate, and the events since probing last started or restarted. -/
def window (n : ℕ) (log : List Event) : Option (IpAddr × List Event) := log.foldl (watch n) none

theorem window_snoc (n : ℕ) (log : List Event) (ev : Event) :
    window n (log ++ [ev]) = watch n (window n log) ev := by
  rw [window, List.foldl_append]
  rfl

theorem window_push {n : ℕ} {log : List Event} {ev : Event} (h : ev.concerns n = false) :
    window n (log ++ [ev]) = pushEvent ev (window n log) := by
  rw [window_snoc]
  cases ev with
  | probing m ip => exact if_neg (of_decide_eq_false h)
  | bind m ip => exact if_neg (of_decide_eq_false h)
  | _ => rfl

/-- The event is a probe of the interface for the address. -/
def Event.isProbe (n : ℕ) (c : IpAddr) : Event → Bool
  | .arp m p _ => m = n ∧ p.opcode = ARP_REQUEST ∧ p.sipaddr = IpAddr.any ∧ p.dipaddr = c
  | _ => false

/-- The probe was handed to the interface successfully. -/
def Event.isSentProbe (n : ℕ) (c : IpAddr) : Event → Bool
  | .arp m p ok => ok && Event.isProbe n c (.arp m p ok)
  | _ => false

def probesSent (n : ℕ) (c : IpAddr) (mid : List Event) : ℕ :=
  (mid.filter (Event.isSentProbe n c)).length

/-- The ticks since the last probe. -/
def waited (n : ℕ) (c : IpAddr) (mid : List Event) : ℕ :=
  (mid.reverse.takeWhile (!Event.isProbe n c ·)).count .tick

section window

variable {n : ℕ} {c : IpAddr} {mid : List Event} {ev : Event}

theorem isProbe_of_concerns (h : ev.concerns n = false) : ev.isProbe n c = false := by
  cases ev with
  | arp m p ok => simp [Event.isProbe, of_decide_eq_false h]
  | _ => rfl

theorem isSentProbe_of_concerns (h : ev.concerns n = false) : ev.isSentProbe n c = false := by
  cases ev with
  | arp m p ok =>
    rw [Event.isSentProbe, isProbe_of_concerns h]
    exact Bool.and_false _
  | _ => rfl

theorem probesSent_push (h : ev.concerns n = false) :
    probesSent n c (mid ++ [ev]) = probesSent n c mid := by
  simp [probesSent, List.filter_append, isSentProbe_of_concerns h]

theorem probesSent_probe (h : ev.isSentProbe n c) :
    probesSent n c (mid ++ [ev]) = probesSent n c mid + 1 := by
  simp [probesSent, List.filter_append, h]

theorem waited_push (h : ev.isProbe n c = false) :
    waited n c (mid ++ [ev]) = waited n c mid + if ev = .tick then 1 else 0 := by
  simp [waited, h, List.count_cons]

end window

/-! ### What a log has to be -/

/-- The window of a bind to `c`: enough probes, no conflict, and a pause. -/
structure Claimed (n : ℕ) (hwaddr : EthAddr) (c : IpAddr) (mid : List Event) : Prop where
  probes : PROBE_NUM ≤ probesSent n c mid
  noConflict : ∀ hdr, .arpInput n hdr ∈ mid → ¬ conflicts c hwaddr hdr
  waited : ANNOUNCE_WAIT * AUTOIP_TICKS_PER_SECOND ≤ waited n c mid

/-- No ARP packet with the sender address `c` left the interface. -/
def Silent (n : ℕ) (c : IpAddr) (mid : List Event) : Prop :=
  ∀ p ok, .arp n p ok ∈ mid → p.sipaddr ≠ c

structure History (n : ℕ) (hwaddr : EthAddr) (log : List Event) : Prop where
  binds : ∀ before c later, log = before ++ .bind n c :: later →
    ∃ mid, window n before = some (c, mid) ∧ Claimed n hwaddr c mid
  silent : ∀ before later c mid, log = before ++ later → window n before = some (c, mid) →
    Silent n c mid

section history

variable {n : ℕ} {hwaddr : EthAddr} {log : List Event} {ev : Event}

theorem History.nil : History n hwaddr [] where
  binds before c later h := by simp at h
  silent before later c mid h hw := by
    obtain ⟨rfl, rfl⟩ := List.nil_eq_append_iff.mp h
    cases hw

theorem History.snoc (h : History n hwaddr log)
    (hbind : ∀ c, ev = .bind n c → ∃ mid, window n log = some (c, mid) ∧ Claimed n hwaddr c mid)
    (hsilent : ∀ c mid, window n (log ++ [ev]) = some (c, mid) → Silent n c mid) :
    History n hwaddr (log ++ [ev]) where
  binds before c later hlog := by
    obtain rfl | ⟨l, e, rfl⟩ := later.eq_nil_or_concat
    · obtain ⟨rfl, hev⟩ := List.append_inj' hlog rfl
      cases hev
      exact hbind c rfl
    · have hcat : log ++ [ev] = (before ++ .bind n c :: l) ++ [e] := by simpa using hlog
      exact h.binds before c l (List.append_inj' hcat rfl).1
  silent before later c mid hlog hw := by
    obtain rfl | ⟨l, e, rfl⟩ := later.eq_nil_or_concat
    · rw [List.append_nil] at hlog
      rw [← hlog] at hw
      exact hsilent c mid hw
    · have hcat : log ++ [ev] = (before ++ l) ++ [e] := by simpa using hlog
      exact h.silent before l c mid (List.append_inj' hcat rfl).1 hw

theorem History.now (h : History n hwaddr log) {c : IpAddr} {mid : List Event}
    (hw : window n log = some (c, mid)) : Silent n c mid :=
  h.silent log [] c mid (List.append_nil _).symm hw

theorem Silent.push {c : IpAddr} {mid : List Event} (h : Silent n c mid)
    (hev : ∀ p ok, ev = .arp n p ok → p.sipaddr ≠ c) : Silent n c (mid ++ [ev]) := by
  intro p ok hmem
  obtain hmem | hmem := List.mem_append.mp hmem
  · exact h p ok hmem
  · exact hev p ok (List.mem_singleton.mp hmem).symm

/-- An event that goes into the window. -/
theorem History.push (h : History n hwaddr log)
    (hwindow : window n (log ++ [ev]) = pushEvent ev (window n log))
    (hbind : ∀ c, ev ≠ .bind n c)
    (hev : ∀ c mid, window n log = some (c, mid) → ∀ p ok, ev = .arp n p ok → p.sipaddr ≠ c) :
    History n hwaddr (log ++ [ev]) := by
  apply h.snoc
  · exact fun c hc => absurd hc (hbind c)
  · intro c mid hw
    rw [hwindow] at hw
    obtain ⟨⟨c', mid'⟩, hw', heq⟩ := Option.map_eq_some_iff.mp hw
    cases heq
    exact (h.now hw').push (hev c' mid' hw')

/-- An event of no concern to the interface. -/
theorem History.other (h : History n hwaddr log) (hev : ev.concerns n = false) :
    History n hwaddr (log ++ [ev]) := by
  apply h.push (window_push hev)
  · rintro c rfl
    simp [Event.concerns] at hev
  · rintro c mid - p ok rfl
    simp [Event.concerns] at hev

/-- Probing starts anew. -/
theorem History.probing (h : History n hwaddr log) (c : IpAddr) :
    History n hwaddr (log ++ [.probing n c]) := by
  apply h.snoc
  · exact fun c' hc => nomatch hc
  · intro c' mid hw p ok hmem
    rw [window_snoc, watch, if_pos rfl] at hw
    cases hw
    cases hmem

end history

end QuietLwip.Arp
