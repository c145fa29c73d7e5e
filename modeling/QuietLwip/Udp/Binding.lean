import QuietLwip.Udp.Lists
import QuietLwip.Foundation.Transition

/-!
# Exclusive bindings

The calls on the UDP pcbs in any order, with the datagrams that arrive between them. Beside the
stack a table keeps, for two pcbs, whether both had `SOF_REUSEADDR` when the later one was bound.
-/

namespace QuietLwip.Udp

open Ip Links Transition

inductive Call where
  | new (answer : Option ℕ)
  | bind (n : ℕ) (ip : IpAddr) (port : ℕ)
  | connect (n : ℕ) (ip : IpAddr) (port : ℕ)
  | sendto (n : ℕ) (route : Bool)
  | disconnect (n : ℕ)
  | remove (n : ℕ)
  -- `lwip_setsockopt` of `SO_REUSEADDR`
  | setReuseaddr (n : ℕ) (on : Bool)
  -- a datagram arrives
  | input (e : Endpoints)

namespace Call

/-- The pcb that the caller passes. -/
def pcb : Call → Option ℕ
  | .new _ | .input _ => none
  | .bind n _ _ | .connect n _ _ | .sendto n _ | .disconnect n | .remove n | .setReuseaddr n _ =>
    some n

/-- The caller only uses pcbs that are in use. -/
def Valid (t : Stack) (c : Call) : Prop := ∀ n ∈ c.pcb, t.live n = true

def exec (t : Stack) : Call → Option (Stack × Err)
  | .new answer => some (t.udpNew answer, .ok)
  | .bind n ip port => t.udpBind n ip port
  | .connect n ip port => t.udpConnect n ip port
  | .sendto n route => t.udpSendto n route
  | .disconnect n => some (t.udpDisconnect n, .ok)
  | .remove n => (t.udpRemove n).map fun t => (t, .ok)
  | .setReuseaddr n on => some (t.modify n fun pcb => { pcb with reuseaddr := on }, .ok)
  | .input e => (t.demux e).map fun (t, _) => (t, .ok)

/-- The pcb that the call binds when it succeeds. -/
def binds (t : Stack) : Call → Option ℕ
  | .bind n _ _ => some n
  | .connect n _ _ | .sendto n _ => if (t.pcb n).localPort = 0 then some n else none
  | _ => none

/-- `udp_bind` or `udp_connect`. -/
def IsBinding : Call → Prop
  | .bind _ _ _ | .connect _ _ _ => True
  | _ => False

/-- When `udp_bind` is asked for a port that is held at an overlapping address, the holders have
`SOF_REUSEADDR` if and only if the pcb has, or else one of them keeps the pcb from it. -/
def Fair (t : Stack) : Call → Prop
  | .bind n ip port =>
    (∀ m, t.Bound m → m ≠ n → (t.pcb m).localPort = port →
        Stack.overlap (t.pcb m).localIp ip = true → (t.pcb m).reuseaddr = (t.pcb n).reuseaddr) ∨
      ∃ m, t.Bound m ∧ t.refuses n ip port m = true
  | _ => True

end Call

structure State where
  stack : Stack
  -- both pcbs had `SOF_REUSEADDR` when the later one was bound
  bothReuse : ℕ → ℕ → Bool

namespace State

/-- The pcb `n` is bound after all others. -/
def noteBound (s : State) (n a b : ℕ) : Bool :=
  if a = n ∨ b = n then (s.stack.pcb a).reuseaddr && (s.stack.pcb b).reuseaddr
  else s.bothReuse a b

/-- What is kept of a call that has returned. -/
def note (s : State) (c : Call) (err : Err) : ℕ → ℕ → Bool :=
  if err = .ok then (c.binds s.stack).elim s.bothReuse s.noteBound else s.bothReuse

def Step (s : State) (c : Call) (s' : State) : Prop :=
  c.Valid s.stack ∧ ∃ t err, c.exec s.stack = some (t, err) ∧ s' = ⟨t, s.note c err⟩

/-- Nothing is in use. -/
structure Start (s : State) : Prop where
  live : ∀ n, s.stack.live n = false
  pcbs : s.stack.pcbs = none
  port : s.stack.port = udpLocalPortRangeStart

end State

def udpSystem : System State Call where
  start := State.Start
  step := State.Step

variable {s s' : State} {c : Call} {t : Stack} {err : Err} {l : List ℕ} {m n port : ℕ} {ip : IpAddr}

/-! ### The list -/

/-- Every call returns, and the list is right again. -/
theorem Stack.Listed.exec (h : t.Listed l) (hvalid : c.Valid t) :
    ∃ t' err l', c.exec t = some (t', err) ∧ t'.Listed l' := by
  cases c with
  | new answer => exact ⟨_, _, l, rfl, (h.udpNew answer).1⟩
  | bind n ip port =>
    obtain ⟨m, -, -, hbind⟩ | ⟨t', p, l', hbind, hl', -⟩ := h.udpBind (hvalid n rfl) ip port
    · exact ⟨t, _, l, hbind, h⟩
    · exact ⟨t', _, l', hbind, hl'⟩
  | connect n ip port =>
    obtain ⟨t₁, l', -, hl', hconnect⟩ := h.udpConnect (hvalid n rfl) ip port
    exact ⟨_, _, l', hconnect, hl'.modify n fun _ => rfl⟩
  | sendto n route =>
    cases route with
    | false => exact ⟨t, _, l, rfl, h⟩
    | true =>
      obtain ⟨-, hbind⟩ | ⟨-, t', p, l', hbind, hl', -⟩ := h.bindImplicitly (hvalid n rfl)
      · exact ⟨t, _, l, hbind, h⟩
      · exact ⟨t', _, l', hbind, hl'⟩
  | disconnect n => exact ⟨_, _, l, rfl, h.modify n fun _ => rfl⟩
  | remove n =>
    obtain ⟨t', hremove, hl', -⟩ := h.udpRemove n
    refine ⟨t', .ok, _, ?_, hl'⟩
    rw [Call.exec, hremove]
    rfl
  | setReuseaddr n on => exact ⟨_, _, l, rfl, h.modify n fun _ => rfl⟩
  | input e =>
    obtain ⟨t', found, l', hdemux, hl', -⟩ := h.demux e
    refine ⟨t', .ok, l', ?_, hl'⟩
    rw [Call.exec, hdemux]
    rfl

/-- A binding that fails leaves everything; without a port given, each port must have a pcb. -/
theorem Stack.Listed.exec_failed (h : t.Listed l) (hvalid : c.Valid t) (hc : c.IsBinding) {t' : Stack}
    (hexec : c.exec t = some (t', err)) (herr : err ≠ .ok) :
    t' = t ∧ ∀ n ip, c = .bind n ip 0 → ∀ p, udpLocalPortRangeStart ≤ p →
      p ≤ udpLocalPortRangeEnd → ∃ m ∈ l, (t.pcb m).localPort = p := by
  cases c with
  | bind n ip port =>
    obtain ⟨m, hm, href, hbind⟩ | ⟨t₁, p, l', hbind, -⟩ := h.udpBind (hvalid n rfl) ip port
    · cases hbind.symm.trans hexec
      refine ⟨rfl, ?_⟩
      rintro _ _ ⟨⟩
      -- no pcb on the list has the port 0
      simp only [Stack.refuses, Bool.and_eq_true, decide_eq_true_eq] at href
      exact absurd href.1.2 ((h.mem m).mp hm).2
    · cases hbind.symm.trans hexec
      exact absurd rfl herr
  | connect n ip port =>
    obtain ⟨t₁, l', -, -, hconnect⟩ := h.udpConnect (hvalid n rfl) ip port
    cases hconnect.symm.trans hexec
    exact absurd rfl herr
  | _ => exact absurd hc id

/-! ### Exclusion -/

/-- Two bound pcbs do not have the same port and overlapping addresses, unless both had
`SOF_REUSEADDR` when the later one was bound. -/
def State.Exclusive (s : State) : Prop :=
  ∀ m n, m ≠ n → s.stack.Bound m → s.stack.Bound n →
    (s.stack.pcb m).localPort = (s.stack.pcb n).localPort →
    Stack.overlap (s.stack.pcb m).localIp (s.stack.pcb n).localIp = true → s.bothReuse m n = true

theorem Stack.overlap_comm (a b : IpAddr) : overlap a b = overlap b a := by
  simp only [overlap, Bool.or_comm a.isAny, BEq.comm (a := a)]

/-- Nothing is bound anew. -/
theorem State.Exclusive.of_bound (h : s.Exclusive) (hb : ∀ m, t.Bound m → s.stack.Bound m ∧
    (t.pcb m).localPort = (s.stack.pcb m).localPort ∧ (t.pcb m).localIp = (s.stack.pcb m).localIp) :
    State.Exclusive ⟨t, s.bothReuse⟩ := by
  intro m n hmn hm hn hport hip
  obtain ⟨hm, hmport, hmip⟩ := hb m hm
  obtain ⟨hn, hnport, hnip⟩ := hb n hn
  dsimp only at hport hip
  rw [hmport, hnport] at hport
  rw [hmip, hnip] at hip
  exact h m n hmn hm hn hport hip

/-- A pcb is bound, next to others with `SOF_REUSEADDR` only. -/
theorem State.Exclusive.bind (h : s.Exclusive) (hn : s.stack.live n = true) (hp : port ≠ 0)
    (hb : s.stack.BoundTo n ip port t)
    (hothers : ∀ m, s.stack.Bound m → m ≠ n → (s.stack.pcb m).localPort = port →
      Stack.overlap (s.stack.pcb m).localIp ip = true →
      (s.stack.pcb m).reuseaddr = true ∧ (s.stack.pcb n).reuseaddr = true) :
    State.Exclusive ⟨t, s.noteBound n⟩ := by
  intro a b hab ha hbb hport hip
  have ha := (hb.bound hn hp).mp ha
  have hbb := (hb.bound hn hp).mp hbb
  dsimp only at hport hip ⊢
  by_cases han : a = n
  · subst han
    have hba : b ≠ a := Ne.symm hab
    rw [hb.self, hb.other hba] at hport hip
    rw [Stack.overlap_comm] at hip
    obtain ⟨h1, h2⟩ := hothers b (hbb.resolve_left hba) hba hport.symm hip
    simp [State.noteBound, h1, h2]
  · by_cases hbn : b = n
    · subst hbn
      rw [hb.self, hb.other han] at hport hip
      obtain ⟨h1, h2⟩ := hothers a (ha.resolve_left han) han hport hip
      simp [State.noteBound, h1, h2]
    · rw [hb.other han, hb.other hbn] at hport hip
      rw [State.noteBound, if_neg (by tauto)]
      exact h a b hab (ha.resolve_left han) (hbb.resolve_left hbn) hport hip

/-- Implicit binding takes a port that no pcb has. -/
theorem State.Exclusive.bindImplicitly (h : s.Exclusive) (hl : s.stack.Listed l)
    (hn : s.stack.live n = true) (hbind : s.stack.bindImplicitly n = some (t, .ok)) :
    State.Exclusive ⟨t, (if (s.stack.pcb n).localPort = 0 then some n else none).elim s.bothReuse
      s.noteBound⟩ := by
  obtain ⟨hport, heq⟩ | ⟨hport, t', p, l', heq, -, hb, hp, hfree⟩ := hl.bindImplicitly hn
  · cases heq.symm.trans hbind
    rw [if_neg hport]
    exact h
  · cases heq.symm.trans hbind
    rw [if_pos hport]
    refine h.bind hn hp hb fun m hm _ hmp _ => ?_
    exact absurd hmp (hfree m ((hl.mem m).mpr hm))

/-- A change of a pcb that leaves its address and its port. -/
theorem State.Exclusive.modify {bothReuse : ℕ → ℕ → Bool} (h : State.Exclusive ⟨t, bothReuse⟩) (n : ℕ)
    {f : UdpPcb → UdpPcb} (hport : ∀ pcb, (f pcb).localPort = pcb.localPort)
    (hip : ∀ pcb, (f pcb).localIp = pcb.localIp) :
    State.Exclusive ⟨t.modify n f, bothReuse⟩ := by
  refine h.of_bound fun m hm => ?_
  by_cases hmn : m = n
  · subst hmn
    simpa [Stack.Bound, Stack.modify, hport, hip] using hm
  · simpa [Stack.Bound, Stack.modify, hmn] using hm

theorem State.Exclusive.step (h : s.Exclusive) (hl : s.stack.Listed l) (hfair : c.Fair s.stack)
    (hstep : s.Step c s') : s'.Exclusive := by
  obtain ⟨hvalid, t, err, hexec, rfl⟩ := hstep
  cases c with
  | new answer =>
    cases hexec
    refine h.of_bound fun m hm => ?_
    obtain ⟨hm, heq⟩ := (hl.udpNew answer).2 m hm
    rw [heq]
    exact ⟨hm, rfl, rfl⟩
  | bind n ip port =>
    have hn := hvalid n rfl
    obtain ⟨m, -, -, hbind⟩ | ⟨t', p, l', hbind, -, hb, hp, hgiven, hany, hfree⟩ := hl.udpBind hn ip port
    · cases hbind.symm.trans hexec
      exact h
    · cases hbind.symm.trans hexec
      refine h.bind hn hp hb fun m hm hmn hmport hmip => ?_
      have hml := (hl.mem m).mpr hm
      by_cases hport : port = 0
      · exact absurd hmport (hany hport m hml)
      rw [hgiven hport] at hmport
      have hreuse : (s.stack.pcb m).reuseaddr = (s.stack.pcb n).reuseaddr := by
        obtain hsame | ⟨m', hm', href⟩ := hfair
        · exact hsame m hm hmn hmport hmip
        · cases (hfree m' ((hl.mem m').mpr hm')).symm.trans href
      -- the pcb is not refused, so one of the two has the option
      cases hr : (s.stack.pcb n).reuseaddr with
      | true => exact ⟨hreuse.trans hr, rfl⟩
      | false =>
        have href : s.stack.refuses n ip port m = true := by
          simp [Stack.refuses, hmn, hmport, hmip, hreuse, hr]
        cases (hfree m hml).symm.trans href
  | connect n ip port =>
    obtain ⟨t₁, l', hbind, hl', hconnect⟩ := hl.udpConnect (hvalid n rfl) ip port
    cases hconnect.symm.trans hexec
    exact (h.bindImplicitly hl (hvalid n rfl) hbind).modify n (fun _ => rfl) fun _ => rfl
  | sendto n route =>
    cases route with
    | false =>
      cases hexec
      exact h
    | true =>
      obtain ⟨-, hbind⟩ | ⟨-, t', p, l', hbind, -⟩ := hl.bindImplicitly (hvalid n rfl)
      · cases hbind.symm.trans hexec
        exact h.bindImplicitly hl (hvalid n rfl) hbind
      · cases hbind.symm.trans hexec
        exact h.bindImplicitly hl (hvalid n rfl) hbind
  | disconnect n =>
    cases hexec
    exact h.modify n (fun _ => rfl) fun _ => rfl
  | remove n =>
    obtain ⟨t', hremove, -, hpcb, hlive⟩ := hl.udpRemove n
    rw [Call.exec, hremove] at hexec
    cases hexec
    refine h.of_bound fun m hm => ?_
    by_cases hmn : m = n
    · subst hmn
      simp [Stack.Bound, hlive] at hm
    · simpa [Stack.Bound, hlive, hpcb, hmn] using hm
  | setReuseaddr n on =>
    cases hexec
    exact h.modify n (fun _ => rfl) fun _ => rfl
  | input e =>
    obtain ⟨t', found, l', hdemux, -, hpcb, hlive⟩ := hl.demux e
    rw [Call.exec, hdemux] at hexec
    cases hexec
    refine h.of_bound fun m hm => ?_
    simpa [Stack.Bound, hlive, hpcb] using hm

/-! ### Runs -/

/-- What the list and the calls on it are. -/
structure State.Sound (s : State) : Prop where
  -- the list ends, and holds each bound pcb once and no other
  list : ∃ l, ListAt s.stack.next s.stack.pcbs l ∧ l.Nodup ∧ ∀ n, n ∈ l ↔ s.stack.Bound n
  exclusive : s.Exclusive
  returns : ∀ c : Call, c.Valid s.stack → (c.exec s.stack).isSome
  failed : ∀ c : Call, c.Valid s.stack → c.IsBinding → ∀ t err, c.exec s.stack = some (t, err) →
    err ≠ .ok → t = s.stack
  refused : ∀ n ip t, s.stack.live n = true → s.stack.udpBind n ip 0 = some (t, .use) →
    ∀ p, udpLocalPortRangeStart ≤ p → p ≤ udpLocalPortRangeEnd →
      ∃ m, s.stack.Bound m ∧ (s.stack.pcb m).localPort = p

theorem State.Exclusive.sound (h : s.Exclusive) (hl : s.stack.Listed l) : s.Sound where
  list := ⟨l, hl.list, hl.list.nodup, hl.mem⟩
  exclusive := h
  returns c hc := by
    obtain ⟨t', err, l', hexec, -⟩ := hl.exec hc
    rw [hexec]
    rfl
  failed c hc hbinding t err hexec herr := (hl.exec_failed hc hbinding hexec herr).1
  refused n ip t hn hbind p hlo hhi := by
    have hvalid : (Call.bind n ip 0).Valid s.stack := by
      rintro _ ⟨⟩
      exact hn
    obtain ⟨m, hm, hport⟩ := (hl.exec_failed hvalid trivial hbind nofun).2 n ip rfl p hlo hhi
    exact ⟨m, (hl.mem m).mp hm, hport⟩

theorem State.Start.listed (h : s.Start) : s.stack.Listed [] where
  list := h.pcbs
  mem n := by simp [Stack.Bound, h.live n]
  pooled n hn := by simp [h.live n] at hn
  port := by
    rw [h.port]
    decide

/-- The list is right in every run. -/
theorem listed_of_reachable {ok : State → Call → Prop} (h : udpSystem.ReachableWhile ok s) :
    ∃ l, s.stack.Listed l := by
  refine h.invariant (I := fun s => ∃ l, s.stack.Listed l) (fun s hs => ⟨[], State.Start.listed hs⟩) ?_
  rintro s c s' ⟨l, hl⟩ - ⟨hvalid, t, err, hexec, rfl⟩
  obtain ⟨t', err', l', hexec', hl'⟩ := hl.exec hvalid
  cases hexec'.symm.trans hexec
  exact ⟨l', hl'⟩

/-- A binding that is not fair breaks the exclusion. -/
theorem not_exclusive_of_not_fair (hl : s.stack.Listed l) (hstep : s.Step c s')
    (hfair : ¬ c.Fair s.stack) : ¬ s'.Exclusive := by
  obtain ⟨hvalid, t, err, hexec, rfl⟩ := hstep
  cases c with
  | bind n ip port =>
    rw [Call.Fair, not_or] at hfair
    obtain ⟨hmixed, hfree⟩ := hfair
    push Not at hmixed
    obtain ⟨m, hm, hmn, hport, hip, hreuse⟩ := hmixed
    have hn := hvalid n rfl
    obtain ⟨m', hm', href, -⟩ | ⟨t', p, l', hbind, -, hb, hp, hgiven, -⟩ := hl.udpBind hn ip port
    · exact absurd ⟨m', (hl.mem m').mp hm', href⟩ hfree
    · cases hbind.symm.trans hexec
      have hport0 : port ≠ 0 := fun h => hm.2 (hport.trans h)
      intro hexcl
      have hboth := hexcl m n hmn ((hb.bound hn hp).mpr (.inr hm)) ((hb.bound hn hp).mpr (.inl rfl))
        (by rw [hb.other hmn, hb.self, hport, hgiven hport0]) (by rw [hb.other hmn, hb.self]; exact hip)
      have hnote : s.noteBound n m n = true := hboth
      simp only [State.noteBound, or_true, if_true, Bool.and_eq_true] at hnote
      exact hreuse (hnote.1.trans hnote.2.symm)
  | _ => exact absurd trivial hfair

/-- The stack after `udp_init`. -/
def initial : State where
  stack :=
    { live := fun _ => false
      pcb := fun _ => {}
      next := fun _ => none
      pcbs := none
      port := udpLocalPortRangeStart }
  bothReuse _ _ := false

theorem run_call {ok : State → Call → Prop} {cs : List Call} (h : udpSystem.Run ok cs s) (c : Call)
    (hok : ok s c) (hvalid : c.Valid s.stack) (hexec : c.exec s.stack = some (t, err)) :
    udpSystem.Run ok (cs ++ [c]) ⟨t, s.note c err⟩ :=
  h.snoc hok ⟨hvalid, t, err, hexec, rfl⟩

theorem run_initial (ok : State → Call → Prop) : udpSystem.Run ok [] initial :=
  .start ⟨fun _ => rfl, rfl, rfl⟩

end QuietLwip.Udp
