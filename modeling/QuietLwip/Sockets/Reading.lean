import QuietLwip.Sockets.Recvfrom

/-!
# The bytes that a stream socket returns

What has been delivered to `recvmbox` is what the calls have returned, followed by what the call under
way has copied, what is left in `lastdata`, and what is queued. The window gets back what has been
returned, but also what a peeking call has returned, and 1 for the end of the stream.
-/

namespace QuietLwip.Sockets

open Word Transition

variable {α : Type*}

theorem doRecv_sum (remaining : ℕ) : (doRecv remaining).sum = remaining := by
  induction remaining using doRecv.induct with
  | case1 n h => rw [doRecv, if_pos h, List.sum_singleton]
  | case2 n h ih =>
    rw [doRecv, if_neg h, List.sum_cons, ih]
    omega

@[simp] theorem flatMap_doRecv_sum (recved : List ℕ) : (recved.flatMap doRecv).sum = recved.sum := by
  induction recved with
  | nil => rfl
  | cons n rest ih => simp [doRecv_sum, ih]

/-! ### Where the bytes are -/

/-- The call under way. -/
def RecvPc.frame : RecvPc α → Option (RecvFrame α)
  | .idle => none
  | .top f | .fetch f | .copy f | .overflow f => some f

/-- The bytes of a message. -/
def msgBytes : Option (Chain α) → List α
  | some chain => chain.data
  | none => []

/-- What is left in `lastdata`. -/
def Sock.held (sock : Sock Unit (Chain α)) : List α := (msgBytes sock.lastdata).drop sock.lastoffset

namespace RecvState

/-- What the call under way has copied. -/
def copied (s : RecvState α) : List α :=
  match s.pc.frame with
  | some f => f.mem
  | none => []

/-- What has not been copied yet, in order. -/
def unread (s : RecvState α) : List α := s.sock.held ++ s.recvmbox.flatMap msgBytes

/-- The state between two turns: a peeking call has copied nothing, `lastoffset` is within
`lastdata`, and `NULL` is the last message. -/
structure Sound (s : RecvState α) : Prop where
  peeking : ∀ f, s.pc.frame = some f → f.peek = true → f.mem = []
  offset : s.sock.lastdata = none → s.sock.lastoffset = 0
  fetching : ∀ f, s.pc = .fetch f → s.sock.lastdata = none
  boxed : ∃ cs : List (Chain α), s.recvmbox =
    cs.map some ++ if s.ended = true ∧ s.lastErr.isFatal = false then [none] else []
  closed : s.lastErr.isFatal = true → s.ended = true ∧ s.recvmbox = [] ∧ s.sock.lastdata = none

end RecvState

/-- What one turn does: no byte is lost, repeated or moved. -/
structure RecvTurn.Keeps (s : RecvState α) (t : RecvTurn α) : Prop where
  flow : s.copied ++ s.unread = Returned.read t.returned ++ (t.next.copied ++ t.next.unread)
  sound : t.next.Sound
  ended : t.next.ended = s.ended
  peeked : ∀ mem, t.returned = some ⟨true, .bytes mem⟩ → mem <+: s.copied ++ s.unread
  closed : ∀ p, t.returned = some ⟨p, .closed⟩ → s.copied ++ s.unread = [] ∧ s.ended = true

/-- No peeking call finds data to copy, and `off` does not overflow. -/
def NoPeek (s : RecvState α) : RecvEvent α → Prop
  | .turn _ _ _ => (∀ f, s.pc = .copy f → f.peek = true → f.len = 0) ∧
      ∀ f chain, s.pc = .copy f → s.sock.lastdata = some chain →
        f.mem.length + min f.len (chain.data.length - s.sock.lastoffset) ≤ intMax
  | _ => True

/-- The FIN has its place in the window: 1 is given back once `NULL` has been taken. -/
def RecvState.finCredit (s : RecvState α) : ℕ := if s.lastErr.isFatal then 1 else 0

namespace RecvState

variable {s s' : RecvState α} {f : RecvFrame α}

theorem finish_recved_sum : (s.finish f).recved.sum = f.mem.length := by
  simp only [finish]
  split
  · rw [List.sum_singleton]
  · simp only [List.sum_nil]
    omega

/-! ### The turns -/

theorem keeps_finish
    (hflow : s.copied ++ s.unread = (if f.peek then [] else f.mem) ++ s'.unread)
    (hsound : { s' with pc := .idle }.Sound) (hended : s'.ended = s.ended)
    (hpeek : f.peek = true → f.mem <+: s.copied ++ s.unread) : (s'.finish f).Keeps s where
  flow := by
    rw [hflow]
    cases hp : f.peek <;> simp [Returned.read, finish, hp, copied, RecvPc.frame, unread]
  sound := hsound
  ended := hended
  peeked := by
    intro mem hret
    simp only [finish, Option.some.injEq, Returned.mk.injEq, RecvResult.bytes.injEq] at hret
    exact hret.2 ▸ hpeek hret.1
  closed := by
    intro p hret
    simp [finish] at hret

theorem keeps_noData {result : RecvResult α} (hbytes : ∀ mem, result ≠ .bytes mem)
    (hflow : s.copied ++ s.unread = f.mem ++ s'.unread)
    (hsound : { s' with pc := .idle }.Sound) (hended : s'.ended = s.ended)
    (hpeek : f.peek = true → f.mem = [])
    (hclosed : result = .closed → f.mem = [] → s.copied ++ s.unread = [] ∧ s.ended = true) :
    (s'.noData f result).Keeps s := by
  simp only [noData]
  split
  · next hpos =>
    have hno : f.peek = false := by
      by_contra hp
      rw [hpeek (by simpa using hp)] at hpos
      exact absurd hpos (by simp)
    refine keeps_finish ?_ hsound hended fun hp => ?_
    · rw [hflow, hno]
      rfl
    · rw [hpeek hp]
      exact List.nil_prefix
  · next hpos =>
    have hmem : f.mem = [] := List.eq_nil_of_length_eq_zero (by omega)
    constructor
    · rw [hflow, hmem]
      cases result <;> first | exact absurd rfl (hbytes _) | cases f.peek <;> rfl
    · exact hsound
    · exact hended
    · rintro mem hret
      simp only [Option.some.injEq, Returned.mk.injEq] at hret
      exact absurd hret.2 (hbytes mem)
    · rintro p hret
      simp only [Option.some.injEq, Returned.mk.injEq] at hret
      exact hclosed hret.2 hmem

theorem Sound.idle (h : s.Sound) : { s with pc := .idle }.Sound where
  peeking := nofun
  offset := h.offset
  fetching := nofun
  boxed := h.boxed
  closed := h.closed

theorem unread_of_closed (h : s.Sound) (hfatal : s.lastErr.isFatal = true) : s.unread = [] := by
  obtain ⟨-, hbox, hlast⟩ := h.closed hfatal
  simp [unread, Sock.held, hbox, hlast, msgBytes]

theorem keeps_turnTop (h : s.Sound) (hpc : s.pc = .top f) : (s.turnTop f).Keeps s := by
  have hcopied : s.copied = f.mem := by simp only [copied, hpc, RecvPc.frame]
  have hpeek : f.peek = true → f.mem = [] := h.peeking f (by rw [hpc]; rfl)
  have hflow : s.copied ++ s.unread = f.mem ++ s.unread := by rw [hcopied]
  simp only [turnTop]
  split
  · next chain hlast =>
    constructor
    · exact hflow
    · exact ⟨fun g hg => by cases hg; exact hpeek, h.offset, nofun, h.boxed, h.closed⟩
    · rfl
    · nofun
    · nofun
  · next hlast =>
    split
    · exact keeps_noData nofun hflow h.idle rfl hpeek nofun
    · split
      · next hfatal =>
        refine keeps_noData nofun hflow h.idle rfl hpeek fun _ hmem => ?_
        rw [hcopied, hmem, unread_of_closed h hfatal]
        exact ⟨rfl, (h.closed hfatal).1⟩
      · constructor
        · exact hflow
        · exact ⟨fun g hg => by cases hg; exact hpeek, h.offset, fun _ _ => hlast, h.boxed, h.closed⟩
        · rfl
        · nofun
        · nofun

@[simp] theorem setSafe_timeout_isFatal (lastErr : ConnErr) :
    (ConnErr.timeout.setSafe lastErr).isFatal = lastErr.isFatal := by
  cases lastErr <;> rfl

theorem setSafe_clsd_isFatal (lastErr : ConnErr) :
    (ConnErr.clsd.setSafe lastErr).isFatal = true := by
  cases lastErr <;> rfl

/-- A fetch that times out. -/
theorem keeps_expired (h : s.Sound) (hpc : s.pc = .fetch f) :
    ({ s with lastErr := ConnErr.timeout.setSafe s.lastErr }.noData f .timedOut).Keeps s := by
  refine keeps_noData nofun ?_ ?_ rfl (h.peeking f (by rw [hpc]; rfl)) nofun
  · simp only [copied, hpc, RecvPc.frame]
    rfl
  · obtain ⟨cs, hbox⟩ := h.boxed
    constructor
    · nofun
    · exact h.offset
    · nofun
    · refine ⟨cs, ?_⟩
      simp only [setSafe_timeout_isFatal]
      exact hbox
    · simp only [setSafe_timeout_isFatal]
      exact h.closed

/-- A chain is fetched. -/
theorem keeps_chain {chain : Chain α} {rest : List (Option (Chain α))} (h : s.Sound)
    (hpc : s.pc = .fetch f) (hbox : s.recvmbox = some chain :: rest) :
    RecvTurn.Keeps s { next := { s with
      recvmbox := rest
      sock := { s.sock.event .rcvMinus with lastdata := some chain }
      pc := .copy f } } := by
  have hlast : s.sock.lastdata = none := h.fetching f hpc
  have hoff : s.sock.lastoffset = 0 := h.offset hlast
  constructor
  · simp only [copied, hpc, RecvPc.frame, unread, Sock.held, hlast, hoff, hbox, Returned.read]
    simp [msgBytes, Sock.event, hoff]
  · constructor
    · rintro g hg
      obtain rfl : f = g := by simpa [RecvPc.frame] using hg
      exact h.peeking f (by rw [hpc]; rfl)
    · nofun
    · nofun
    · obtain ⟨cs, hcs⟩ := h.boxed
      rw [hbox] at hcs
      cases cs with
      | nil =>
        split at hcs
        · simp at hcs
        · simp at hcs
      | cons c cs =>
        simp only [List.map_cons, List.cons_append, List.cons.injEq] at hcs
        exact ⟨cs, hcs.2⟩
    · intro hfatal
      have := (h.closed hfatal).2.1
      rw [hbox] at this
      cases this
  · rfl
  · nofun
  · nofun

/-- The end of the stream is fetched: nothing is left. -/
theorem keeps_null {rest : List (Option (Chain α))} (h : s.Sound) (hpc : s.pc = .fetch f)
    (hbox : s.recvmbox = none :: rest) :
    RecvTurn.Keeps s ({ s with
      recvmbox := rest
      sock := s.sock.event .rcvMinus
      lastErr := ConnErr.clsd.setSafe s.lastErr }.noData f .closed) := by
  have hlast : s.sock.lastdata = none := h.fetching f hpc
  have hoff : s.sock.lastoffset = 0 := h.offset hlast
  have hends : rest = [] ∧ s.ended = true := by
    obtain ⟨cs, hcs⟩ := h.boxed
    rw [hbox] at hcs
    cases cs with
    | nil =>
      split at hcs
      · next hended => exact ⟨by simpa using hcs, hended.1⟩
      · simp at hcs
    | cons c cs => simp at hcs
  obtain ⟨rfl, hended⟩ := hends
  have hunread : s.unread = [] := by
    simp [unread, Sock.held, hlast, hbox, msgBytes]
  have hcopied : s.copied = f.mem := by simp only [copied, hpc, RecvPc.frame]
  refine keeps_noData nofun ?_ ?_ rfl (h.peeking f (by rw [hpc]; rfl)) fun _ hmem => ?_
  · rw [hcopied, hunread]
    simp [unread, Sock.held, Sock.event, hlast, msgBytes]
  · constructor
    · nofun
    · exact fun _ => hoff
    · nofun
    · exact ⟨[], by simp [setSafe_clsd_isFatal]⟩
    · exact fun _ => ⟨hended, rfl, hlast⟩
  · rw [hcopied, hmem, hunread]
    exact ⟨rfl, hended⟩

theorem keeps_turnFetch {expired : Bool} {t : RecvTurn α} (h : s.Sound) (hpc : s.pc = .fetch f)
    (ht : s.turnFetch expired f = some t) : t.Keeps s := by
  simp only [turnFetch] at ht
  split at ht
  · split at ht
    · cases ht
      exact keeps_expired h hpc
    · cases ht
  · next chain rest hbox =>
    cases ht
    exact keeps_chain h hpc hbox
  · next rest hbox =>
    cases ht
    obtain ⟨hflow, hsound, hended, hpeeked, hclosed⟩ := keeps_null h hpc hbox
    exact ⟨hflow, hsound, hended, hpeeked, hclosed⟩

theorem held_take {chain : Chain α} {copylen : ℕ} {sock : Sock Unit (Chain α)}
    (hle : copylen ≤ chain.data.length - sock.lastoffset) :
    (take chain copylen sock).held = (chain.data.drop sock.lastoffset).drop copylen := by
  simp only [take]
  split
  · simp [Sock.held, msgBytes, List.drop_drop]
  · rw [List.drop_eq_nil_of_le (by rw [List.length_drop]; omega)]
    rfl

theorem offset_take {chain : Chain α} {copylen : ℕ} {sock : Sock Unit (Chain α)}
    (hnone : (take chain copylen sock).lastdata = none) :
    (take chain copylen sock).lastoffset = 0 := by
  simp only [take] at hnone ⊢
  split at hnone
  · cases hnone
  · next hlt => rw [if_neg hlt]

theorem keeps_turnCopy {chain : Chain α} (h : s.Sound) (hpc : s.pc = .copy f)
    (hlast : s.sock.lastdata = some chain) : (s.turnCopy f chain).Keeps s := by
  have hcopied : s.copied = f.mem := by simp only [copied, hpc, RecvPc.frame]
  have hpeek : f.peek = true → f.mem = [] := h.peeking f (by rw [hpc]; rfl)
  have hopen : s.lastErr.isFatal = false := by
    by_contra hfatal
    have := (h.closed (by simpa using hfatal)).2.2
    rw [hlast] at this
    cases this
  have hheld : s.sock.held = chain.data.drop s.sock.lastoffset := by
    simp only [Sock.held, hlast, msgBytes]
  simp only [turnCopy]
  generalize hn : min f.len (chain.data.length - s.sock.lastoffset) = copylen
  have hle : copylen ≤ chain.data.length - s.sock.lastoffset := hn ▸ min_le_right _ _
  split
  · constructor
    · rw [hcopied]
      rfl
    · refine ⟨fun g hg => ?_, h.offset, nofun, h.boxed, h.closed⟩
      cases hg
      exact hpeek
    · rfl
    · nofun
    · nofun
  · generalize hsock : (if f.peek then s.sock else take chain copylen s.sock) = sock
    have hflow : s.copied ++ s.unread = (if f.peek then []
        else f.mem ++ (chain.data.drop s.sock.lastoffset).take copylen) ++
          { s with sock := sock }.unread := by
      rw [hcopied]
      cases hp : f.peek with
      | true =>
        rw [hp, if_pos rfl] at hsock
        rw [hpeek hp, ← hsock]
        rfl
      | false =>
        rw [hp] at hsock
        have hnext : sock.held = (chain.data.drop s.sock.lastoffset).drop copylen :=
          hsock ▸ held_take hle
        simp only [unread, hnext, hheld, Bool.false_eq_true, if_false, List.append_assoc]
        rw [← List.append_assoc (List.take _ _), List.take_append_drop]
    have hsound : ∀ pc : RecvPc α, (∀ g, pc.frame = some g → g.peek = true → g.mem = []) →
        (∀ g, pc ≠ .fetch g) → { s with sock := sock, pc := pc }.Sound := by
      intro pc hframe hfetch
      refine ⟨hframe, fun hnone => ?_, fun g hg => absurd hg (hfetch g), h.boxed, fun hfatal => ?_⟩
      · subst hsock
        cases hp : f.peek with
        | true => simp [hp, hlast] at hnone
        | false => exact offset_take (by simpa [hp] using hnone)
      · rw [hopen] at hfatal
        cases hfatal
    split
    · refine keeps_finish hflow (hsound _ nofun nofun) rfl fun hp => ?_
      rw [hcopied, hpeek hp, unread, hheld]
      exact (List.take_prefix _ _).trans (List.prefix_append _ _)
    · next hdone =>
      have hno : f.peek = false := by
        by_contra hp
        exact hdone (.inr (.inr (.inr (by simpa using hp))))
      constructor
      · rw [hflow, hno]
        rfl
      · refine hsound _ (fun g hg hp => ?_) nofun
        cases hg
        rw [hno] at hp
        cases hp
      · rfl
      · nofun
      · nofun

theorem keeps_turn {expired : Bool} {t : RecvTurn α} (h : s.Sound) (ht : s.turn expired = some t) :
    t.Keeps s := by
  simp only [turn] at ht
  split at ht
  case h_1 | h_5 => cases ht
  case h_2 hpc =>
    cases ht
    exact keeps_turnTop h hpc
  case h_3 hpc => exact keeps_turnFetch h hpc ht
  case h_4 hpc =>
    obtain ⟨chain, hlast, rfl⟩ := Option.map_eq_some_iff.1 ht
    exact keeps_turnCopy h hpc hlast

/-! ### The credit -/

theorem finish_credit (hpeek : f.peek = true → f.mem = []) :
    (s.finish f).recved.sum = (Returned.read (s.finish f).returned).length := by
  rw [finish_recved_sum]
  cases hp : f.peek with
  | true => simp [Returned.read, finish, hp, hpeek hp]
  | false => simp [Returned.read, finish, hp]

theorem noData_credit (s : RecvState α) {r : RecvResult α} (hbytes : ∀ mem, r ≠ .bytes mem)
    (hpeek : f.peek = true → f.mem = []) :
    (s.noData f r).recved.sum + s.finCredit =
      (Returned.read (s.noData f r).returned).length + (s.noData f r).next.finCredit := by
  simp only [noData]
  split
  · rw [finish_credit hpeek]
    rfl
  · cases r <;> first
      | exact absurd rfl (hbytes _)
      | cases hp : f.peek <;> simp [Returned.read, finCredit]

/-- What a turn credits, unless it peeks. -/
theorem turn_credit {expired : Bool} {t : RecvTurn α} (h : s.Sound) (ht : s.turn expired = some t)
    (hpeek : ∀ f, s.pc = .copy f → f.peek = true → f.len = 0) :
    t.recved.sum + s.finCredit = (Returned.read t.returned).length + t.next.finCredit := by
  simp only [turn] at ht
  split at ht
  case h_1 | h_5 => cases ht
  case h_2 f hpc =>
    have hmem := h.peeking f (by rw [hpc]; rfl)
    cases ht
    simp only [turnTop]
    split
    · rfl
    · split
      · exact noData_credit s nofun hmem
      · split
        · exact noData_credit s nofun hmem
        · rfl
  case h_3 f hpc =>
    have hmem := h.peeking f (by rw [hpc]; rfl)
    simp only [turnFetch] at ht
    split at ht
    · split at ht
      · cases ht
        have hsame : { s with lastErr := ConnErr.timeout.setSafe s.lastErr }.finCredit =
            s.finCredit := by
          simp only [finCredit, setSafe_timeout_isFatal]
        rw [← hsame]
        exact noData_credit _ nofun hmem
      · cases ht
    · cases ht
      rfl
    · next rest hbox =>
      have hopen : s.finCredit = 0 := by
        refine if_neg fun hfatal => ?_
        have := (h.closed hfatal).2.1
        rw [hbox] at this
        cases this
      have htaken : { s with
          recvmbox := rest
          sock := s.sock.event .rcvMinus
          lastErr := ConnErr.clsd.setSafe s.lastErr }.finCredit = 1 := by
        simp only [finCredit, setSafe_clsd_isFatal, if_true]
      have hcredit := noData_credit { s with
        recvmbox := rest
        sock := s.sock.event .rcvMinus
        lastErr := ConnErr.clsd.setSafe s.lastErr } (r := .closed) nofun hmem
      cases ht
      dsimp only
      rw [List.sum_cons, hopen, ← hcredit, htaken, Nat.add_zero, Nat.add_comm]
  case h_4 f hpc =>
    have hmem := h.peeking f (by rw [hpc]; rfl)
    obtain ⟨chain, -, rfl⟩ := Option.map_eq_some_iff.1 ht
    simp only [turnCopy]
    generalize (if f.peek then s.sock else take chain _ s.sock) = sock
    split
    · rfl
    · split
      · rw [finish_credit fun hp => by simp [hmem hp, hpeek f hpc hp]]
        rfl
      · rfl

/-- Only the copy of more than `INT_MAX` bytes overflows. -/
theorem turn_overflow {expired : Bool} {t : RecvTurn α} (ht : s.turn expired = some t)
    (hle : ∀ f chain, s.pc = .copy f → s.sock.lastdata = some chain →
      f.mem.length + min f.len (chain.data.length - s.sock.lastoffset) ≤ intMax) :
    t.next.pc ≠ .overflow f := by
  have hnoData : ∀ (s : RecvState α) g result, (s.noData g result).next.pc = .idle := by
    intro s g result
    simp only [noData, finish]
    split <;> rfl
  simp only [turn] at ht
  split at ht
  case h_1 | h_5 => cases ht
  case h_2 g hpc =>
    cases ht
    simp only [turnTop]
    split
    · nofun
    · split
      · rw [hnoData]
        nofun
      · split
        · rw [hnoData]
          nofun
        · nofun
  case h_3 g hpc =>
    simp only [turnFetch] at ht
    split at ht
    · split at ht
      · cases ht
        rw [hnoData]
        nofun
      · cases ht
    · cases ht
      nofun
    · cases ht
      dsimp only
      rw [hnoData]
      nofun
  case h_4 g hpc =>
    obtain ⟨chain, hlast, rfl⟩ := Option.map_eq_some_iff.1 ht
    simp only [turnCopy]
    generalize (if g.peek then s.sock else take chain _ s.sock) = sock
    have := hle g chain hpc hlast
    split
    · omega
    · split <;> nofun

end RecvState

/-! ### Runs -/

@[simp] theorem delivered_snoc (as : List (RecvEvent α)) (a : RecvEvent α) :
    delivered (as ++ [a]) = delivered as ++ a.delivered := by
  simp [delivered]

@[simp] theorem readBytes_snoc (as : List (RecvEvent α)) (a : RecvEvent α) :
    readBytes (as ++ [a]) = readBytes as ++ a.read := by
  simp [readBytes]

@[simp] theorem credited_snoc (as : List (RecvEvent α)) (a : RecvEvent α) :
    credited (as ++ [a]) = credited as + a.credited := by
  simp [credited]

/-- What one step does: the bytes that it delivers come last, the bytes that it returns were first. -/
structure StepKeeps (s : RecvState α) (a : RecvEvent α) (t : RecvState α) : Prop where
  sound : t.Sound
  flow : s.copied ++ s.unread ++ a.delivered = a.read ++ (t.copied ++ t.unread)
  ended : s.ended = true → t.ended = true ∧ a.delivered = []

theorem stepKeeps {s t : RecvState α} {a : RecvEvent α} (h : s.Sound)
    (hs : (receiving α).step s a t) : StepKeeps s a t := by
  cases a with
  | post msg =>
    obtain ⟨hopen, rfl⟩ := hs
    have hfatal : s.lastErr.isFatal = false := by
      by_contra hf
      have := (h.closed (by simpa using hf)).1
      rw [hopen] at this
      cases this
    obtain ⟨cs, hbox⟩ := h.boxed
    rw [hopen] at hbox
    have hbox : s.recvmbox = cs.map some := by simpa using hbox
    refine ⟨⟨h.peeking, h.offset, h.fetching, ?_, fun hf => ?_⟩, ?_, fun hended => ?_⟩
    · cases msg with
      | none => exact ⟨cs, by simp [hbox, hfatal]⟩
      | some chain => exact ⟨cs ++ [chain], by simp [hbox]⟩
    · rw [hfatal] at hf
      cases hf
    · cases msg <;>
        simp [RecvEvent.delivered, RecvEvent.read, RecvState.unread, RecvState.copied, msgBytes]
    · rw [hopen] at hended
      cases hended
  | notify =>
    obtain ⟨-, rfl⟩ := hs
    refine ⟨⟨h.peeking, h.offset, h.fetching, h.boxed, h.closed⟩, ?_, fun hended => ⟨hended, rfl⟩⟩
    simp [RecvEvent.delivered, RecvEvent.read, RecvState.unread, RecvState.copied, Sock.held, Sock.event]
  | call c =>
    obtain ⟨hidle, rfl⟩ := hs
    refine ⟨⟨fun f hf _ => ?_, h.offset, nofun, h.boxed, h.closed⟩, ?_, fun hended => ⟨hended, rfl⟩⟩
    · cases hf
      rfl
    · simp [RecvEvent.delivered, RecvEvent.read, RecvState.unread, RecvState.copied, hidle,
        RecvPc.frame]
  | turn expired recved returned =>
    have hkeeps := RecvState.keeps_turn h hs
    refine ⟨hkeeps.sound, ?_, fun hended => ⟨hkeeps.ended.trans hended, rfl⟩⟩
    rw [hkeeps.flow]
    exact List.append_nil _

variable {ok : RecvState α → RecvEvent α → Prop} {as : List (RecvEvent α)} {s : RecvState α}

/-- The bytes of a run, up to a state of it. -/
structure Streamed (as : List (RecvEvent α)) (s : RecvState α) : Prop where
  sound : s.Sound
  bytes : delivered as = readBytes as ++ (s.copied ++ s.unread)

theorem streamed (h : (receiving α).Run ok as s) : Streamed as s := by
  refine h.invariant (I := Streamed) ?_ ?_
  · rintro _ rfl
    exact ⟨⟨nofun, fun _ => rfl, nofun, ⟨[], rfl⟩, nofun⟩, rfl⟩
  · rintro as s a t - ⟨hsound, hbytes⟩ - hs
    have hkeeps := stepKeeps hsound hs
    refine ⟨hkeeps.sound, ?_⟩
    rw [delivered_snoc, readBytes_snoc, hbytes, List.append_assoc, hkeeps.flow, List.append_assoc]

/-- Nothing is delivered after the end of the stream. -/
theorem delivered_after_end {t : RecvState α} (hsound : t.Sound) (hended : t.ended = true)
    (h : ((receiving α).startAt t).Run ok as s) : delivered as = [] := by
  suffices hinv : s.Sound ∧ s.ended = true ∧ delivered as = [] from hinv.2.2
  refine h.invariant (I := fun as s => s.Sound ∧ s.ended = true ∧ delivered as = []) ?_ ?_
  · rintro _ rfl
    exact ⟨hsound, hended, rfl⟩
  · rintro as s a t - ⟨hsound, hs, has⟩ - hstep
    have hkeeps := stepKeeps hsound hstep
    obtain ⟨ht, ha⟩ := hkeeps.ended hs
    exact ⟨hkeeps.sound, ht, by rw [delivered_snoc, has, ha, List.append_nil]⟩

/-- The calls return the stream in order, a peeking call what comes next, and the end only when all
of it has been returned. -/
theorem stream_returned (h : (receiving α).Run ok as s) :
    readBytes as <+: delivered as ∧
      (∀ bs cs e r mem, as = bs ++ .turn e r (some ⟨true, .bytes mem⟩) :: cs →
        readBytes bs ++ mem <+: delivered bs) ∧
      ∀ bs cs e r p, as = bs ++ .turn e r (some ⟨p, .closed⟩) :: cs →
        readBytes bs = delivered as := by
  refine ⟨?_, ?_, ?_⟩
  · rw [(streamed h).bytes]
    exact List.prefix_append _ _
  · rintro bs cs e r mem rfl
    obtain ⟨s₁, s₂, hbs, -, hs, -⟩ := h.split
    have hbytes := (streamed hbs).bytes
    have hkeeps := RecvState.keeps_turn (streamed hbs).sound hs
    rw [hbytes]
    exact (List.prefix_append_right_inj _).2 (hkeeps.peeked mem rfl)
  · rintro bs cs e r p rfl
    obtain ⟨s₁, s₂, hbs, -, hs, hcs⟩ := h.split
    have hbytes := (streamed hbs).bytes
    have hkeeps := RecvState.keeps_turn (streamed hbs).sound hs
    obtain ⟨hnil, hended⟩ := hkeeps.closed p rfl
    have hafter := delivered_after_end hkeeps.sound (hkeeps.ended.trans hended) hcs
    rw [hnil, List.append_nil] at hbytes
    have hsplit : delivered (bs ++ .turn e r (some ⟨p, .closed⟩) :: cs) =
        delivered bs ++ delivered cs := by
      simp [delivered, RecvEvent.delivered]
    rw [hsplit, hafter, List.append_nil, hbytes]

/-- One byte with `PSH`. -/
def oneByte : Chain Bool where
  data := [true]
  push := true
  nonempty := by decide
  totLen_lt := by decide

end QuietLwip.Sockets
