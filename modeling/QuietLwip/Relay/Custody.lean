import QuietLwip.Relay.Threads

/-!
# Custody of the directions

What the two threads pass to each other, without the queues and arrays it lies in: for
each direction of a connection one token, which says whether the buffer is to be read
into or written from, and one for each call of `relay_conn_close` that is under way.
Every step replaces one token by another.
-/

namespace QuietLwip.Relay

open QuietLwip.Slots QuietLwip.Transition

inductive Token where
  -- `bufs[a]` is empty and may be read into
  | reading (a : Agent) (c : ConnId)
  -- the first `k` bytes of `bufs[a]` are to be written
  | writing (a : Agent) (c : ConnId) (k : ℕ)
  -- `relay_conn_close` was called
  | closing (c : ConnId)
  -- `relay_conn_destroy` was called
  | destroying (c : ConnId)
  deriving DecidableEq

/-- The token of a direction. -/
def Token.Of (a : Agent) (c : ConnId) : Token → Prop
  | reading b d => b = a ∧ d = c
  | writing b d _ => b = a ∧ d = c
  | _ => False

instance (a : Agent) (c : ConnId) : DecidablePred (Token.Of a c) := by
  intro t
  cases t <;> simp only [Token.Of] <;> infer_instance

structure Custody where
  conns : ConnId → Option RelayConn
  log : ConnId → Log
  tokens : Multiset Token

namespace Custody

/-- What a step of a thread can do. -/
inductive Step (q q' : Custody) : Prop
  | idle (hconns : q'.conns = q.conns) (hlog : q'.log = q.log) (htok : q'.tokens = q.tokens)
  | create (c : ConnId) (conn : RelayConn) (hc : q.conns c = none) (hnew : conn.closeCount = 0)
      (hfd : conn.fd .lwip < NUM_SOCKETS ∧
        ∀ d conn', q.conns d = some conn' → conn'.fd .lwip ≠ conn.fd .lwip)
      (htok' : q'.tokens = .reading .lwip c ::ₘ .reading .native c ::ₘ q.tokens)
      (hconns : q'.conns = Function.update q.conns c (some conn))
      (hlog : q'.log = Function.update q.log c Log.new)
  | receive (a : Agent) (c : ConnId) (conn : RelayConn) (bs : List UInt8) (r : Multiset Token)
      (htok : q.tokens = .reading a c ::ₘ r) (hc : q.conns c = some conn)
      (hlen : bs.length ≤ conn.buflens a) (htok' : q'.tokens = .writing a c bs.length ::ₘ r)
      (hconns : q'.conns =
        Function.update q.conns c (some (conn.setBuf a (overwrite (conn.bufs a) bs))))
      (hlog : q'.log = Function.update q.log c ((q.log c).receive a bs))
  | sendPart (a : Agent) (c : ConnId) (conn : RelayConn) (n k : ℕ) (r : Multiset Token)
      (htok : q.tokens = .writing a c k ::ₘ r) (hc : q.conns c = some conn) (hn : n < k)
      (htok' : q'.tokens = .writing a c (k - n) ::ₘ r)
      (hconns : q'.conns =
        Function.update q.conns c (some (conn.setBuf a (moveDown (conn.bufs a) n (k - n)))))
      (hlog : q'.log = Function.update q.log c ((q.log c).send a (slots (conn.bufs a) n)))
  | sendAll (a : Agent) (c : ConnId) (conn : RelayConn) (k : ℕ) (r : Multiset Token)
      (htok : q.tokens = .writing a c k ::ₘ r) (hc : q.conns c = some conn)
      (htok' : q'.tokens = .reading a c ::ₘ r) (hconns : q'.conns = q.conns)
      (hlog : q'.log = Function.update q.log c ((q.log c).send a (slots (conn.bufs a) k)))
  | close (a : Agent) (c : ConnId) (t : Token) (r : Multiset Token)
      (htok : q.tokens = t ::ₘ r) (ht : t.Of a c)
      (htok' : q'.tokens = .closing c ::ₘ r) (hconns : q'.conns = q.conns)
      (hlog : q'.log = Function.update q.log c ((q.log c).close a))
  | firstClose (c : ConnId) (conn : RelayConn) (r : Multiset Token)
      (htok : q.tokens = .closing c ::ₘ r) (hc : q.conns c = some conn)
      (hzero : conn.closeCount = 0) (htok' : q'.tokens = r)
      (hconns : q'.conns = Function.update q.conns c (some { conn with closeCount := 1 }))
      (hlog : q'.log = q.log)
  | lastClose (c : ConnId) (conn : RelayConn) (r : Multiset Token)
      (htok : q.tokens = .closing c ::ₘ r) (hc : q.conns c = some conn)
      (hone : conn.closeCount ≠ 0) (htok' : q'.tokens = .destroying c ::ₘ r)
      (hconns : q'.conns = q.conns) (hlog : q'.log = q.log)
  | destroy (c : ConnId) (conn : RelayConn) (r : Multiset Token)
      (htok : q.tokens = .destroying c ::ₘ r) (hc : q.conns c = some conn)
      (htok' : q'.tokens = r) (hconns : q'.conns = Function.update q.conns c none)
      (hlog : q'.log = Function.update q.log c (q.log c).destroy)

/-- How often the direction `a` of `c` occurs. -/
def occurrences (q : Custody) (a : Agent) (c : ConnId) : ℕ := q.tokens.countP (Token.Of a c)

def closes (q : Custody) (c : ConnId) : ℕ := q.tokens.count (.closing c)
def destroys (q : Custody) (c : ConnId) : ℕ := q.tokens.count (.destroying c)

def closedDirections (l : Log) : ℕ := (l.closed .lwip).toNat + (l.closed .native).toNat

/-- A connection that exists: each direction occurs until it is closed, and the calls of
`relay_conn_close` are the one that `close_count` counts and those under way. -/
structure Alive (q : Custody) (c : ConnId) (conn : RelayConn) : Prop where
  occurs : ∀ a, q.occurrences a c = if (q.log c).closed a then 0 else 1
  count : conn.closeCount + q.closes c + q.destroys c = closedDirections (q.log c)
  count_le : conn.closeCount ≤ 1
  destroying : q.destroys c ≠ 0 → conn.closeCount = 1
  destroyed : (q.log c).destroyed = 0

/-- A connection that does not exist, or no longer. -/
structure Dead (q : Custody) (c : ConnId) : Prop where
  occurs : ∀ a, q.occurrences a c = 0
  closes : q.closes c = 0
  destroys : q.destroys c = 0
  destroyed : (q.log c).destroyed ≤ 1
  closed : (q.log c).destroyed = 1 → ∀ a, (q.log c).closed a = true

def ConnOk (q : Custody) (c : ConnId) : Prop :=
  match q.conns c with
  | some conn => q.Alive c conn
  | none => q.Dead c

/-- What is read and not yet written is what the token says. -/
def Holds (q : Custody) : Token → Prop
  | .reading a c => (q.log c).received a = (q.log c).sent a
  | .writing a c k => ∀ conn, q.conns c = some conn →
      (q.log c).received a = (q.log c).sent a ++ slots (conn.bufs a) k ∧ k ≤ conn.buflens a
  | _ => True

structure Inv (q : Custody) : Prop where
  conn : ∀ c, q.ConnOk c
  streams : ∀ t ∈ q.tokens, q.Holds t
  isPrefix : ∀ c a, (q.log c).sent a <+: (q.log c).received a

theorem ConnOk.alive {q : Custody} {c : ConnId} {conn : RelayConn} (h : q.ConnOk c)
    (hc : q.conns c = some conn) : q.Alive c conn := by
  rw [ConnOk, hc] at h
  exact h

theorem ConnOk.dead {q : Custody} {c : ConnId} (h : q.ConnOk c) (hc : q.conns c = none) :
    q.Dead c := by
  rw [ConnOk, hc] at h
  exact h

theorem Alive.connOk {q : Custody} {c : ConnId} {conn : RelayConn} (h : q.Alive c conn)
    (hc : q.conns c = some conn) : q.ConnOk c := by
  rw [ConnOk, hc]
  exact h

theorem Dead.connOk {q : Custody} {c : ConnId} (h : q.Dead c) (hc : q.conns c = none) :
    q.ConnOk c := by
  rw [ConnOk, hc]
  exact h

/-- Connections a step is not about. -/
theorem ConnOk.frame {q q' : Custody} {c : ConnId} (h : q.ConnOk c)
    (hconn : q'.conns c = q.conns c) (hlog : q'.log c = q.log c)
    (hocc : ∀ a, q'.occurrences a c = q.occurrences a c) (hcl : q'.closes c = q.closes c)
    (hde : q'.destroys c = q.destroys c) : q'.ConnOk c := by
  cases hc : q.conns c with
  | none =>
    obtain ⟨h₁, h₂, h₃, h₄, h₅⟩ := h.dead hc
    refine Dead.connOk ⟨?_, ?_, ?_, ?_, ?_⟩ (hconn.trans hc)
    · intro a
      rw [hocc, h₁]
    · rw [hcl, h₂]
    · rw [hde, h₃]
    · rw [hlog]
      exact h₄
    · rw [hlog]
      exact h₅
  | some conn =>
    obtain ⟨h₁, h₂, h₃, h₄, h₅⟩ := h.alive hc
    refine Alive.connOk ⟨?_, ?_, h₃, ?_, ?_⟩ (hconn.trans hc)
    · intro a
      rw [hocc, hlog, h₁]
    · rw [hcl, hde, hlog, h₂]
    · rw [hde]
      exact h₄
    · rw [hlog]
      exact h₅

/-- A token holds as long as nothing happens to its direction. -/
theorem Holds.frame {q q' : Custody} {t : Token} (h : q.Holds t)
    (hlog : ∀ a c, t.Of a c → (q'.log c).received a = (q.log c).received a ∧
      (q'.log c).sent a = (q.log c).sent a)
    (hbuf : ∀ a c conn', t.Of a c → q'.conns c = some conn' →
      ∃ conn, q.conns c = some conn ∧ conn'.bufs a = conn.bufs a ∧
        conn'.buflens = conn.buflens) : q'.Holds t := by
  cases t with
  | reading a c =>
    obtain ⟨hr, hs⟩ := hlog a c ⟨rfl, rfl⟩
    show (q'.log c).received a = (q'.log c).sent a
    rw [hr, hs]
    exact h
  | writing a c k =>
    intro conn' hc'
    obtain ⟨hr, hs⟩ := hlog a c ⟨rfl, rfl⟩
    obtain ⟨conn, hc, hb, hlen⟩ := hbuf a c conn' ⟨rfl, rfl⟩ hc'
    rw [hr, hs, hb, hlen]
    exact h conn hc
  | closing c => trivial
  | destroying c => trivial

/-! ### Counting tokens -/

section Counts

variable {q : Custody} {t : Token} {r : Multiset Token} (h : q.tokens = t ::ₘ r)
include h

theorem occurrences_cons (a : Agent) (c : ConnId) :
    q.occurrences a c = r.countP (Token.Of a c) + if t.Of a c then 1 else 0 := by
  rw [occurrences, h, Multiset.countP_cons]

theorem closes_cons (c : ConnId) :
    q.closes c = r.count (.closing c) + if Token.closing c = t then 1 else 0 := by
  rw [closes, h, Multiset.count_cons]

theorem destroys_cons (c : ConnId) :
    q.destroys c = r.count (.destroying c) + if Token.destroying c = t then 1 else 0 := by
  rw [destroys, h, Multiset.count_cons]

end Counts

theorem Of.iff {t : Token} {a b : Agent} {c d : ConnId} (ht : t.Of a c) :
    t.Of b d ↔ a = b ∧ c = d := by
  cases t with
  | reading a' c' =>
    obtain ⟨rfl, rfl⟩ := ht
    exact Iff.rfl
  | writing a' c' k =>
    obtain ⟨rfl, rfl⟩ := ht
    exact Iff.rfl
  | closing c' => exact ht.elim
  | destroying c' => exact ht.elim

theorem Of.ne_closing {t : Token} {a : Agent} {c : ConnId} (ht : t.Of a c) (d : ConnId) :
    Token.closing d ≠ t := by
  rintro rfl
  exact ht

theorem Of.ne_destroying {t : Token} {a : Agent} {c : ConnId} (ht : t.Of a c) (d : ConnId) :
    Token.destroying d ≠ t := by
  rintro rfl
  exact ht

/-! ### The steps keep the invariant -/

/-- Only `c` changes. -/
def Local (q q' : Custody) (c : ConnId) : Prop :=
  ∀ d, d ≠ c → q'.conns d = q.conns d ∧ q'.log d = q.log d

variable {q q' : Custody} {t t' : Token} {r : Multiset Token} {a : Agent} {c : ConnId}
  {conn conn' : RelayConn}

/-- The direction of a token is open, and no other token is about it. -/
theorem Inv.alone (hq : q.Inv) (htok : q.tokens = t ::ₘ r) (ht : t.Of a c)
    (hc : q.conns c = some conn) : (q.log c).closed a = false ∧ ∀ u ∈ r, ¬u.Of a c := by
  have hocc := ((hq.conn c).alive hc).occurs a
  rw [occurrences_cons htok, if_pos ht] at hocc
  cases hcl : (q.log c).closed a with
  | true =>
    rw [if_pos hcl] at hocc
    omega
  | false =>
    rw [if_neg (by rw [hcl]; decide)] at hocc
    refine ⟨rfl, ?_⟩
    intro u hu hof
    have hpos : 0 < Multiset.countP (Token.Of a c) r := Multiset.countP_pos.mpr ⟨u, hu, hof⟩
    omega

/-- Direction `a` of `c` moves on, and nothing else happens to the connection. -/
theorem Inv.replace (hq : q.Inv) (htok : q.tokens = t ::ₘ r) (htok' : q'.tokens = t' ::ₘ r)
    (hlocal : Local q q' c) (ht : t.Of a c) (ht' : t'.Of a c) (hc : q.conns c = some conn)
    (hc' : q'.conns c = some conn') (hcount : conn'.closeCount = conn.closeCount)
    (hbuflens : conn'.buflens = conn.buflens)
    (hclosed : (q'.log c).closed = (q.log c).closed)
    (hdestroyed : (q'.log c).destroyed = (q.log c).destroyed)
    (hbufs : ∀ b, b ≠ a → conn'.bufs b = conn.bufs b)
    (hstreams : ∀ b, b ≠ a → (q'.log c).received b = (q.log c).received b ∧
      (q'.log c).sent b = (q.log c).sent b)
    (hholds : q'.Holds t') (hpre : (q'.log c).sent a <+: (q'.log c).received a) : q'.Inv := by
  have halone := (hq.alone htok ht hc).2
  -- the new token is about the same direction as the old one
  have hocc : ∀ b d, q'.occurrences b d = q.occurrences b d := by
    intro b d
    rw [occurrences_cons htok, occurrences_cons htok']
    simp only [Of.iff ht, Of.iff ht']
  have hcl : ∀ d, q'.closes d = q.closes d := by
    intro d
    rw [closes_cons htok, closes_cons htok', if_neg (Of.ne_closing ht d),
      if_neg (Of.ne_closing ht' d)]
  have hde : ∀ d, q'.destroys d = q.destroys d := by
    intro d
    rw [destroys_cons htok, destroys_cons htok', if_neg (Of.ne_destroying ht d),
      if_neg (Of.ne_destroying ht' d)]
  constructor
  · intro d
    by_cases hd : d = c
    · subst hd
      obtain ⟨h₁, h₂, h₃, h₄, h₅⟩ := (hq.conn d).alive hc
      refine Alive.connOk ⟨?_, ?_, ?_, ?_, ?_⟩ hc'
      · intro b
        rw [hocc, h₁, hclosed]
      · rw [hcl, hde, closedDirections, hclosed, hcount]
        exact h₂
      · rw [hcount]
        exact h₃
      · rw [hde, hcount]
        exact h₄
      · rw [hdestroyed]
        exact h₅
    · exact (hq.conn d).frame (hlocal d hd).1 (hlocal d hd).2 (fun b => hocc b d) (hcl d) (hde d)
  · intro u hu
    rw [htok'] at hu
    rcases Multiset.mem_cons.mp hu with rfl | hu
    · exact hholds
    · -- what is left is about another connection or the other direction
      have hother : ∀ b, u.Of b c → b ≠ a := by
        rintro b hub rfl
        exact halone u hu hub
      refine (hq.streams u (by rw [htok]; exact Multiset.mem_cons_of_mem hu)).frame ?_ ?_
      · intro b d hud
        by_cases hd : d = c
        · subst hd
          exact hstreams b (hother b hud)
        · rw [(hlocal d hd).2]
          exact ⟨rfl, rfl⟩
      · intro b d conn'' hud hcd
        by_cases hd : d = c
        · subst hd
          rw [hc'] at hcd
          cases hcd
          exact ⟨conn, hc, hbufs b (hother b hud), hbuflens⟩
        · rw [(hlocal d hd).1] at hcd
          exact ⟨conn'', hcd, rfl, rfl⟩
  · intro d b
    by_cases hd : d = c
    · subst hd
      by_cases hb : b = a
      · rw [hb]
        exact hpre
      · rw [(hstreams b hb).1, (hstreams b hb).2]
        exact hq.isPrefix d b
    · rw [(hlocal d hd).2]
      exact hq.isPrefix d b

/-- Steps that change neither the buffers nor what was received and sent. -/
theorem Inv.of_conn (hq : q.Inv) (hconn : ∀ d, q'.ConnOk d)
    (hlog : ∀ d, (q'.log d).received = (q.log d).received ∧ (q'.log d).sent = (q.log d).sent)
    (hbuf : ∀ d conn', q'.conns d = some conn' →
      ∃ conn, q.conns d = some conn ∧ conn'.bufs = conn.bufs ∧ conn'.buflens = conn.buflens)
    (htok : ∀ u ∈ q'.tokens, u ∈ q.tokens ∨ q'.Holds u) : q'.Inv := by
  refine ⟨hconn, ?_, ?_⟩
  · intro u hu
    rcases htok u hu with hold | hnew
    · refine (hq.streams u hold).frame ?_ ?_
      · intro b d _
        rw [(hlog d).1, (hlog d).2]
        exact ⟨rfl, rfl⟩
      · intro b d conn'' _ hd
        obtain ⟨conn, hd', hb, hlen⟩ := hbuf d conn'' hd
        exact ⟨conn, hd', by rw [hb], hlen⟩
    · exact hnew
  · intro d b
    rw [(hlog d).1, (hlog d).2]
    exact hq.isPrefix d b

theorem closedDirections_close {l : Log} (h : l.closed a = false) :
    closedDirections (l.close a) = closedDirections l + 1 := by
  cases a with
  | lwip =>
    simp only [closedDirections, Log.close, Function.update_self,
      Function.update_of_ne (show Agent.native ≠ Agent.lwip by decide), h]
    simp
    omega
  | native =>
    simp only [closedDirections, Log.close, Function.update_self,
      Function.update_of_ne (show Agent.lwip ≠ Agent.native by decide), h]
    simp

theorem closedDirections_le (l : Log) : closedDirections l ≤ 2 := by
  have h₁ := (l.closed .lwip).toNat_le
  have h₂ := (l.closed .native).toNat_le
  unfold closedDirections
  omega

/-- Both directions are closed. -/
theorem closed_of_closedDirections {l : Log} (h : closedDirections l = 2) (a : Agent) :
    l.closed a = true := by
  have h₁ := (l.closed .lwip).toNat_le
  have h₂ := (l.closed .native).toNat_le
  unfold closedDirections at h
  cases a with
  | lwip => exact Bool.toNat_eq_one.mp (by omega)
  | native => exact Bool.toNat_eq_one.mp (by omega)

theorem Inv.close (hq : q.Inv) (htok : q.tokens = t ::ₘ r) (ht : t.Of a c)
    (htok' : q'.tokens = .closing c ::ₘ r) (hconns : q'.conns = q.conns)
    (hlog : q'.log = Function.update q.log c ((q.log c).close a)) : q'.Inv := by
  have hother : ∀ d, d ≠ c → q'.log d = q.log d := by
    intro d hd
    rw [hlog, Function.update_of_ne hd]
  have hself : q'.log c = (q.log c).close a := by rw [hlog, Function.update_self]
  have hde : ∀ d, q'.destroys d = q.destroys d := by
    intro d
    rw [destroys_cons htok, destroys_cons htok', if_neg (Of.ne_destroying ht d), if_neg nofun]
  refine hq.of_conn ?_ ?_ ?_ ?_
  · intro d
    by_cases hd : d = c
    · subst hd
      cases hc : q.conns d with
      | none =>
        have hocc := ((hq.conn d).dead hc).occurs a
        rw [occurrences_cons htok, if_pos ht] at hocc
        omega
      | some conn =>
        obtain ⟨hopen, halone⟩ := hq.alone htok ht hc
        obtain ⟨h₁, h₂, h₃, h₄, h₅⟩ := (hq.conn d).alive hc
        refine Alive.connOk ⟨?_, ?_, h₃, ?_, ?_⟩ (by rw [hconns]; exact hc)
        · intro b
          rw [occurrences_cons htok', hself]
          by_cases hb : b = a
          · have hnone : Multiset.countP (Token.Of a d) r = 0 := by
              rw [Multiset.countP_eq_zero]
              exact halone
            rw [hb, hnone, Log.close_closed, Function.update_self]
            rfl
          · have hb' := h₁ b
            rw [occurrences_cons htok, if_neg fun hof => hb ((Of.iff ht).mp hof).1.symm] at hb'
            rw [Log.close_closed, Function.update_of_ne hb, ← hb']
            rfl
        · rw [closes_cons htok', hde, hself, closedDirections_close hopen, ← h₂,
            closes_cons htok, if_neg (Of.ne_closing ht d), if_pos rfl]
          omega
        · rw [hde]
          exact h₄
        · rw [hself]
          exact h₅
    · refine (hq.conn d).frame (by rw [hconns]) (hother d hd) ?_ ?_ (hde d)
      · intro b
        rw [occurrences_cons htok, occurrences_cons htok',
          if_neg fun hof => hd ((Of.iff ht).mp hof).2.symm]
        rfl
      · rw [closes_cons htok, closes_cons htok', if_neg (Of.ne_closing ht d),
          if_neg fun h => hd (Token.closing.inj h)]
  · intro d
    by_cases hd : d = c
    · subst hd
      rw [hself]
      exact ⟨rfl, rfl⟩
    · rw [hother d hd]
      exact ⟨rfl, rfl⟩
  · intro d conn' hd
    rw [hconns] at hd
    exact ⟨conn', hd, rfl, rfl⟩
  · intro u hu
    rw [htok'] at hu
    rcases Multiset.mem_cons.mp hu with rfl | hu
    · exact Or.inr trivial
    · left
      rw [htok]
      exact Multiset.mem_cons_of_mem hu

/-- The call that finds `close_count` at 0. -/
theorem Inv.firstClose (hq : q.Inv) (htok : q.tokens = .closing c ::ₘ r)
    (hc : q.conns c = some conn) (hzero : conn.closeCount = 0) (htok' : q'.tokens = r)
    (hconns : q'.conns = Function.update q.conns c (some { conn with closeCount := 1 }))
    (hlog : q'.log = q.log) : q'.Inv := by
  have hocc : ∀ b d, q'.occurrences b d = q.occurrences b d := by
    intro b d
    rw [occurrences_cons htok, occurrences, htok']
    rfl
  have hde : ∀ d, q'.destroys d = q.destroys d := by
    intro d
    rw [destroys_cons htok, destroys, htok', if_neg nofun, Nat.add_zero]
  have hother : ∀ d, d ≠ c → q'.conns d = q.conns d := by
    intro d hd
    rw [hconns, Function.update_of_ne hd]
  have hself : q'.conns c = some { conn with closeCount := 1 } := by
    rw [hconns, Function.update_self]
  refine hq.of_conn ?_ ?_ ?_ ?_
  · intro d
    by_cases hd : d = c
    · subst hd
      obtain ⟨h₁, h₂, h₃, h₄, h₅⟩ := (hq.conn d).alive hc
      refine Alive.connOk ⟨?_, ?_, le_rfl, fun _ => rfl, ?_⟩ hself
      · intro b
        rw [hocc, hlog]
        exact h₁ b
      · rw [closes_cons htok, if_pos rfl, hzero] at h₂
        rw [hde, hlog, closes, htok', ← h₂]
        show 1 + _ + _ = _
        omega
      · rw [hlog]
        exact h₅
    · refine (hq.conn d).frame (hother d hd) (by rw [hlog]) (fun b => hocc b d) ?_ (hde d)
      rw [closes_cons htok, closes, htok', if_neg fun h => hd (Token.closing.inj h), Nat.add_zero]
  · intro d
    rw [hlog]
    exact ⟨rfl, rfl⟩
  · intro d conn' hd
    by_cases hdc : d = c
    · subst hdc
      rw [hself] at hd
      cases hd
      exact ⟨conn, hc, rfl, rfl⟩
    · rw [hother d hdc] at hd
      exact ⟨conn', hd, rfl, rfl⟩
  · intro u hu
    left
    rw [htok, ← htok']
    exact Multiset.mem_cons_of_mem hu

/-- The call that finds `close_count` at 1. -/
theorem Inv.lastClose (hq : q.Inv) (htok : q.tokens = .closing c ::ₘ r)
    (hc : q.conns c = some conn) (hone : conn.closeCount ≠ 0)
    (htok' : q'.tokens = .destroying c ::ₘ r) (hconns : q'.conns = q.conns)
    (hlog : q'.log = q.log) : q'.Inv := by
  have hocc : ∀ b d, q'.occurrences b d = q.occurrences b d := by
    intro b d
    rw [occurrences_cons htok, occurrences_cons htok']
    rfl
  refine hq.of_conn ?_ ?_ ?_ ?_
  · intro d
    by_cases hd : d = c
    · subst hd
      obtain ⟨h₁, h₂, h₃, h₄, h₅⟩ := (hq.conn d).alive hc
      refine Alive.connOk ⟨?_, ?_, h₃, fun _ => by omega, ?_⟩ (by rw [hconns]; exact hc)
      · intro b
        rw [hocc, hlog]
        exact h₁ b
      · rw [closes_cons htok, destroys_cons htok, if_pos rfl, if_neg nofun] at h₂
        rw [hlog, closes_cons htok', destroys_cons htok', if_pos rfl, if_neg nofun, ← h₂]
        omega
      · rw [hlog]
        exact h₅
    · refine (hq.conn d).frame (by rw [hconns]) (by rw [hlog]) (fun b => hocc b d) ?_ ?_
      · rw [closes_cons htok, closes_cons htok', if_neg fun h => hd (Token.closing.inj h),
          if_neg nofun]
      · rw [destroys_cons htok, destroys_cons htok', if_neg fun h => hd (Token.destroying.inj h),
          if_neg nofun]
  · intro d
    rw [hlog]
    exact ⟨rfl, rfl⟩
  · intro d conn' hd
    rw [hconns] at hd
    exact ⟨conn', hd, rfl, rfl⟩
  · intro u hu
    rw [htok'] at hu
    rcases Multiset.mem_cons.mp hu with rfl | hu
    · exact Or.inr trivial
    · left
      rw [htok]
      exact Multiset.mem_cons_of_mem hu

/-- When a connection is about to be destroyed both directions are closed, so that none
of them occurs, and nobody else is closing or destroying it. -/
theorem Alive.of_destroying (h : q.Alive c conn) (hd : q.destroys c ≠ 0) :
    (∀ a, (q.log c).closed a = true) ∧ (∀ a, q.occurrences a c = 0) ∧ q.closes c = 0 ∧
      q.destroys c = 1 := by
  have hle := closedDirections_le (q.log c)
  have hcount := h.count
  have hone := h.destroying hd
  have hclosed := closed_of_closedDirections (l := q.log c) (by omega)
  refine ⟨hclosed, ?_, by omega, by omega⟩
  intro a
  rw [h.occurs, if_pos (hclosed a)]

theorem Inv.destroy (hq : q.Inv) (htok : q.tokens = .destroying c ::ₘ r)
    (hc : q.conns c = some conn) (htok' : q'.tokens = r)
    (hconns : q'.conns = Function.update q.conns c none)
    (hlog : q'.log = Function.update q.log c (q.log c).destroy) : q'.Inv := by
  have hocc : ∀ b d, q'.occurrences b d = q.occurrences b d := by
    intro b d
    rw [occurrences_cons htok, occurrences, htok']
    rfl
  have hcl : ∀ d, q'.closes d = q.closes d := by
    intro d
    rw [closes_cons htok, closes, htok', if_neg nofun, Nat.add_zero]
  have hself : q'.log c = (q.log c).destroy := by rw [hlog, Function.update_self]
  have hother : ∀ d, d ≠ c → q'.log d = q.log d := by
    intro d hd
    rw [hlog, Function.update_of_ne hd]
  refine hq.of_conn ?_ ?_ ?_ ?_
  · intro d
    by_cases hd : d = c
    · subst hd
      have hdestroys := destroys_cons htok d
      rw [if_pos rfl] at hdestroys
      have halive := (hq.conn d).alive hc
      obtain ⟨hclosed, hnone, hcloses, hone⟩ := halive.of_destroying (by omega)
      refine Dead.connOk ⟨?_, ?_, ?_, ?_, ?_⟩ (by rw [hconns, Function.update_self])
      · intro b
        rw [hocc, hnone]
      · rw [hcl, hcloses]
      · rw [destroys, htok']
        omega
      · rw [hself, Log.destroy, halive.destroyed]
      · intro _ b
        rw [hself]
        exact hclosed b
    · refine (hq.conn d).frame (by rw [hconns, Function.update_of_ne hd]) (hother d hd)
        (fun b => hocc b d) (hcl d) ?_
      rw [destroys_cons htok, destroys, htok', if_neg fun h => hd (Token.destroying.inj h),
        Nat.add_zero]
  · intro d
    by_cases hd : d = c
    · subst hd
      rw [hself]
      exact ⟨rfl, rfl⟩
    · rw [hother d hd]
      exact ⟨rfl, rfl⟩
  · intro d conn' hd
    by_cases hdc : d = c
    · rw [hdc, hconns, Function.update_self] at hd
      cases hd
    · rw [hconns, Function.update_of_ne hdc] at hd
      exact ⟨conn', hd, rfl, rfl⟩
  · intro u hu
    left
    rw [htok, ← htok']
    exact Multiset.mem_cons_of_mem hu

theorem Inv.create (hq : q.Inv) (hc : q.conns c = none) (hnew : conn.closeCount = 0)
    (htok : q'.tokens = .reading .lwip c ::ₘ .reading .native c ::ₘ q.tokens)
    (hconns : q'.conns = Function.update q.conns c (some conn))
    (hlog : q'.log = Function.update q.log c Log.new) : q'.Inv := by
  have hdead := (hq.conn c).dead hc
  have hself : q'.log c = Log.new := by rw [hlog, Function.update_self]
  have hother : ∀ d, d ≠ c → q'.log d = q.log d := by
    intro d hd
    rw [hlog, Function.update_of_ne hd]
  have hocc : ∀ b d, q'.occurrences b d = q.occurrences b d + if d = c then 1 else 0 := by
    intro b d
    rw [occurrences_cons htok, Multiset.countP_cons, occurrences]
    cases b <;> simp [Token.Of, eq_comm]
  have hcl : ∀ d, q'.closes d = q.closes d := by
    intro d
    rw [closes_cons htok, Multiset.count_cons, if_neg nofun, if_neg nofun, closes]
    rfl
  have hde : ∀ d, q'.destroys d = q.destroys d := by
    intro d
    rw [destroys_cons htok, Multiset.count_cons, if_neg nofun, if_neg nofun, destroys]
    rfl
  refine ⟨?_, ?_, ?_⟩
  · intro d
    by_cases hd : d = c
    · subst hd
      have hconn : q'.conns d = some conn := by rw [hconns, Function.update_self]
      refine Alive.connOk ⟨?_, ?_, by omega, ?_, ?_⟩ hconn
      · intro b
        rw [hocc, hdead.occurs, if_pos rfl, hself]
        rfl
      · rw [hcl, hde, hdead.closes, hdead.destroys, hself, hnew]
        rfl
      · intro h
        rw [hde, hdead.destroys] at h
        exact absurd rfl h
      · rw [hself]
        rfl
    · refine (hq.conn d).frame (by rw [hconns, Function.update_of_ne hd]) (hother d hd) ?_
        (hcl d) (hde d)
      intro b
      rw [hocc, if_neg hd]
      rfl
  · intro u hu
    rw [htok] at hu
    rcases Multiset.mem_cons.mp hu with rfl | hu₁
    · show (q'.log c).received _ = (q'.log c).sent _
      rw [hself]
      rfl
    rcases Multiset.mem_cons.mp hu₁ with rfl | hold
    · show (q'.log c).received _ = (q'.log c).sent _
      rw [hself]
      rfl
    -- no older token is about `c`
    have hne : ∀ b d, u.Of b d → d ≠ c := by
      rintro b d hub rfl
      have hpos : 0 < q.occurrences b d := Multiset.countP_pos.mpr ⟨u, hold, hub⟩
      have hzero := hdead.occurs b
      omega
    refine (hq.streams u hold).frame ?_ ?_
    · intro b d hub
      rw [hother d (hne b d hub)]
      exact ⟨rfl, rfl⟩
    · intro b d conn' hub hd
      rw [hconns, Function.update_of_ne (hne b d hub)] at hd
      exact ⟨conn', hd, rfl, rfl⟩
  · intro d b
    by_cases hd : d = c
    · subst hd
      rw [hself]
      exact List.prefix_rfl
    · rw [hother d hd]
      exact hq.isPrefix d b

theorem slots_overwrite (buf : ℕ → UInt8) (bs : List UInt8) :
    slots (overwrite buf bs) bs.length = bs := by
  apply List.ext_getElem
  · simp
  · intro i _ hi
    simp only [slots, between, List.getElem_map, List.getElem_range', overwrite]
    simp [List.getElem?_eq_getElem hi]

theorem slots_moveDown (buf : ℕ → UInt8) {n k : ℕ} (hn : n ≤ k) :
    slots buf k = slots buf n ++ slots (moveDown buf n (k - n)) (k - n) := by
  have hshift : slots (moveDown buf n (k - n)) (k - n) = between buf n (n + (k - n)) :=
    slots_shift fun i hi => if_pos hi
  rw [hshift, Nat.add_sub_cancel' hn]
  exact slots_append buf hn

theorem Local.of_update {f : Option RelayConn} {l : Log}
    (hconns : q'.conns = Function.update q.conns c f)
    (hlog : q'.log = Function.update q.log c l) : Local q q' c := by
  intro d hd
  rw [hconns, hlog]
  exact ⟨Function.update_of_ne hd .., Function.update_of_ne hd ..⟩

/-- What was read moves into the buffer. -/
theorem Inv.receive (hq : q.Inv) {bs : List UInt8} (htok : q.tokens = .reading a c ::ₘ r)
    (hc : q.conns c = some conn) (hlen : bs.length ≤ conn.buflens a)
    (htok' : q'.tokens = .writing a c bs.length ::ₘ r)
    (hconns : q'.conns =
      Function.update q.conns c (some (conn.setBuf a (overwrite (conn.bufs a) bs))))
    (hlog : q'.log = Function.update q.log c ((q.log c).receive a bs)) : q'.Inv := by
  have hself : q'.log c = (q.log c).receive a bs := by rw [hlog, Function.update_self]
  have hconn : q'.conns c = some (conn.setBuf a (overwrite (conn.bufs a) bs)) := by
    rw [hconns, Function.update_self]
  have hread : (q.log c).received a = (q.log c).sent a :=
    hq.streams (.reading a c) (by rw [htok]; exact Multiset.mem_cons_self ..)
  refine hq.replace htok htok' (Local.of_update hconns hlog) ⟨rfl, rfl⟩ ⟨rfl, rfl⟩ hc hconn rfl rfl
    (by rw [hself]; rfl) (by rw [hself]; rfl) ?_ ?_ ?_ ?_
  · exact fun b hb => Function.update_of_ne hb ..
  · intro b hb
    rw [hself, Log.receive_received, Log.receive_sent, Function.update_of_ne hb]
    exact ⟨rfl, rfl⟩
  · intro conn' hc'
    rw [hconn] at hc'
    cases hc'
    rw [hself, Log.receive_received, Log.receive_sent, Function.update_self, hread,
      RelayConn.setBuf_bufs, Function.update_self, slots_overwrite]
    exact ⟨rfl, hlen⟩
  · rw [hself, Log.receive_received, Log.receive_sent, Function.update_self]
    exact (hq.isPrefix c a).trans (List.prefix_append ..)

/-- The front part of the buffer is sent, and the rest moves to its start. -/
theorem Inv.sendPart (hq : q.Inv) {n k : ℕ} (htok : q.tokens = .writing a c k ::ₘ r)
    (hc : q.conns c = some conn) (hn : n < k) (htok' : q'.tokens = .writing a c (k - n) ::ₘ r)
    (hconns : q'.conns =
      Function.update q.conns c (some (conn.setBuf a (moveDown (conn.bufs a) n (k - n)))))
    (hlog : q'.log = Function.update q.log c ((q.log c).send a (slots (conn.bufs a) n))) :
    q'.Inv := by
  have hself : q'.log c = (q.log c).send a (slots (conn.bufs a) n) := by
    rw [hlog, Function.update_self]
  have hconn : q'.conns c = some (conn.setBuf a (moveDown (conn.bufs a) n (k - n))) := by
    rw [hconns, Function.update_self]
  obtain ⟨hwrite, hlen⟩ : (q.log c).received a = (q.log c).sent a ++ slots (conn.bufs a) k ∧
      k ≤ conn.buflens a :=
    hq.streams (.writing a c k) (by rw [htok]; exact Multiset.mem_cons_self ..) conn hc
  rw [slots_moveDown _ hn.le, ← List.append_assoc] at hwrite
  refine hq.replace htok htok' (Local.of_update hconns hlog) ⟨rfl, rfl⟩ ⟨rfl, rfl⟩ hc hconn rfl rfl
    (by rw [hself]; rfl) (by rw [hself]; rfl) ?_ ?_ ?_ ?_
  · exact fun b hb => Function.update_of_ne hb ..
  · intro b hb
    rw [hself, Log.send_received, Log.send_sent, Function.update_of_ne hb]
    exact ⟨rfl, rfl⟩
  · intro conn' hc'
    rw [hconn] at hc'
    cases hc'
    rw [hself, Log.send_received, Log.send_sent, Function.update_self,
      RelayConn.setBuf_bufs, Function.update_self]
    exact ⟨hwrite, (Nat.sub_le k n).trans hlen⟩
  · rw [hself, Log.send_received, Log.send_sent, Function.update_self, hwrite]
    exact List.prefix_append ..

/-- The whole buffer is sent, and may be read into again. -/
theorem Inv.sendAll (hq : q.Inv) {k : ℕ} (htok : q.tokens = .writing a c k ::ₘ r)
    (hc : q.conns c = some conn) (htok' : q'.tokens = .reading a c ::ₘ r)
    (hconns : q'.conns = q.conns)
    (hlog : q'.log = Function.update q.log c ((q.log c).send a (slots (conn.bufs a) k))) :
    q'.Inv := by
  have hself : q'.log c = (q.log c).send a (slots (conn.bufs a) k) := by
    rw [hlog, Function.update_self]
  obtain ⟨hwrite, -⟩ : (q.log c).received a = (q.log c).sent a ++ slots (conn.bufs a) k ∧
      k ≤ conn.buflens a :=
    hq.streams (.writing a c k) (by rw [htok]; exact Multiset.mem_cons_self ..) conn hc
  refine hq.replace htok htok' ?_ ⟨rfl, rfl⟩ ⟨rfl, rfl⟩ hc (by rw [hconns]; exact hc) rfl rfl
    (by rw [hself]; rfl) (by rw [hself]; rfl) ?_ ?_ ?_ ?_
  · intro d hd
    rw [hconns, hlog, Function.update_of_ne hd]
    exact ⟨rfl, rfl⟩
  · exact fun _ _ => rfl
  · intro b hb
    rw [hself, Log.send_received, Log.send_sent, Function.update_of_ne hb]
    exact ⟨rfl, rfl⟩
  · show (q'.log c).received a = (q'.log c).sent a
    rw [hself, Log.send_received, Log.send_sent, Function.update_self]
    exact hwrite
  · rw [hself, Log.send_received, Log.send_sent, Function.update_self, hwrite]

theorem Step.inv (hs : Step q q') (hq : q.Inv) : q'.Inv := by
  cases hs with
  | idle hconns hlog htok =>
    obtain ⟨conns, log, tokens⟩ := q
    obtain ⟨conns', log', tokens'⟩ := q'
    cases hconns
    cases hlog
    cases htok
    exact hq
  | create c conn hc hnew hfd htok' hconns hlog => exact hq.create hc hnew htok' hconns hlog
  | receive a c conn bs r htok hc hlen htok' hconns hlog =>
    exact hq.receive htok hc hlen htok' hconns hlog
  | sendPart a c conn n k r htok hc hn htok' hconns hlog =>
    exact hq.sendPart htok hc hn htok' hconns hlog
  | sendAll a c conn k r htok hc htok' hconns hlog => exact hq.sendAll htok hc htok' hconns hlog
  | close a c t r htok ht htok' hconns hlog => exact hq.close htok ht htok' hconns hlog
  | firstClose c conn r htok hc hzero htok' hconns hlog =>
    exact hq.firstClose htok hc hzero htok' hconns hlog
  | lastClose c conn r htok hc hone htok' hconns hlog =>
    exact hq.lastClose htok hc hone htok' hconns hlog
  | destroy c conn r htok hc htok' hconns hlog => exact hq.destroy htok hc htok' hconns hlog

/-! ### Sockets -/

/-- The lwIP sockets of connections that exist are different ones. -/
structure Sockets (q : Custody) : Prop where
  lt : ∀ c conn, q.conns c = some conn → conn.fd .lwip < NUM_SOCKETS
  inj : ∀ c d conn conn', q.conns c = some conn → q.conns d = some conn' →
    conn.fd .lwip = conn'.fd .lwip → c = d

theorem Sockets.frame (h : q.Sockets)
    (hconns : ∀ d conn', q'.conns d = some conn' →
      ∃ conn, q.conns d = some conn ∧ conn'.fds = conn.fds) : q'.Sockets := by
  constructor
  · intro d conn' hd
    obtain ⟨conn, hd', hfds⟩ := hconns d conn' hd
    rw [RelayConn.fd, hfds]
    exact h.lt d conn hd'
  · intro d e conn₁ conn₂ hd he hfd
    obtain ⟨conn₁', hd', hfds₁⟩ := hconns d conn₁ hd
    obtain ⟨conn₂', he', hfds₂⟩ := hconns e conn₂ he
    rw [RelayConn.fd, RelayConn.fd, hfds₁, hfds₂] at hfd
    exact h.inj d e conn₁' conn₂' hd' he' hfd

/-- An update of `c` that keeps its descriptors, or removes it. -/
theorem Sockets.update (h : q.Sockets) (hc : q.conns c = some conn) {f : Option RelayConn}
    (hf : ∀ conn', f = some conn' → conn'.fds = conn.fds)
    (hconns : q'.conns = Function.update q.conns c f) : q'.Sockets := by
  refine h.frame ?_
  intro d conn' hd
  by_cases hdc : d = c
  · subst hdc
    rw [hconns, Function.update_self] at hd
    exact ⟨conn, hc, hf conn' hd⟩
  · rw [hconns, Function.update_of_ne hdc] at hd
    exact ⟨conn', hd, rfl⟩

theorem Sockets.create (h : q.Sockets)
    (hfd : conn.fd .lwip < NUM_SOCKETS ∧
      ∀ d conn', q.conns d = some conn' → conn'.fd .lwip ≠ conn.fd .lwip)
    (hconns : q'.conns = Function.update q.conns c (some conn)) : q'.Sockets := by
  have hself : q'.conns c = some conn := by rw [hconns, Function.update_self]
  have hother : ∀ d, d ≠ c → q'.conns d = q.conns d := by
    intro d hd
    rw [hconns, Function.update_of_ne hd]
  constructor
  · intro d conn' hd
    by_cases hdc : d = c
    · rw [hdc, hself] at hd
      cases hd
      exact hfd.1
    · rw [hother d hdc] at hd
      exact h.lt d conn' hd
  · intro d e conn₁ conn₂ hd he hsame
    by_cases hdc : d = c
    · by_cases hec : e = c
      · rw [hdc, hec]
      · rw [hdc, hself] at hd
        rw [hother e hec] at he
        cases hd
        exact absurd hsame.symm (hfd.2 e conn₂ he)
    · rw [hother d hdc] at hd
      by_cases hec : e = c
      · rw [hec, hself] at he
        cases he
        exact absurd hsame (hfd.2 d conn₁ hd)
      · rw [hother e hec] at he
        exact h.inj d e conn₁ conn₂ hd he hsame

theorem Step.sockets (hs : Step q q') (hq : q.Sockets) : q'.Sockets := by
  have hsame : q'.conns = q.conns → q'.Sockets := by
    intro hconns
    refine hq.frame ?_
    intro d conn' hd
    rw [hconns] at hd
    exact ⟨conn', hd, rfl⟩
  cases hs with
  | idle hconns => exact hsame hconns
  | create c conn hc hnew hfd htok' hconns => exact hq.create hfd hconns
  | receive a c conn bs r htok hc hlen htok' hconns =>
    exact hq.update hc (fun conn' h => by cases h; rfl) hconns
  | sendPart a c conn n k r htok hc hn htok' hconns =>
    exact hq.update hc (fun conn' h => by cases h; rfl) hconns
  | sendAll a c conn k r htok hc htok' hconns => exact hsame hconns
  | close a c t r htok ht htok' hconns => exact hsame hconns
  | firstClose c conn r htok hc hzero htok' hconns =>
    exact hq.update hc (fun conn' h => by cases h; rfl) hconns
  | lastClose c conn r htok hc hone htok' hconns => exact hsame hconns
  | destroy c conn r htok hc htok' hconns => exact hq.update (f := none) hc nofun hconns

/-! ### What the invariant gives to the holder of a token -/

theorem Inv.exists_conn (hq : q.Inv) (hmem : t ∈ q.tokens) (ht : t.Of a c) :
    ∃ conn, q.conns c = some conn := by
  cases hc : q.conns c with
  | some conn => exact ⟨conn, rfl⟩
  | none =>
    have hzero := ((hq.conn c).dead hc).occurs a
    have hpos : 0 < q.occurrences a c := Multiset.countP_pos.mpr ⟨t, hmem, ht⟩
    omega

theorem Inv.exists_conn_of_closing (hq : q.Inv)
    (hmem : .closing c ∈ q.tokens ∨ .destroying c ∈ q.tokens) : ∃ conn, q.conns c = some conn := by
  cases hc : q.conns c with
  | some conn => exact ⟨conn, rfl⟩
  | none =>
    have hdead := (hq.conn c).dead hc
    rcases hmem with hmem | hmem
    · exact absurd hdead.closes (Multiset.count_pos.mpr hmem).ne'
    · exact absurd hdead.destroys (Multiset.count_pos.mpr hmem).ne'

theorem Inv.occurrences_le (hq : q.Inv) (a : Agent) (c : ConnId) : q.occurrences a c ≤ 1 := by
  cases hc : q.conns c with
  | none =>
    rw [((hq.conn c).dead hc).occurs a]
    omega
  | some conn =>
    rw [((hq.conn c).alive hc).occurs a]
    split <;> omega

/-- Connections that are each there once are no more than there are sockets. -/
theorem Sockets.length_le (h : q.Sockets) {l : List ConnId} (hl : l.Nodup)
    (hlive : ∀ c ∈ l, ∃ conn, q.conns c = some conn) : l.length ≤ NUM_SOCKETS := by
  let f : ConnId → ℕ := fun c => ((q.conns c).map fun conn => conn.fd .lwip).getD 0
  have hf : ∀ c conn, q.conns c = some conn → f c = conn.fd .lwip := by
    intro c conn hc
    show ((q.conns c).map _).getD 0 = _
    rw [hc]
    rfl
  have hnodup : (l.map f).Nodup := by
    refine List.Nodup.map_on ?_ hl
    intro c hc d hd hcd
    obtain ⟨conn, hconn⟩ := hlive c hc
    obtain ⟨conn', hconn'⟩ := hlive d hd
    rw [hf c conn hconn, hf d conn' hconn'] at hcd
    exact h.inj c d conn conn' hconn hconn' hcd
  have hsub : l.map f ⊆ List.range NUM_SOCKETS := by
    intro n hn
    obtain ⟨c, hc, rfl⟩ := List.mem_map.mp hn
    obtain ⟨conn, hconn⟩ := hlive c hc
    rw [List.mem_range, hf c conn hconn]
    exact h.lt c conn hconn
  have hle := (hnodup.subperm hsub).length_le
  rwa [List.length_map, List.length_range] at hle

end Custody

end QuietLwip.Relay
