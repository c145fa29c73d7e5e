import QuietLwip.Relay.Custody

/-!
# The threads pass tokens

The tokens lie in the entries of the crossbars and of the threads' arrays, and in the
calls under way. A step of a thread, of the accept loop or of `select` moves or replaces
one of them: the system of the threads refines the passing of tokens.
-/

namespace QuietLwip.Relay

open QuietLwip.Slots QuietLwip.Transition

/-! ### Where the tokens lie -/

def Crossbar.forReading (x : Crossbar) : List ConnId := slots x.readyForReading x.readyForReadingLen
def Crossbar.forWriting (x : Crossbar) : List (ConnId × ℕ) :=
  slots (pair x.readyForWriting x.writeLen) x.readyForWritingLen

/-- `relay_read`; within the loop those written back and those still to be looked at. -/
def RelayLocals.reads (t : RelayLocals) : List ConnId :=
  match t.phase with
  | .reading i new => kept t.relayRead new i t.relayReadLen
  | _ => slots t.relayRead t.relayReadLen

/-- `relay_write` with `write_len`. -/
def RelayLocals.writes (t : RelayLocals) : List (ConnId × ℕ) :=
  match t.phase with
  | .writing i new => kept (pair t.relayWrite t.writeLen) new i t.relayWriteLen
  | _ => slots (pair t.relayWrite t.writeLen) t.relayWriteLen

def readTokens (a : Agent) (l : List ConnId) : Multiset Token := l.map (Token.reading a)
def writeTokens (a : Agent) (l : List (ConnId × ℕ)) : Multiset Token :=
  l.map fun e => Token.writing a e.1 e.2

/-- The element a thread is moving. -/
def Call.token (a : Agent) : Call → Token
  | addForWriting c k => .writing a c k
  | addForReading c => .reading a.other c
  | close c => .closing c
  | destroy c => .destroying c

def callTokens (a : Agent) : Option Call → Multiset Token
  | none => 0
  | some call => {call.token a}

/-- `a` is the agent whose thread reads the crossbar. -/
def Crossbar.tokens (a : Agent) (x : Crossbar) : Multiset Token :=
  readTokens a x.forReading + writeTokens a.other x.forWriting

def RelayLocals.tokens (a : Agent) (t : RelayLocals) : Multiset Token :=
  readTokens a t.reads + writeTokens a.other t.writes + callTokens a t.call

def Accept.tokens : Accept → Multiset Token
  | idle => 0
  | addToClient c => {.reading .lwip c, .reading .native c}
  | addToRemote c => {.reading .native c}

def State.tokens (s : State) : Multiset Token :=
  ∑ a, (s.relays a).tokens a + ∑ a, (s.incoming a).tokens a + s.accept.tokens

def State.custody (s : State) : Custody := ⟨s.conns, s.log, s.tokens⟩

/-! ### What one thread, crossbar or the accept loop contributes -/

theorem sum_agents {M : Type*} [AddCommMonoid M] (f : Agent → M) (a : Agent) :
    ∑ b, f b = f a + f a.other := by
  have huniv : (Finset.univ : Finset Agent) = {a, a.other} := by
    ext b
    simp [Agent.eq_or_eq_other a b]
  rw [huniv, Finset.sum_pair (Agent.other_ne a).symm]

theorem sum_agents_update {α M : Type*} [AddCommMonoid M] (f : Agent → α) (g : Agent → α → M)
    (a : Agent) (x : α) :
    ∑ b, g b (Function.update f a x b) = g a x + g a.other (f a.other) := by
  rw [sum_agents _ a, Function.update_self, Function.update_of_ne (Agent.other_ne a)]

/-- A step of thread `a` that also touches the crossbar of `b`. -/
theorem State.tokens_crossbar (s s' : State) {a b : Agent} {t : RelayLocals} {x : Crossbar}
    (hr : s'.relays = Function.update s.relays a t)
    (hi : s'.incoming = Function.update s.incoming b x) (ha : s'.accept = s.accept) :
    ∃ F, s.tokens = (s.relays a).tokens a + (s.incoming b).tokens b + F ∧
      s'.tokens = t.tokens a + x.tokens b + F := by
  refine ⟨(s.relays a.other).tokens a.other + (s.incoming b.other).tokens b.other +
    s.accept.tokens, ?_, ?_⟩
  · rw [State.tokens, sum_agents _ a, sum_agents (fun b => (s.incoming b).tokens b) b]
    abel
  · rw [State.tokens, hr, hi, ha, sum_agents_update s.relays fun b t => t.tokens b,
      sum_agents_update s.incoming fun b x => x.tokens b]
    abel

/-- A step of thread `a` within its own arrays. -/
theorem State.tokens_thread (s s' : State) {a : Agent} {t : RelayLocals}
    (hr : s'.relays = Function.update s.relays a t) (hi : s'.incoming = s.incoming)
    (ha : s'.accept = s.accept) :
    ∃ F, s.tokens = (s.relays a).tokens a + F ∧ s'.tokens = t.tokens a + F := by
  have hi' : s'.incoming = Function.update s.incoming a (s.incoming a) := by
    rw [hi, Function.update_eq_self]
  obtain ⟨F, h₁, h₂⟩ := State.tokens_crossbar s s' hr hi' ha
  exact ⟨(s.incoming a).tokens a + F, by rw [h₁, add_assoc], by rw [h₂, add_assoc]⟩

/-- A step of the accept loop. -/
theorem State.tokens_accept (s s' : State) {b : Agent} {x : Crossbar}
    (hr : s'.relays = s.relays) (hi : s'.incoming = Function.update s.incoming b x) :
    ∃ F, s.tokens = (s.incoming b).tokens b + s.accept.tokens + F ∧
      s'.tokens = x.tokens b + s'.accept.tokens + F := by
  refine ⟨∑ a, (s.relays a).tokens a + (s.incoming b.other).tokens b.other, ?_, ?_⟩
  · rw [State.tokens, sum_agents (fun b => (s.incoming b).tokens b) b]
    abel
  · rw [State.tokens, hr, hi, sum_agents_update s.incoming fun b x => x.tokens b]
    abel

/-! ### The arrays -/

theorem readTokens_append (a : Agent) (l m : List ConnId) :
    readTokens a (l ++ m) = readTokens a l + readTokens a m := by
  simp [readTokens]

theorem writeTokens_append (a : Agent) (l m : List (ConnId × ℕ)) :
    writeTokens a (l ++ m) = writeTokens a l + writeTokens a m := by
  simp [writeTokens]

theorem readTokens_cons (a : Agent) (c : ConnId) (l : List ConnId) :
    readTokens a (c :: l) = .reading a c ::ₘ readTokens a l := by
  simp [readTokens]

theorem writeTokens_cons (a : Agent) (e : ConnId × ℕ) (l : List (ConnId × ℕ)) :
    writeTokens a (e :: l) = .writing a e.1 e.2 ::ₘ writeTokens a l := by
  simp [writeTokens]

/-- A turn of the loop over `relay_read`: the token of the entry looked at. -/
theorem RelayLocals.read_split {t : RelayLocals} {i new : ℕ} (a : Agent)
    (hphase : t.phase = .reading i new) (hcall : t.call = none) (hi : i < t.relayReadLen)
    (hnew : new ≤ i) :
    ∃ R, t.tokens a = .reading a (t.relayRead i) ::ₘ R ∧
      (keepRead t i new).tokens a = .reading a (t.relayRead i) ::ₘ R ∧
      ∀ call, (callAt t (.reading (i + 1) new) call).tokens a = call.token a ::ₘ R := by
  refine ⟨readTokens a (slots t.relayRead new) +
    readTokens a (between t.relayRead (i + 1) t.relayReadLen) + writeTokens a.other t.writes,
    ?_, ?_, ?_⟩
  · rw [RelayLocals.tokens, RelayLocals.reads, hphase, hcall]
    simp only [kept_eq _ hi, readTokens_append, readTokens_cons, callTokens]
    simp only [← Multiset.singleton_add]
    abel
  · rw [RelayLocals.tokens, RelayLocals.reads, RelayLocals.writes, RelayLocals.writes, hphase]
    simp only [keepRead, hcall, kept_update _ hnew, readTokens_append, readTokens_cons, callTokens]
    simp only [← Multiset.singleton_add]
    abel
  · intro call
    rw [RelayLocals.tokens, RelayLocals.reads, RelayLocals.writes, RelayLocals.writes, hphase]
    simp only [callAt, kept, readTokens_append, callTokens]
    simp only [← Multiset.singleton_add]
    abel

/-- A turn of the loop over `relay_write`. -/
theorem RelayLocals.write_split {t : RelayLocals} {i new : ℕ} (a : Agent)
    (hphase : t.phase = .writing i new) (hcall : t.call = none) (hi : i < t.relayWriteLen)
    (hnew : new ≤ i) :
    ∃ R, t.tokens a = .writing a.other (t.relayWrite i) (t.writeLen i) ::ₘ R ∧
      (∀ len, (keepWrite t i new len).tokens a =
        .writing a.other (t.relayWrite i) len ::ₘ R) ∧
      ∀ call, (callAt t (.writing (i + 1) new) call).tokens a = call.token a ::ₘ R := by
  refine ⟨readTokens a t.reads + writeTokens a.other (slots (pair t.relayWrite t.writeLen) new) +
    writeTokens a.other (between (pair t.relayWrite t.writeLen) (i + 1) t.relayWriteLen),
    ?_, ?_, ?_⟩
  · rw [RelayLocals.tokens, RelayLocals.writes, hphase, hcall]
    simp only [kept_eq _ hi, writeTokens_append, writeTokens_cons, callTokens, pair]
    simp only [← Multiset.singleton_add]
    abel
  · intro len
    rw [RelayLocals.tokens, RelayLocals.writes, RelayLocals.reads, RelayLocals.reads, hphase]
    simp only [keepWrite, hcall, pair_update, kept_update _ hnew, writeTokens_append,
      writeTokens_cons, callTokens]
    simp only [← Multiset.singleton_add]
    abel
  · intro call
    rw [RelayLocals.tokens, RelayLocals.reads, RelayLocals.writes, RelayLocals.reads, hphase]
    simp only [callAt, kept, writeTokens_append, callTokens]
    simp only [← Multiset.singleton_add]
    abel

theorem crossbarAddForReading_tokens {x x' : Crossbar} {c : ConnId} (a : Agent)
    (h : crossbarAddForReading x c = some x') : x'.tokens a = .reading a c ::ₘ x.tokens a := by
  rw [crossbarAddForReading] at h
  split at h
  · cases h
    rw [Crossbar.tokens, Crossbar.tokens, Crossbar.forReading, Crossbar.forReading, slots_push,
      readTokens_append, readTokens_cons]
    simp only [Crossbar.forWriting, ← Multiset.singleton_add]
    have hnil : readTokens a [] = 0 := rfl
    rw [hnil]
    abel
  · cases h

theorem crossbarAddForWriting_tokens {x x' : Crossbar} {c : ConnId} {k : ℕ} (a : Agent)
    (h : crossbarAddForWriting x c k = some x') :
    x'.tokens a = .writing a.other c k ::ₘ x.tokens a := by
  rw [crossbarAddForWriting] at h
  split at h
  · cases h
    rw [Crossbar.tokens, Crossbar.tokens, Crossbar.forWriting, Crossbar.forWriting, pair_update,
      slots_push, writeTokens_append, writeTokens_cons]
    simp only [Crossbar.forReading, ← Multiset.singleton_add]
    have hnil : writeTokens a.other [] = 0 := rfl
    rw [hnil]
    abel
  · cases h

theorem readCrossbar_tokens {t t' : RelayLocals} {x x' : Crossbar} (a : Agent)
    (hphase : t.phase = .drain) (h : readCrossbar t x = some (t', x')) :
    t'.tokens a + x'.tokens a = t.tokens a + x.tokens a := by
  rw [readCrossbar] at h
  split at h
  · cases h
    simp only [RelayLocals.tokens, RelayLocals.reads, RelayLocals.writes, hphase, Crossbar.tokens,
      Crossbar.forReading, Crossbar.forWriting, pair_copy, slots_copy, readTokens_append,
      writeTokens_append, slots_zero]
    have hr : readTokens a [] = 0 := rfl
    have hw : writeTokens a.other [] = 0 := rfl
    rw [hr, hw]
    abel
  · cases h

/-! ### The turns of the loops -/

theorem readTurn_cases {s s' : State} {a : Agent} {i new : ℕ} {res : ReadRes}
    (h : readTurn s a i new res = some s') :
    ((s.relays a).relayReadLen ≤ i ∧ s' = s.setRelay a
        { s.relays a with relayReadLen := new, phase := .writing 0 0 }) ∨
      (i < (s.relays a).relayReadLen ∧ ∃ c conn, c = (s.relays a).relayRead i ∧
        s.conns c = some conn ∧
        (s' = s.setRelay a (keepRead (s.relays a) i new) ∨
          s' = (s.setConn c conn ((s.log c).close a)).setRelay a
            (callAt (s.relays a) (.reading (i + 1) new) (.close c)) ∨
          ∃ bs, res = .data bs ∧
            s' = (s.setConn c (conn.setBuf a (overwrite (conn.readBuf a) bs))
              ((s.log c).receive a bs)).setRelay a
                (callAt (s.relays a) (.reading (i + 1) new) (.addForWriting c bs.length)))) := by
  rw [readTurn] at h
  by_cases hi : i < (s.relays a).relayReadLen
  · right
    refine ⟨hi, ?_⟩
    simp only [if_pos hi] at h
    obtain ⟨conn, hc, h⟩ := Option.bind_eq_some_iff.mp h
    refine ⟨_, conn, rfl, hc, ?_⟩
    by_cases hset : (s.relays a).readFds (conn.fd a) = true
    · rw [if_pos hset] at h
      cases res with
      | data bs => exact Or.inr (Or.inr ⟨bs, rfl, (Option.some.inj h).symm⟩)
      | eof => exact Or.inr (Or.inl (Option.some.inj h).symm)
      | error errno =>
        by_cases hagain : getErrno a errno = EAGAIN ∨ getErrno a errno = EWOULDBLOCK
        · simp only [if_pos hagain] at h
          exact Or.inl (Option.some.inj h).symm
        · simp only [if_neg hagain] at h
          exact Or.inr (Or.inl (Option.some.inj h).symm)
    · rw [if_neg hset] at h
      exact Or.inl (Option.some.inj h).symm
  · left
    simp only [if_neg hi] at h
    exact ⟨Nat.le_of_not_lt hi, (Option.some.inj h).symm⟩

theorem writeTurn_cases {s s' : State} {a : Agent} {i new : ℕ} {res : WriteRes}
    (h : writeTurn s a i new res = some s') :
    ((s.relays a).relayWriteLen ≤ i ∧ s' = s.setRelay a
        { s.relays a with relayWriteLen := new, phase := .drain }) ∨
      (i < (s.relays a).relayWriteLen ∧ ∃ c conn len, c = (s.relays a).relayWrite i ∧
        len = (s.relays a).writeLen i ∧ s.conns c = some conn ∧
        (s' = s.setRelay a (keepWrite (s.relays a) i new len) ∨
          s' = (s.setConn c conn ((s.log c).close a.other)).setRelay a
            (callAt (s.relays a) (.writing (i + 1) new) (.close c)) ∨
          (∃ n, res = .wrote n ∧ n < len ∧
            s' = (s.setConn c (conn.setBuf a.other (moveDown (conn.writeBuf a) n (len - n)))
              ((s.log c).send a.other (slots (conn.writeBuf a) n))).setRelay a
                (keepWrite (s.relays a) i new (len - n))) ∨
          ∃ n, res = .wrote n ∧ len ≤ n ∧
            s' = (s.setConn c conn
              ((s.log c).send a.other (slots (conn.writeBuf a) n))).setRelay a
                (callAt (s.relays a) (.writing (i + 1) new) (.addForReading c)))) := by
  rw [writeTurn] at h
  by_cases hi : i < (s.relays a).relayWriteLen
  · right
    refine ⟨hi, ?_⟩
    simp only [if_pos hi] at h
    obtain ⟨conn, hc, h⟩ := Option.bind_eq_some_iff.mp h
    refine ⟨_, conn, _, rfl, rfl, hc, ?_⟩
    by_cases hset : (s.relays a).writeFds (conn.fd a) = true
    · rw [if_pos hset] at h
      cases res with
      | wrote n =>
        by_cases hn : n < (s.relays a).writeLen i
        · simp only [if_pos hn] at h
          exact Or.inr (Or.inr (Or.inl ⟨n, rfl, hn, (Option.some.inj h).symm⟩))
        · simp only [if_neg hn] at h
          exact Or.inr (Or.inr (Or.inr ⟨n, rfl, Nat.le_of_not_lt hn, (Option.some.inj h).symm⟩))
      | eof => exact Or.inr (Or.inl (Option.some.inj h).symm)
      | error errno =>
        by_cases hagain : getErrno a errno = EAGAIN ∨ getErrno a errno = EWOULDBLOCK
        · simp only [if_pos hagain] at h
          exact Or.inl (Option.some.inj h).symm
        · simp only [if_neg hagain] at h
          exact Or.inr (Or.inl (Option.some.inj h).symm)
    · rw [if_neg hset] at h
      exact Or.inl (Option.some.inj h).symm
  · left
    simp only [if_neg hi] at h
    exact ⟨Nat.le_of_not_lt hi, (Option.some.inj h).symm⟩

/-- `conn` is stored again unchanged. -/
theorem update_conn_self {f : ConnId → Option RelayConn} {c : ConnId} {conn : RelayConn}
    (hc : f c = some conn) : Function.update f c (some conn) = f := by
  rw [← hc, Function.update_eq_self]

theorem readTurn_refines {s s' : State} {a : Agent} {i new : ℕ} {res : ReadRes}
    (hat : s.At a (.reading i new)) (hnew : new ≤ i)
    (hres : ∀ bs conn, res = .data bs → s.conns ((s.relays a).relayRead i) = some conn →
      bs.length ≤ conn.readBuflen a)
    (h : readTurn s a i new res = some s') : Custody.Step s.custody s'.custody := by
  obtain ⟨hphase, hcall⟩ := hat
  rcases readTurn_cases h with ⟨hi, rfl⟩ | ⟨hi, c, conn, rfl, hc, hcases⟩
  · -- the loop is over
    obtain ⟨F, h₁, h₂⟩ := State.tokens_thread s (s.setRelay a
      { s.relays a with relayReadLen := new, phase := .writing 0 0 }) rfl rfl rfl
    refine .idle rfl rfl (h₂.trans (Eq.trans ?_ h₁.symm))
    congr 1
    simp only [RelayLocals.tokens, RelayLocals.reads, RelayLocals.writes, hphase, kept_start,
      kept_end _ hi]
  · obtain ⟨R, hold, hkeep, hnext⟩ := RelayLocals.read_split a hphase hcall hi hnew
    rcases hcases with rfl | rfl | ⟨bs, hbs, rfl⟩
    · obtain ⟨F, h₁, h₂⟩ := State.tokens_thread s
        (s.setRelay a (keepRead (s.relays a) i new)) rfl rfl rfl
      exact .idle rfl rfl (by rw [State.custody, State.custody, h₁, h₂, hold, hkeep])
    · obtain ⟨F, h₁, h₂⟩ := State.tokens_thread s
        ((s.setConn _ conn ((s.log _).close a)).setRelay a
          (callAt (s.relays a) (.reading (i + 1) new) (.close _))) rfl rfl rfl
      rw [hold, Multiset.cons_add] at h₁
      rw [hnext, Multiset.cons_add] at h₂
      exact .close a _ _ (R + F) h₁ ⟨rfl, rfl⟩ h₂ (update_conn_self hc) rfl
    · obtain ⟨F, h₁, h₂⟩ := State.tokens_thread s
        ((s.setConn _ (conn.setBuf a (overwrite (conn.readBuf a) bs))
          ((s.log _).receive a bs)).setRelay a
          (callAt (s.relays a) (.reading (i + 1) new) (.addForWriting _ bs.length))) rfl rfl rfl
      rw [hold, Multiset.cons_add] at h₁
      rw [hnext, Multiset.cons_add] at h₂
      exact .receive a _ conn bs (R + F) h₁ hc (hres bs conn hbs hc) h₂ rfl rfl

theorem writeTurn_refines {s s' : State} {a : Agent} {i new : ℕ} {res : WriteRes}
    (hat : s.At a (.writing i new)) (hnew : new ≤ i)
    (hres : ∀ n, res = .wrote n → n ≤ (s.relays a).writeLen i)
    (h : writeTurn s a i new res = some s') : Custody.Step s.custody s'.custody := by
  obtain ⟨hphase, hcall⟩ := hat
  rcases writeTurn_cases h with ⟨hi, rfl⟩ | ⟨hi, c, conn, len, rfl, rfl, hc, hcases⟩
  · obtain ⟨F, h₁, h₂⟩ := State.tokens_thread s (s.setRelay a
      { s.relays a with relayWriteLen := new, phase := .drain }) rfl rfl rfl
    refine .idle rfl rfl (h₂.trans (Eq.trans ?_ h₁.symm))
    congr 1
    simp only [RelayLocals.tokens, RelayLocals.reads, RelayLocals.writes, hphase, kept_end _ hi]
  · obtain ⟨R, hold, hkeep, hnext⟩ := RelayLocals.write_split a hphase hcall hi hnew
    rcases hcases with rfl | rfl | ⟨n, -, hn, rfl⟩ | ⟨n, hw, hn, rfl⟩
    · obtain ⟨F, h₁, h₂⟩ := State.tokens_thread s
        (s.setRelay a (keepWrite (s.relays a) i new _)) rfl rfl rfl
      exact .idle rfl rfl (by rw [State.custody, State.custody, h₁, h₂, hold, hkeep])
    · obtain ⟨F, h₁, h₂⟩ := State.tokens_thread s
        ((s.setConn _ conn ((s.log _).close a.other)).setRelay a
          (callAt (s.relays a) (.writing (i + 1) new) (.close _))) rfl rfl rfl
      rw [hold, Multiset.cons_add] at h₁
      rw [hnext, Multiset.cons_add] at h₂
      exact .close a.other _ _ (R + F) h₁ ⟨rfl, rfl⟩ h₂ (update_conn_self hc) rfl
    · obtain ⟨F, h₁, h₂⟩ := State.tokens_thread s
        ((s.setConn _ (conn.setBuf a.other (moveDown (conn.writeBuf a) n _))
          ((s.log _).send a.other (slots (conn.writeBuf a) n))).setRelay a
          (keepWrite (s.relays a) i new _)) rfl rfl rfl
      rw [hold, Multiset.cons_add] at h₁
      rw [hkeep, Multiset.cons_add] at h₂
      exact .sendPart a.other _ conn n _ (R + F) h₁ hc hn h₂ rfl rfl
    · -- `write` returns at most the length it was given
      obtain rfl : n = (s.relays a).writeLen i := le_antisymm (hres n hw) hn
      obtain ⟨F, h₁, h₂⟩ := State.tokens_thread s
        ((s.setConn _ conn ((s.log _).send a.other (slots (conn.writeBuf a) _))).setRelay a
          (callAt (s.relays a) (.writing (i + 1) new) (.addForReading _))) rfl rfl rfl
      rw [hold, Multiset.cons_add] at h₁
      rw [hnext, Multiset.cons_add] at h₂
      exact .sendAll a.other _ conn _ (R + F) h₁ hc h₂ (update_conn_self hc) rfl

/-! ### The calls, the crossbars and the accept loop -/

theorem RelayLocals.call_split {t : RelayLocals} {call : Call} (a : Agent)
    (hcall : t.call = some call) (call' : Option Call) :
    t.tokens a = call.token a ::ₘ { t with call := none }.tokens a ∧
      { t with call := call' }.tokens a = callTokens a call' + { t with call := none }.tokens a := by
  constructor
  · simp only [RelayLocals.tokens, RelayLocals.reads, RelayLocals.writes, hcall, callTokens,
      ← Multiset.singleton_add]
    abel
  · simp only [RelayLocals.tokens, RelayLocals.reads, RelayLocals.writes, callTokens]
    abel

theorem callStep_refines {s s' : State} {a : Agent} (h : callStep s a = some s') :
    Custody.Step s.custody s'.custody := by
  rw [callStep] at h
  cases hcall : (s.relays a).call with
  | none =>
    simp only [hcall] at h
    cases h
  | some call =>
    cases call with
    | addForWriting c buflen =>
      simp only [hcall] at h
      obtain ⟨x, hx, h⟩ := Option.bind_eq_some_iff.mp h
      cases h
      obtain ⟨F, h₁, h₂⟩ := State.tokens_crossbar s ((s.setIncoming a.other x).setRelay
        a { s.relays a with call := none }) rfl rfl rfl
      rw [(RelayLocals.call_split a hcall none).1] at h₁
      rw [crossbarAddForWriting_tokens a.other hx, Agent.other_other] at h₂
      refine .idle rfl rfl (h₂.trans (Eq.trans ?_ h₁.symm))
      simp only [Call.token, ← Multiset.singleton_add]
      abel
    | addForReading c =>
      simp only [hcall] at h
      obtain ⟨x, hx, h⟩ := Option.bind_eq_some_iff.mp h
      cases h
      obtain ⟨F, h₁, h₂⟩ := State.tokens_crossbar s ((s.setIncoming a.other x).setRelay
        a { s.relays a with call := none }) rfl rfl rfl
      rw [(RelayLocals.call_split a hcall none).1] at h₁
      rw [crossbarAddForReading_tokens a.other hx] at h₂
      refine .idle rfl rfl (h₂.trans (Eq.trans ?_ h₁.symm))
      simp only [Call.token, ← Multiset.singleton_add]
      abel
    | close c =>
      simp only [hcall] at h
      obtain ⟨conn, hc, h⟩ := Option.bind_eq_some_iff.mp h
      by_cases hzero : conn.closeCount = 0
      · rw [if_pos hzero] at h
        cases h
        obtain ⟨F, h₁, h₂⟩ := State.tokens_thread s
          ((s.setConn c (some { conn with closeCount := 1 }) (s.log c)).setRelay a
            { s.relays a with call := none }) rfl rfl rfl
        rw [(RelayLocals.call_split a hcall none).1, Multiset.cons_add] at h₁
        exact .firstClose c conn _ h₁ hc hzero h₂ rfl (Function.update_eq_self ..)
      · rw [if_neg hzero] at h
        cases h
        obtain ⟨F, h₁, h₂⟩ := State.tokens_thread s
          (s.setRelay a { s.relays a with call := some (.destroy c) }) rfl rfl rfl
        obtain ⟨hold, hnew⟩ := RelayLocals.call_split a hcall (some (.destroy c))
        rw [hold, Multiset.cons_add] at h₁
        rw [hnew, callTokens, Multiset.singleton_add, Multiset.cons_add] at h₂
        exact .lastClose c conn _ h₁ hc hzero h₂ rfl rfl
    | destroy c =>
      simp only [hcall] at h
      obtain ⟨conn, hc, h⟩ := Option.bind_eq_some_iff.mp h
      cases h
      obtain ⟨F, h₁, h₂⟩ := State.tokens_thread s
        ((s.setConn c none (s.log c).destroy).setRelay a
          { s.relays a with call := none }) rfl rfl rfl
      rw [(RelayLocals.call_split a hcall none).1, Multiset.cons_add] at h₁
      exact .destroy c conn _ h₁ hc h₂ rfl rfl

theorem selectStep_cases {s s' : State} {a : Agent} {res : ℤ} {readable writable : ℕ → Bool}
    (h : selectStep s a res readable writable = some s') :
    ∃ t', s' = s.setRelay a t' ∧ t'.call = (s.relays a).call ∧
      t'.relayRead = (s.relays a).relayRead ∧ t'.relayReadLen = (s.relays a).relayReadLen ∧
      t'.relayWrite = (s.relays a).relayWrite ∧ t'.writeLen = (s.relays a).writeLen ∧
      t'.relayWriteLen = (s.relays a).relayWriteLen ∧
      (t'.phase = .drain ∨ t'.phase = .reading 0 0) := by
  rw [selectStep] at h
  obtain ⟨readFds, -, h⟩ := Option.bind_eq_some_iff.mp h
  obtain ⟨writeFds, -, h⟩ := Option.bind_eq_some_iff.mp h
  by_cases hres : res ≤ 0
  · rw [if_pos hres] at h
    cases h
    exact ⟨_, rfl, rfl, rfl, rfl, rfl, rfl, rfl, Or.inl rfl⟩
  · rw [if_neg hres] at h
    cases h
    exact ⟨_, rfl, rfl, rfl, rfl, rfl, rfl, rfl, Or.inr rfl⟩

theorem selectStep_refines {s s' : State} {a : Agent} {res : ℤ} {readable writable : ℕ → Bool}
    (hphase : (s.relays a).phase = .select)
    (h : selectStep s a res readable writable = some s') :
    Custody.Step s.custody s'.custody := by
  obtain ⟨t', rfl, hcall, hread, hreadLen, hwrite, hlen, hwriteLen, hphase'⟩ := selectStep_cases h
  obtain ⟨F, h₁, h₂⟩ := State.tokens_thread s (s.setRelay a t') rfl rfl rfl
  refine .idle rfl rfl (h₂.trans (Eq.trans ?_ h₁.symm))
  congr 1
  rcases hphase' with hphase' | hphase' <;>
    simp only [RelayLocals.tokens, RelayLocals.reads, RelayLocals.writes, hphase, hphase', hcall,
      hread, hreadLen, hwrite, hlen, hwriteLen, kept_start]

theorem acceptStep_cases {s s' : State} (h : acceptStep s = some s') :
    ∃ a c x, crossbarAddForReading (s.incoming a) c = some x ∧
      s'.conns = s.conns ∧ s'.log = s.log ∧ s'.relays = s.relays ∧
      s'.incoming = Function.update s.incoming a x ∧
      s.accept.tokens = .reading a c ::ₘ s'.accept.tokens := by
  rw [acceptStep] at h
  cases hacc : s.accept with
  | idle =>
    simp only [hacc] at h
    cases h
  | addToClient c =>
    simp only [hacc] at h
    obtain ⟨x, hx, h⟩ := Option.bind_eq_some_iff.mp h
    cases h
    exact ⟨.lwip, c, x, hx, rfl, rfl, rfl, rfl, rfl⟩
  | addToRemote c =>
    simp only [hacc] at h
    obtain ⟨x, hx, h⟩ := Option.bind_eq_some_iff.mp h
    cases h
    exact ⟨.native, c, x, hx, rfl, rfl, rfl, rfl, rfl⟩

theorem acceptStep_refines {s s' : State} (h : acceptStep s = some s') :
    Custody.Step s.custody s'.custody := by
  obtain ⟨a, c, x, hx, hconns, hlog, hrelays, hincoming, hacc⟩ := acceptStep_cases h
  obtain ⟨F, h₁, h₂⟩ := State.tokens_accept s s' hrelays hincoming
  rw [hacc] at h₁
  rw [crossbarAddForReading_tokens a hx] at h₂
  refine .idle hconns hlog (h₂.trans (Eq.trans ?_ h₁.symm))
  simp only [← Multiset.singleton_add]
  abel

/-! ### Every step refines -/

/-- In the loops no more is written back than was looked at. -/
def RelayLocals.PhaseOk (t : RelayLocals) : Prop :=
  match t.phase with
  | .reading i new => new ≤ i
  | .writing i new => new ≤ i
  | _ => True

theorem Event.refines {s s' : State} {e : Event} (hphase : ∀ a, (s.relays a).PhaseOk)
    (hen : e.Enabled s) (h : e.exec s = some s') : Custody.Step s.custody s'.custody := by
  cases e with
  | create c nativeFd lwipFd bufLen bufs =>
    obtain ⟨hidle, hfree, hlt, hfresh⟩ := hen
    cases h
    refine .create c (relayConnCreate nativeFd lwipFd bufLen bufs) hfree rfl ⟨hlt, hfresh⟩ ?_
      rfl rfl
    show State.tokens _ = _ ::ₘ _ ::ₘ State.tokens _
    simp only [State.tokens, State.setConn, hidle, Accept.tokens, Multiset.insert_eq_cons,
      ← Multiset.singleton_add]
    abel
  | accept => exact acceptStep_refines h
  | drain a =>
    obtain ⟨⟨hat, -⟩, -⟩ := hen
    obtain ⟨⟨t, x⟩, htx, h⟩ := Option.bind_eq_some_iff.mp h
    cases h
    obtain ⟨F, h₁, h₂⟩ := State.tokens_crossbar s ((s.setIncoming a x).setRelay a t)
      rfl rfl rfl
    rw [readCrossbar_tokens a hat htx] at h₂
    exact .idle rfl rfl (h₂.trans h₁.symm)
  | select a res readable writable => exact selectStep_refines hen.1 h
  | read a res =>
    obtain ⟨i, new, hat, hres⟩ := hen
    have hnew := hphase a
    rw [RelayLocals.PhaseOk, hat.1] at hnew
    simp only [Event.exec, hat.1] at h
    exact readTurn_refines hat hnew (fun bs conn hbs hc => (hres bs conn hbs hc).2) h
  | write a res =>
    obtain ⟨i, new, hat, hres⟩ := hen
    have hnew := hphase a
    rw [RelayLocals.PhaseOk, hat.1] at hnew
    simp only [Event.exec, hat.1] at h
    exact writeTurn_refines hat hnew (fun n hn => (hres n hn).2) h
  | call a => exact callStep_refines h

end QuietLwip.Relay
