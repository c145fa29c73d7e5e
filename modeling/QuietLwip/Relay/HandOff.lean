import QuietLwip.Relay.Refinement

/-!
# The hand-off between the relay threads

In every state the threads reach, each direction of a connection lies in exactly one
place until it is closed. So no thread touches a connection that was destroyed, and
no array is filled beyond its end. What was read and not yet written is the front part of
the direction's buffer.
-/

namespace QuietLwip.Relay

open QuietLwip.Slots QuietLwip.Transition

/-! ### Where a direction may be -/

/-- The element that `crossbar_add_for_writing` is called with. -/
def handsOver : Option Call → List (ConnId × ℕ)
  | some (.addForWriting c k) => [(c, k)]
  | _ => []

/-- The element that `crossbar_add_for_reading` is called with. -/
def handsBack : Option Call → List ConnId
  | some (.addForReading c) => [c]
  | _ => []

/-- The connection that the accept loop still has to hand to the thread of `a`. -/
def Accept.handsOver (a : Agent) : Accept → List ConnId
  | idle => []
  | addToClient c => [c]
  | addToRemote c => if a = .native then [c] else []

/-- The places in which direction `a` is to be read: the incoming crossbar of `a`,
`relay_read` of its thread, and the elements being moved there. -/
def State.readers (s : State) (a : Agent) : List ConnId :=
  (s.incoming a).forReading ++ (s.relays a).reads ++ handsBack (s.relays a.other).call ++
    s.accept.handsOver a

/-- The places in which direction `a` is to be written, with `write_len`: the incoming
crossbar of the other agent, `relay_write` of its thread, and the element being moved there. -/
def State.writers (s : State) (a : Agent) : List (ConnId × ℕ) :=
  (s.incoming a.other).forWriting ++ (s.relays a.other).writes ++ handsOver (s.relays a).call

/-- How often direction `a` of `c` occurs. -/
def State.occurrences (s : State) (a : Agent) (c : ConnId) : ℕ :=
  (s.readers a).count c + ((s.writers a).map Prod.fst).count c

def closeTokens : Option Call → Multiset Token
  | some (.close c) => {.closing c}
  | some (.destroy c) => {.destroying c}
  | _ => 0

theorem callTokens_eq (a : Agent) (call : Option Call) :
    callTokens a call = writeTokens a (handsOver call) + readTokens a.other (handsBack call) +
      closeTokens call := by
  cases call with
  | none => rfl
  | some call => cases call <;> rfl

theorem Accept.tokens_eq (acc : Accept) (a : Agent) :
    acc.tokens = readTokens a (acc.handsOver a) + readTokens a.other (acc.handsOver a.other) := by
  cases acc with
  | idle => rfl
  | addToClient c =>
    cases a with
    | lwip => rfl
    | native => exact Multiset.pair_comm (Token.reading .lwip c) (.reading .native c)
  | addToRemote c => cases a <;> rfl

theorem State.tokens_eq (s : State) (a : Agent) :
    s.tokens = readTokens a (s.readers a) + writeTokens a (s.writers a) +
      (readTokens a.other (s.readers a.other) + writeTokens a.other (s.writers a.other) +
        (closeTokens (s.relays a).call + closeTokens (s.relays a.other).call)) := by
  rw [State.tokens, sum_agents _ a, sum_agents (fun b => (s.incoming b).tokens b) a,
    s.accept.tokens_eq a]
  simp only [RelayLocals.tokens, Crossbar.tokens, callTokens_eq, State.readers, State.writers,
    readTokens_append, writeTokens_append, Agent.other_other]
  abel

theorem countP_readTokens (a b : Agent) (c : ConnId) (l : List ConnId) :
    (readTokens b l).countP (Token.Of a c) = if b = a then l.count c else 0 := by
  induction l with
  | nil => simp [readTokens]
  | cons d l ih =>
    rw [readTokens_cons, Multiset.countP_cons, ih, List.count_cons]
    by_cases hb : b = a <;> by_cases hd : d = c <;> simp [Token.Of, hb, hd]

theorem countP_writeTokens (a b : Agent) (c : ConnId) (l : List (ConnId × ℕ)) :
    (writeTokens b l).countP (Token.Of a c) = if b = a then (l.map Prod.fst).count c else 0 := by
  induction l with
  | nil => simp [writeTokens]
  | cons e l ih =>
    rw [writeTokens_cons, Multiset.countP_cons, ih, List.map_cons, List.count_cons]
    by_cases hb : b = a <;> by_cases he : e.1 = c <;> simp [Token.Of, hb, he]

theorem countP_closeTokens (a : Agent) (c : ConnId) (call : Option Call) :
    (closeTokens call).countP (Token.Of a c) = 0 := by
  rw [Multiset.countP_eq_zero]
  intro t ht hof
  cases call with
  | none => simp [closeTokens] at ht
  | some call =>
    cases call with
    | close d =>
      obtain rfl := Multiset.mem_singleton.mp ht
      exact hof
    | destroy d =>
      obtain rfl := Multiset.mem_singleton.mp ht
      exact hof
    | addForWriting d k => simp [closeTokens] at ht
    | addForReading d => simp [closeTokens] at ht

/-- The occurrences are those of the tokens. -/
theorem State.occurrences_eq (s : State) (a : Agent) (c : ConnId) :
    s.occurrences a c = s.custody.occurrences a c := by
  rw [Custody.occurrences, State.custody, s.tokens_eq a]
  simp only [Multiset.countP_add, countP_readTokens, countP_writeTokens, countP_closeTokens,
    if_neg (Agent.other_ne a), State.occurrences, ↓reduceIte, Nat.add_zero]

theorem State.mem_tokens_of_reader {s : State} {a : Agent} {c : ConnId} (h : c ∈ s.readers a) :
    Token.reading a c ∈ s.tokens := by
  rw [s.tokens_eq a]
  exact Multiset.mem_add.mpr (Or.inl (Multiset.mem_add.mpr (Or.inl (List.mem_map_of_mem h))))

theorem State.mem_tokens_of_writer {s : State} {a : Agent} {c : ConnId} {k : ℕ}
    (h : (c, k) ∈ s.writers a) : Token.writing a c k ∈ s.tokens := by
  rw [s.tokens_eq a]
  refine Multiset.mem_add.mpr (Or.inl (Multiset.mem_add.mpr (Or.inr ?_)))
  exact List.mem_map.mpr ⟨(c, k), h, rfl⟩

theorem State.mem_tokens_of_call {s : State} {a : Agent} {call : Call}
    (h : (s.relays a).call = some call) : call.token a ∈ s.tokens := by
  rw [State.tokens, sum_agents _ a, RelayLocals.tokens, h, callTokens]
  refine Multiset.mem_add.mpr (Or.inl (Multiset.mem_add.mpr (Or.inl (Multiset.mem_add.mpr
    (Or.inl (Multiset.mem_add.mpr (Or.inr ?_)))))))
  exact Multiset.mem_singleton_self _

/-! ### Runs -/

structure Ok (s : State) : Prop where
  inv : s.custody.Inv
  sockets : s.custody.Sockets
  phase : ∀ a, (s.relays a).PhaseOk

theorem phaseOk_update {s s' : State} {a : Agent} {t : RelayLocals}
    (hphase : ∀ b, (s.relays b).PhaseOk) (hr : s'.relays = Function.update s.relays a t)
    (ht : t.PhaseOk) (b : Agent) : (s'.relays b).PhaseOk := by
  rw [hr]
  by_cases hb : b = a
  · rw [hb, Function.update_self]
    exact ht
  · rw [Function.update_of_ne hb]
    exact hphase b

/-- A call does not move the loop it was made in. -/
theorem callStep_phase {s s' : State} {a : Agent} (h : callStep s a = some s') :
    ∃ t, s'.relays = Function.update s.relays a t ∧ t.phase = (s.relays a).phase := by
  rw [callStep] at h
  cases hcall : (s.relays a).call with
  | none =>
    simp only [hcall] at h
    cases h
  | some call =>
    cases call with
    | addForWriting c buflen =>
      simp only [hcall] at h
      obtain ⟨x, -, h⟩ := Option.bind_eq_some_iff.mp h
      cases h
      exact ⟨_, rfl, rfl⟩
    | addForReading c =>
      simp only [hcall] at h
      obtain ⟨x, -, h⟩ := Option.bind_eq_some_iff.mp h
      cases h
      exact ⟨_, rfl, rfl⟩
    | close c =>
      simp only [hcall] at h
      obtain ⟨conn, -, h⟩ := Option.bind_eq_some_iff.mp h
      split at h <;> cases h <;> exact ⟨_, rfl, rfl⟩
    | destroy c =>
      simp only [hcall] at h
      obtain ⟨conn, -, h⟩ := Option.bind_eq_some_iff.mp h
      cases h
      exact ⟨_, rfl, rfl⟩

theorem Event.phaseOk {s s' : State} {e : Event} (hphase : ∀ a, (s.relays a).PhaseOk)
    (hen : e.Enabled s) (h : e.exec s = some s') : ∀ a, (s'.relays a).PhaseOk := by
  cases e with
  | create c nativeFd lwipFd bufLen bufs =>
    cases h
    exact hphase
  | accept =>
    obtain ⟨-, -, -, -, -, -, hrelays, -⟩ := acceptStep_cases h
    rw [hrelays]
    exact hphase
  | drain a =>
    obtain ⟨⟨t, x⟩, htx, h⟩ := Option.bind_eq_some_iff.mp h
    cases h
    refine phaseOk_update hphase rfl ?_
    rw [readCrossbar] at htx
    split at htx
    · cases htx
      trivial
    · cases htx
  | select a res readable writable =>
    obtain ⟨t, rfl, -, -, -, -, -, -, hphase'⟩ := selectStep_cases h
    refine phaseOk_update hphase rfl ?_
    rw [RelayLocals.PhaseOk]
    rcases hphase' with hphase' | hphase' <;> simp [hphase']
  | read a res =>
    obtain ⟨i, new, hat, -⟩ := hen
    have hnew := hphase a
    rw [RelayLocals.PhaseOk, hat.1] at hnew
    simp only [Event.exec, hat.1] at h
    rcases readTurn_cases h with ⟨-, rfl⟩ | ⟨-, c, conn, -, -, rfl | rfl | ⟨bs, -, rfl⟩⟩
    · exact phaseOk_update hphase rfl (Nat.le_refl 0)
    · exact phaseOk_update hphase rfl (Nat.succ_le_succ hnew)
    · exact phaseOk_update hphase rfl (Nat.le_succ_of_le hnew)
    · exact phaseOk_update hphase rfl (Nat.le_succ_of_le hnew)
  | write a res =>
    obtain ⟨i, new, hat, -⟩ := hen
    have hnew := hphase a
    rw [RelayLocals.PhaseOk, hat.1] at hnew
    simp only [Event.exec, hat.1] at h
    rcases writeTurn_cases h with ⟨-, rfl⟩ | ⟨-, c, conn, len, -, -, -,
      rfl | rfl | ⟨n, -, -, rfl⟩ | ⟨n, -, -, rfl⟩⟩
    · exact phaseOk_update hphase rfl trivial
    · exact phaseOk_update hphase rfl (Nat.succ_le_succ hnew)
    · exact phaseOk_update hphase rfl (Nat.le_succ_of_le hnew)
    · exact phaseOk_update hphase rfl (Nat.succ_le_succ hnew)
    · exact phaseOk_update hphase rfl (Nat.le_succ_of_le hnew)
  | call a =>
    obtain ⟨t, hr, ht⟩ := callStep_phase h
    refine phaseOk_update hphase hr ?_
    rw [RelayLocals.PhaseOk, ht]
    exact hphase a

theorem Initial.ok {s : State} (h : Initial s) : Ok s := by
  have htok : s.tokens = 0 := by
    have hin : ∀ a, (s.incoming a).tokens a = 0 := by
      intro a
      obtain ⟨h₁, h₂⟩ := h.incoming a
      simp [Crossbar.tokens, Crossbar.forReading, Crossbar.forWriting, h₁, h₂, readTokens,
        writeTokens]
    have hre : ∀ a, (s.relays a).tokens a = 0 := by
      intro a
      obtain ⟨h₁, h₂, hphase, hcall⟩ := h.relays a
      simp [RelayLocals.tokens, RelayLocals.reads, RelayLocals.writes, hphase, h₁, h₂, hcall,
        readTokens, writeTokens, callTokens]
    simp [State.tokens, hin, hre, h.accept, Accept.tokens]
  have hconns : s.custody.conns = fun _ => none := funext h.conns
  have hlog : ∀ c, s.custody.log c = Log.new := h.log
  have hzero : s.custody.tokens = 0 := htok
  refine ⟨⟨?_, ?_, ?_⟩, ⟨?_, ?_⟩, ?_⟩
  · intro c
    refine Custody.Dead.connOk ⟨?_, ?_, ?_, ?_, ?_⟩ (h.conns c)
    · intro a
      rw [Custody.occurrences, hzero, Multiset.countP_zero]
    · rw [Custody.closes, hzero, Multiset.count_zero]
    · rw [Custody.destroys, hzero, Multiset.count_zero]
    · rw [hlog]
      exact Nat.zero_le 1
    · rw [hlog]
      intro h₁
      cases h₁
  · intro t ht
    rw [hzero] at ht
    exact absurd ht (Multiset.notMem_zero t)
  · intro c a
    rw [hlog]
    exact List.prefix_rfl
  · intro c conn hc
    rw [hconns] at hc
    cases hc
  · intro c d conn conn' hc
    rw [hconns] at hc
    cases hc
  · intro a
    rw [RelayLocals.PhaseOk, (h.relays a).2.2.1]
    trivial

theorem ok_of_reachable {s : State} (hs : relaySystem.Reachable s) : Ok s := by
  refine hs.invariant (I := Ok) (fun s h => Initial.ok h) ?_
  rintro s e s' ⟨hinv, hsock, hphase⟩ - ⟨hen, h⟩
  have hstep := Event.refines hphase hen h
  exact ⟨hstep.inv hinv, hstep.sockets hsock, Event.phaseOk hphase hen h⟩

/-! ### No array overflows, and no destroyed connection is touched -/

theorem Ok.exists_conn {s : State} (hs : Ok s) {t : Token} {a : Agent} {c : ConnId}
    (hmem : t ∈ s.tokens) (ht : t.Of a c) : ∃ conn, s.conns c = some conn :=
  hs.inv.exists_conn (q := s.custody) hmem ht

/-- Entries whose tokens are there are no more than there are sockets. -/
theorem Ok.length_le {s : State} (hs : Ok s) {α : Type*} {l : List α} (token : α → Token)
    (conn : α → ConnId) {a : Agent} (hof : ∀ e, (token e).Of a (conn e))
    (hle : (l.map token : Multiset Token) ≤ s.tokens) : l.length ≤ NUM_SOCKETS := by
  have hnodup : (l.map conn).Nodup := by
    rw [List.nodup_iff_count_le_one]
    intro c
    have hcount : (l.map conn).count c = Multiset.countP (Token.Of a c) (l.map token) := by
      clear hle
      induction l with
      | nil => rfl
      | cons e l ih =>
        have hiff := Custody.Of.iff (b := a) (d := c) (hof e)
        rw [List.map_cons, List.count_cons, ih, List.map_cons, ← Multiset.cons_coe,
          Multiset.countP_cons]
        by_cases he : conn e = c <;> simp [hiff, he]
    rw [hcount]
    exact (Multiset.countP_le_of_le _ hle).trans (hs.inv.occurrences_le a c)
  have hlen := hs.sockets.length_le hnodup ?_
  · rwa [List.length_map] at hlen
  · intro c hc
    obtain ⟨e, he, rfl⟩ := List.mem_map.mp hc
    have hmem : token e ∈ s.tokens :=
      Multiset.mem_of_le hle (List.mem_map_of_mem he)
    exact hs.exists_conn hmem (hof e)

theorem State.tokens_le {s : State} (a b : Agent) :
    (s.relays a).tokens a + (s.incoming b).tokens b ≤ s.tokens := by
  obtain ⟨F, h, -⟩ := State.tokens_crossbar s s (Function.update_eq_self a _).symm
    (Function.update_eq_self b _).symm rfl
  rw [h]
  exact Multiset.le_add_right _ _

theorem Ok.reads_le {s : State} (hs : Ok s) {l : List ConnId} {a : Agent}
    (h : readTokens a l ≤ s.tokens) : l.length ≤ NUM_SOCKETS :=
  hs.length_le (Token.reading a) id (fun _ => ⟨rfl, rfl⟩) h

theorem Ok.writes_le {s : State} (hs : Ok s) {l : List (ConnId × ℕ)} {a : Agent}
    (h : writeTokens a l ≤ s.tokens) : l.length ≤ NUM_SOCKETS :=
  hs.length_le (fun e => Token.writing a e.1 e.2) Prod.fst (fun _ => ⟨rfl, rfl⟩) h

/-- What a thread has and what its crossbar holds are together no more than there are
sockets. -/
theorem Ok.thread_le {s : State} (hs : Ok s) (a : Agent) :
    ((s.relays a).reads ++ (s.incoming a).forReading).length ≤ NUM_SOCKETS ∧
      ((s.relays a).writes ++ (s.incoming a).forWriting).length ≤ NUM_SOCKETS := by
  have hle := State.tokens_le (s := s) a a
  rw [RelayLocals.tokens, Crossbar.tokens] at hle
  constructor
  · refine hs.reads_le (a := a) (le_trans ?_ hle)
    rw [readTokens_append]
    refine add_le_add ?_ (Multiset.le_add_right _ _)
    rw [add_assoc]
    exact Multiset.le_add_right _ _
  · refine hs.writes_le (a := a.other) (le_trans ?_ hle)
    rw [writeTokens_append]
    refine add_le_add ?_ (Multiset.le_add_left _ _)
    rw [add_right_comm]
    exact Multiset.le_add_left _ _

theorem Ok.crossbar_lt {s : State} (hs : Ok s) (a : Agent) :
    (s.incoming a).readyForReadingLen < numRelays ∧
      (s.incoming a).readyForWritingLen < numRelays := by
  obtain ⟨hr, hw⟩ := hs.thread_le a
  rw [List.length_append, Crossbar.forReading, slots_length] at hr
  rw [List.length_append, Crossbar.forWriting, slots_length] at hw
  unfold NUM_SOCKETS at hr hw
  unfold numRelays
  omega

theorem Ok.drain_isSome {s : State} (hs : Ok s) {a : Agent} (hphase : (s.relays a).phase = .drain) :
    (readCrossbar (s.relays a) (s.incoming a)).isSome := by
  obtain ⟨hr, hw⟩ := hs.thread_le a
  simp only [RelayLocals.reads, RelayLocals.writes, hphase, Crossbar.forReading,
    Crossbar.forWriting, List.length_append, slots_length] at hr hw
  unfold NUM_SOCKETS at hr hw
  rw [readCrossbar, if_pos (by unfold numRelays; omega)]
  rfl

theorem Ok.thread_conn {s : State} (hs : Ok s) {a : Agent} {t : Token} {b : Agent} {c : ConnId}
    (hmem : t ∈ (s.relays a).tokens a) (ht : t.Of b c) : ∃ conn, s.conns c = some conn := by
  refine hs.exists_conn (Multiset.mem_of_le ?_ hmem) ht
  exact (Multiset.le_add_right _ _).trans (State.tokens_le a a)

theorem mem_tokens_of_reads {t : RelayLocals} {a : Agent} {c : ConnId} (h : c ∈ t.reads) :
    Token.reading a c ∈ t.tokens a := by
  rw [RelayLocals.tokens, add_assoc]
  exact Multiset.mem_add.mpr (Or.inl (List.mem_map_of_mem h))

theorem mem_tokens_of_writes {t : RelayLocals} {a : Agent} {e : ConnId × ℕ} (h : e ∈ t.writes) :
    Token.writing a.other e.1 e.2 ∈ t.tokens a := by
  rw [RelayLocals.tokens, add_right_comm]
  exact Multiset.mem_add.mpr (Or.inr (List.mem_map.mpr ⟨e, h, rfl⟩))

theorem fdSet_isSome {conns : ConnId → Option RelayConn} {a : Agent} {cs : List ConnId}
    (h : ∀ c ∈ cs, ∃ conn, conns c = some conn) : ∃ fds, fdSet conns a cs = some fds := by
  induction cs with
  | nil => exact ⟨[], rfl⟩
  | cons c cs ih =>
    obtain ⟨conn, hc⟩ := h c (List.mem_cons_self ..)
    obtain ⟨fds, hfds⟩ := ih fun d hd => h d (List.mem_cons_of_mem _ hd)
    rw [fdSet] at hfds
    exact ⟨conn.fd a :: fds, by simp [fdSet, hc, hfds]⟩

theorem Ok.select_isSome {s : State} (hs : Ok s) {a : Agent} (hphase : (s.relays a).phase = .select)
    (res : ℤ) (readable writable : ℕ → Bool) :
    (selectStep s a res readable writable).isSome := by
  obtain ⟨readFds, hread⟩ : ∃ fds, fdSet s.conns a
      (slots (s.relays a).relayRead (s.relays a).relayReadLen) = some fds := by
    refine fdSet_isSome fun c hc => hs.thread_conn (mem_tokens_of_reads (a := a) ?_) ⟨rfl, rfl⟩
    simp only [RelayLocals.reads, hphase]
    exact hc
  obtain ⟨writeFds, hwrite⟩ : ∃ fds, fdSet s.conns a
      (slots (s.relays a).relayWrite (s.relays a).relayWriteLen) = some fds := by
    refine fdSet_isSome fun c hc => ?_
    obtain ⟨k, hk⟩ : ∃ k, (c, k) ∈ (s.relays a).writes := by
      obtain ⟨i, hi, rfl⟩ := List.mem_map.mp hc
      refine ⟨(s.relays a).writeLen i, ?_⟩
      simp only [RelayLocals.writes, hphase]
      exact List.mem_map.mpr ⟨i, hi, rfl⟩
    exact hs.thread_conn (mem_tokens_of_writes (a := a) hk) ⟨rfl, rfl⟩
  simp only [selectStep, hread, hwrite, Option.bind_eq_bind, Option.bind_some]
  split <;> rfl

theorem Ok.read_isSome {s : State} (hs : Ok s) {a : Agent} {i new : ℕ}
    (hat : s.At a (.reading i new)) (res : ReadRes) : (readTurn s a i new res).isSome := by
  rw [readTurn]
  by_cases hi : i < (s.relays a).relayReadLen
  · have hmem : (s.relays a).relayRead i ∈ (s.relays a).reads := by
      simp only [RelayLocals.reads, hat.1, kept_eq _ hi]
      exact List.mem_append_right _ (List.mem_cons_self ..)
    obtain ⟨conn, hc⟩ := hs.thread_conn (mem_tokens_of_reads (a := a) hmem) ⟨rfl, rfl⟩
    simp only [if_pos hi, hc, Option.bind_eq_bind, Option.bind_some]
    split
    · split
      · rfl
      · rfl
      · split <;> rfl
    · rfl
  · simp only [if_neg hi]
    rfl

theorem Ok.write_isSome {s : State} (hs : Ok s) {a : Agent} {i new : ℕ}
    (hat : s.At a (.writing i new)) (res : WriteRes) : (writeTurn s a i new res).isSome := by
  rw [writeTurn]
  by_cases hi : i < (s.relays a).relayWriteLen
  · have hmem : ((s.relays a).relayWrite i, (s.relays a).writeLen i) ∈ (s.relays a).writes := by
      simp only [RelayLocals.writes, hat.1, kept_eq _ hi]
      exact List.mem_append_right _ (List.mem_cons_self ..)
    obtain ⟨conn, hc⟩ := hs.thread_conn (mem_tokens_of_writes (a := a) hmem) ⟨rfl, rfl⟩
    simp only [if_pos hi, hc, Option.bind_eq_bind, Option.bind_some]
    split
    · split
      · split <;> rfl
      · rfl
      · split <;> rfl
    · rfl
  · simp only [if_neg hi]
    rfl

theorem crossbarAdd_isSome {x : Crossbar} (c : ConnId) (k : ℕ)
    (h : x.readyForReadingLen < numRelays ∧ x.readyForWritingLen < numRelays) :
    (∃ x', crossbarAddForReading x c = some x') ∧ ∃ x', crossbarAddForWriting x c k = some x' := by
  rw [crossbarAddForReading, crossbarAddForWriting, if_pos h.1, if_pos h.2]
  exact ⟨⟨_, rfl⟩, ⟨_, rfl⟩⟩

theorem Ok.call_isSome {s : State} (hs : Ok s) {a : Agent} (hcall : (s.relays a).call ≠ none) :
    (callStep s a).isSome := by
  rw [callStep]
  cases hc : (s.relays a).call with
  | none => exact absurd hc hcall
  | some call =>
    have hmem := State.mem_tokens_of_call hc
    cases call with
    | addForWriting c k =>
      obtain ⟨-, x, hx⟩ := crossbarAdd_isSome c k (hs.crossbar_lt a.other)
      simp only [hx]
      rfl
    | addForReading c =>
      obtain ⟨⟨x, hx⟩, -⟩ := crossbarAdd_isSome c 0 (hs.crossbar_lt a.other)
      simp only [hx]
      rfl
    | close c =>
      obtain ⟨conn, hconn⟩ := hs.inv.exists_conn_of_closing (Or.inl hmem)
      have hconn' : s.conns c = some conn := hconn
      simp only [hconn', Option.bind_eq_bind, Option.bind_some]
      split <;> rfl
    | destroy c =>
      obtain ⟨conn, hconn⟩ := hs.inv.exists_conn_of_closing (Or.inr hmem)
      have hconn' : s.conns c = some conn := hconn
      simp only [hconn']
      rfl

/-- Whatever a thread does next, it stays within the arrays and the connections that
exist. -/
theorem Ok.exec_isSome {s : State} (hs : Ok s) {e : Event} (hen : e.Enabled s) :
    (e.exec s).isSome := by
  cases e with
  | create c nativeFd lwipFd bufLen bufs => rfl
  | accept =>
    rw [Event.exec, acceptStep]
    cases hacc : s.accept with
    | idle => exact absurd hacc hen
    | addToClient c =>
      obtain ⟨⟨x, hx⟩, -⟩ := crossbarAdd_isSome c 0 (hs.crossbar_lt .lwip)
      simp only [hx]
      rfl
    | addToRemote c =>
      obtain ⟨⟨x, hx⟩, -⟩ := crossbarAdd_isSome c 0 (hs.crossbar_lt .native)
      simp only [hx]
      rfl
  | drain a =>
    obtain ⟨tx, htx⟩ := Option.isSome_iff_exists.mp (hs.drain_isSome hen.1.1)
    simp only [Event.exec, htx]
    rfl
  | select a res readable writable => exact hs.select_isSome hen.1 res readable writable
  | read a res =>
    obtain ⟨i, new, hat, -⟩ := hen
    simp only [Event.exec, hat.1]
    exact hs.read_isSome hat res
  | write a res =>
    obtain ⟨i, new, hat, -⟩ := hen
    simp only [Event.exec, hat.1]
    exact hs.write_isSome hat res
  | call a => exact hs.call_isSome hen

/-! ### The hand-off -/

/-- In every state reached each direction of a connection is in one place until
`relay_conn_close` is called for it and in none afterwards; a connection is destroyed at
most once, when both directions are closed; and no next step touches one that is not
there. -/
theorem handOff {s : State} (hs : relaySystem.Reachable s) :
    (∀ a c, s.occurrences a c ≤ 1) ∧
    (∀ a c conn, s.conns c = some conn →
      s.occurrences a c = if (s.log c).closed a then 0 else 1) ∧
    (∀ c, (s.log c).destroyed ≤ 1 ∧
      ((s.log c).destroyed = 1 → ∀ a, (s.log c).closed a = true ∧ s.occurrences a c = 0)) ∧
    (∀ a c, (s.relays a).call = some (.destroy c) →
      (∃ conn, s.conns c = some conn) ∧ (s.log c).destroyed = 0 ∧
        (s.relays a.other).call ≠ some (.destroy c) ∧
        ∀ b, (s.log c).closed b = true ∧ s.occurrences b c = 0) ∧
    ∀ e : Event, e.Enabled s → (e.exec s).isSome := by
  have hok := ok_of_reachable hs
  refine ⟨?_, ?_, ?_, ?_, fun e hen => hok.exec_isSome hen⟩
  · intro a c
    rw [State.occurrences_eq]
    exact hok.inv.occurrences_le a c
  · intro a c conn hc
    rw [State.occurrences_eq]
    exact ((hok.inv.conn c).alive hc).occurs a
  · intro c
    cases hc : s.conns c with
    | some conn =>
      have halive := (hok.inv.conn c).alive hc
      have hzero : (s.log c).destroyed = 0 := halive.destroyed
      rw [hzero]
      exact ⟨Nat.zero_le 1, nofun⟩
    | none =>
      have hdead := (hok.inv.conn c).dead hc
      refine ⟨hdead.destroyed, fun hone a => ⟨hdead.closed hone a, ?_⟩⟩
      rw [State.occurrences_eq]
      exact hdead.occurs a
  · intro a c hcall
    have hmem : Token.destroying c ∈ s.tokens := State.mem_tokens_of_call hcall
    obtain ⟨conn, hc⟩ := hok.inv.exists_conn_of_closing (Or.inr hmem)
    have halive := (hok.inv.conn c).alive hc
    obtain ⟨hclosed, hnone, -, hone⟩ :=
      halive.of_destroying (Multiset.count_pos.mpr hmem).ne'
    refine ⟨⟨conn, hc⟩, halive.destroyed, ?_, fun b => ⟨hclosed b, ?_⟩⟩
    · -- the other thread's call would be a second token
      intro hother
      have htwo : s.custody.destroys c = 2 + ((readTokens a (s.readers a) +
          writeTokens a (s.writers a) + (readTokens a.other (s.readers a.other) +
            writeTokens a.other (s.writers a.other))).count (.destroying c)) := by
        rw [Custody.destroys, State.custody, s.tokens_eq a, hcall, hother, closeTokens]
        simp only [Multiset.count_add, Multiset.count_singleton_self]
        omega
      omega
    · rw [State.occurrences_eq]
      exact hnone b

/-- The threads just started, with zeroed arrays. -/
def started : State where
  conns _ := none
  log _ := Log.new
  incoming _ := ⟨fun _ => 0, fun _ => 0, fun _ => 0, 0, 0⟩
  relays _ := ⟨fun _ => 0, fun _ => 0, 0, 0, fun _ => 0, fun _ => false, fun _ => false,
    .drain, none⟩
  accept := .idle

theorem reachable_started : relaySystem.Reachable started :=
  .of_start ⟨fun _ => rfl, fun _ => rfl, fun _ => ⟨rfl, rfl⟩, fun _ => ⟨rfl, rfl, rfl, rfl⟩, rfl⟩

/-- A connection has been accepted and handed to both threads. -/
theorem handOff_accepted : ∃ s, relaySystem.Reachable s ∧ (s.conns 0).isSome ∧
    ∀ a, s.occurrences a 0 = 1 := by
  have h₁ := reachable_started.step (a := Event.create 0 5 3 8192 fun _ _ => 0) ⟨⟨rfl, rfl, by decide, nofun⟩, rfl⟩
  have h₂ := h₁.step (a := Event.accept) ⟨nofun, rfl⟩
  have h₃ := h₂.step (a := Event.accept) ⟨nofun, rfl⟩
  refine ⟨_, h₃, rfl, fun a => ?_⟩
  exact (handOff h₃).2.1 a 0 _ rfl

/-! ### The streams -/

/-- A direction that is open is in a place to be read or in one to be written. -/
theorem State.mem_of_occurrences {s : State} {a : Agent} {c : ConnId}
    (h : s.occurrences a c ≠ 0) : c ∈ s.readers a ∨ ∃ k, (c, k) ∈ s.writers a := by
  by_cases hr : c ∈ s.readers a
  · exact Or.inl hr
  · right
    rw [State.occurrences, List.count_eq_zero.mpr hr, Nat.zero_add] at h
    obtain ⟨⟨d, k⟩, hk, rfl⟩ := List.mem_map.mp (List.count_pos_iff.mp (Nat.pos_of_ne_zero h))
    exact ⟨k, hk⟩

/-- In every state reached the bytes sent are a prefix of those received. An open
direction is either to be read, and everything received is sent, or to be written with
some `write_len`, and what is not yet sent are the first `write_len` bytes of its buffer. -/
theorem stream_integrity {s : State} (hs : relaySystem.Reachable s) :
    (∀ a c, (s.log c).sent a <+: (s.log c).received a) ∧
    (∀ a c, c ∈ s.readers a → (s.log c).received a = (s.log c).sent a) ∧
    (∀ a c len, (c, len) ∈ s.writers a → ∃ conn, s.conns c = some conn ∧
      len ≤ conn.buflens a ∧
      (s.log c).received a = (s.log c).sent a ++ slots (conn.bufs a) len) ∧
    ∀ a c conn, s.conns c = some conn → (s.log c).closed a = false →
      c ∈ s.readers a ∨ ∃ len, (c, len) ∈ s.writers a := by
  have hok := ok_of_reachable hs
  refine ⟨fun a c => hok.inv.isPrefix c a, ?_, ?_, ?_⟩
  · intro a c hc
    exact hok.inv.streams _ (State.mem_tokens_of_reader hc)
  · intro a c len hc
    have hmem := State.mem_tokens_of_writer hc
    obtain ⟨conn, hconn⟩ := hok.exists_conn hmem ⟨rfl, rfl⟩
    obtain ⟨hstream, hlen⟩ := hok.inv.streams _ hmem conn hconn
    exact ⟨conn, hconn, hlen, hstream⟩
  · intro a c conn hc hopen
    refine State.mem_of_occurrences ?_
    rw [State.occurrences_eq, ((hok.inv.conn c).alive hc).occurs a]
    show (if (s.log c).closed a = true then 0 else 1) ≠ 0
    rw [hopen]
    decide

/-- Two bytes are read, and the first of them is written. -/
theorem stream_integrity_partWritten : ∃ s, relaySystem.Reachable s ∧
    (s.log 0).received .lwip = [72, 105] ∧ (s.log 0).sent .lwip = [72] ∧
    (s.log 0).sent .lwip <+: (s.log 0).received .lwip := by
  have h₁ := reachable_started.step (a := Event.create 0 5 3 8192 fun _ _ => 0) ⟨⟨rfl, rfl, by decide, nofun⟩, rfl⟩
  have h₂ := h₁.step (a := Event.accept) ⟨nofun, rfl⟩
  have h₃ := h₂.step (a := Event.accept) ⟨nofun, rfl⟩
  have h₄ := h₃.step (a := Event.drain .lwip) ⟨⟨⟨rfl, rfl⟩, by decide⟩, rfl⟩
  have h₅ := h₄.step (a := Event.select .lwip 1 (fun _ => true) fun _ => true) ⟨⟨rfl, rfl⟩, rfl⟩
  have h₆ := h₅.step (a := Event.read .lwip (.data [72, 105]))
    ⟨⟨0, 0, ⟨rfl, rfl⟩, fun bs conn hbs hc => by cases hbs; cases hc; decide⟩, rfl⟩
  have h₇ := h₆.step (a := Event.call .lwip) ⟨nofun, rfl⟩
  have h₈ := h₇.step (a := Event.drain .native) ⟨⟨⟨rfl, rfl⟩, by decide⟩, rfl⟩
  have h₉ := h₈.step (a := Event.select .native 1 (fun _ => false) fun _ => true) ⟨⟨rfl, rfl⟩, rfl⟩
  have h₁₀ := h₉.step (a := Event.read .native .eof) ⟨⟨0, 0, ⟨rfl, rfl⟩, nofun⟩, rfl⟩
  have h₁₁ := h₁₀.step (a := Event.read .native .eof) ⟨⟨1, 1, ⟨rfl, rfl⟩, nofun⟩, rfl⟩
  have h₁₂ := h₁₁.step (a := Event.write .native (.wrote 1))
    ⟨⟨0, 0, ⟨rfl, rfl⟩, fun n hn => by cases hn; decide⟩, rfl⟩
  exact ⟨_, h₁₂, rfl, rfl, (stream_integrity h₁₂).1 .lwip 0⟩

end QuietLwip.Relay
