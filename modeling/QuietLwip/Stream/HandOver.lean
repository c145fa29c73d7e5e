import QuietLwip.Stream.Delivery

/-!
# Handing text over to the application

What `tcp_process` leaves in `recv_data` goes to the `recv` callback of the pcb. A chunk that the
callback refuses waits in `refused_data`, with a flag when the FIN came with it, and is offered again
by the next segment and by the fast timer. The end of the stream is a call without a pbuf.
-/

namespace QuietLwip.Stream

open Serial Word Tcp

variable {α : Type*}

/-- A call of the `recv` callback, and whether it returned `ERR_OK`. -/
inductive Call (α : Type*) where
  | recv (p : List α) (ok : Bool)
  | closed (ok : Bool)
  deriving DecidableEq, Repr

/-- The chunks that the callback has taken. -/
def accepted : List (Call α) → List (List α)
  | [] => []
  | .recv p true :: calls => p :: accepted calls
  | _ :: calls => accepted calls

/-- The calls in which the callback has taken the end of the stream. -/
def endings : List (Call α) → ℕ
  | [] => 0
  | .closed true :: calls => endings calls + 1
  | _ :: calls => endings calls

/-- What the callback answers while a segment or a tick is processed: to `refused_data`, to
`recv_data`, and to the end of the stream. -/
structure Replies where
  again : Bool := true
  data : Bool := true
  closed : Bool := true

/-- An assertion of `tcp_process`, or the one in front of the call for `recv_data`. -/
inductive InputFault where
  | process (f : Fault)
  | refusedData
  deriving DecidableEq, Repr

/-- A connection with its side towards the application. `chunks` is all that `tcp_process` has left
in `recv_data`. -/
structure Hand (α : Type*) where
  pcb : Rcv α
  -- `refused_data`, with `PBUF_FLAG_TCP_FIN`
  refused : Option (List α × Bool) := none
  -- whether the pcb is on `tcp_active_pcbs`
  active : Bool := true
  chunks : List (List α) := []
  gotFin : Bool := false
  calls : List (Call α) := []
  deriving DecidableEq, Repr

namespace Hand

/-- `TCP_EVENT_CLOSED`, with the correction of `rcv_wnd` in front of it. What the callback returns is
not looked at. -/
def eventClosed (replies : Replies) (h : Hand α) : Hand α :=
  { h with
    pcb := if h.pcb.rcvWnd = tcpWnd then h.pcb else { h.pcb with rcvWnd := u16 (h.pcb.rcvWnd + 1) }
    calls := h.calls ++ [.closed replies.closed] }

/-- `tcp_process_refused_data`, where there is any. -/
def processRefusedData (replies : Replies) (h : Hand α) : Hand α :=
  match h.refused with
  | none => h
  | some (p, fin) =>
    if replies.again then
      let h := { h with refused := none, calls := h.calls ++ [.recv p true] }
      if fin then h.eventClosed replies else h
    else { h with calls := h.calls ++ [.recv p false] }

/-- The call for `recv_data`. -/
def takeData (replies : Replies) (data : List α) (h : Hand α) : Except InputFault (Hand α) :=
  if data = [] then .ok h
  else if h.refused.isSome then .error .refusedData
  else
    .ok { h with
      chunks := h.chunks ++ [data]
      refused := if replies.data then none else some (data, false)
      calls := h.calls ++ [.recv data replies.data] }

/-- The call for the FIN, which a refused chunk delays. -/
def takeFin (replies : Replies) (gotFin : Bool) (h : Hand α) : Hand α :=
  if gotFin then
    match h.refused with
    | some (p, _) => { h with gotFin := true, refused := some (p, true) }
    | none => { h with gotFin := true }.eventClosed replies
  else h

/-- The pcb is taken off `tcp_active_pcbs`, and `tcp_pcb_purge` has freed `refused_data`. -/
def leaveActive (h : Hand α) : Hand α := { h with active := false, refused := none }

/-- `tcp_input` after `tcp_process`. -/
def deliver (replies : Replies) (pcb : Rcv α) (r : Received α) (h : Hand α) :
    Except InputFault (Hand α) :=
  match pcb.state with
  | .closed => .ok { h with pcb := pcb }.leaveActive
  | .timeWait => do
    let h ← { h with pcb := pcb }.leaveActive.takeData replies r.recvData
    .ok (h.takeFin replies r.gotFin)
  | _ => do
    let h ← { h with pcb := pcb }.takeData replies r.recvData
    .ok (h.takeFin replies r.gotFin)

/-- `tcp_input` for a pcb that is found on `tcp_active_pcbs`. -/
def tcpInput (a : Arrival α) (env : Answers) (replies : Replies) (h : Hand α) :
    Except InputFault (Hand α) :=
  let h := h.processRefusedData replies
  if h.refused.isSome && decide (0 < a.inseg.tcplen) then .ok h
  else
    match h.pcb.tcpProcess env a with
    | .error f => .error (.process f)
    | .ok (pcb, r) => h.deliver replies pcb r

/-- `tcp_input` for a segment with RST, which ends the connection where its sequence number is
acceptable. -/
def tcpReset (seqno : Seq) (tcplen : ℕ) (replies : Replies) (h : Hand α) : Hand α :=
  let h := h.processRefusedData replies
  if h.refused.isSome && decide (0 < tcplen) then h
  else if tcpSeqBetween seqno h.pcb.rcvNxt h.pcb.rightEdge then
    { h with pcb := h.pcb.leave .closed }.leaveActive
  else h

/-- `tcp_fasttmr` for a pcb on `tcp_active_pcbs`: a delayed ACK goes out, and what was refused is
offered again. -/
def tcpFasttmr (env : Answers) (replies : Replies) (h : Hand α) : Hand α :=
  { h with
    pcb :=
      if h.pcb.ackDelay then
        { h.pcb.tcpAckNow.tcpSendEmptyAck env with ackDelay := false, ackNow := false }
      else h.pcb }.processRefusedData replies

end Hand

/-- What can happen to a connection whose receive side stays open. -/
inductive HandEvent (α : Type*) where
  | segment (a : Arrival α) (env : Answers) (replies : Replies)
  | reset (seqno : Seq) (tcplen : ℕ) (replies : Replies)
  | fasttmr (env : Answers) (replies : Replies)
  | recved (len : ℕ)
  | output
  | shutdownTx

/-- Segments and ticks reach a pcb on `tcp_active_pcbs` only. -/
def Hand.exec (e : HandEvent α) (h : Hand α) : Except InputFault (Hand α) :=
  match e with
  | .segment a env replies => if h.active then h.tcpInput a env replies else .ok h
  | .reset seqno tcplen replies =>
    .ok (if h.active then h.tcpReset seqno tcplen replies else h)
  | .fasttmr env replies => .ok (if h.active then h.tcpFasttmr env replies else h)
  | .recved len =>
    match h.pcb.tcpRecved len with
    | .error f => .error (.process f)
    | .ok pcb => .ok { h with pcb := pcb }
  | .output => .ok { h with pcb := h.pcb.announce }
  | .shutdownTx => .ok { h with pcb := Session.closed h.pcb }

/-- A connection that has handed nothing over yet. -/
def Hand.Fresh (h : Hand α) : Prop :=
  (h.pcb.state = .synRcvd ∨ h.pcb.state = .established) ∧ h.refused = none ∧ h.active = true ∧
    h.chunks = [] ∧ h.gotFin = false ∧ h.calls = []

/-- The connections of an application that does not shut down the receive side. -/
def handing (α : Type*) : Transition.System (Hand α) (HandEvent α) where
  start := Hand.Fresh
  step h e h' := h.exec e = .ok h'

/-! ### What `tcp_process` leaves -/

section

variable {pcb pcb' : Rcv α} {r : Received α} {env : Answers}

/-- How `tcp_process` uses `tcp_receive`, and what becomes of the state. -/
theorem tcpProcess_cases {arr : Arrival α} (h : pcb.tcpProcess env arr = .ok (pcb', r)) :
    (r = {} ∧ (pcb'.state = pcb.state ∨ pcb'.state = .closed)) ∨
      ∃ start done, Rcv.tcpReceive env arr.inseg start = .ok (done, r) ∧
        (start.state = pcb.state ∨ pcb.state = .synRcvd) ∧ (r.gotFin = true → Deaf pcb'.state) ∧
          (Deaf pcb.state → r = {} ∧ Deaf pcb'.state) := by
  unfold Rcv.tcpProcess at h
  split at h
  · cases h
    exact .inl ⟨rfl, .inl rfl⟩
  have hmss : (pcb.setMss arr.mss).state = pcb.state := Rcv.setMss_alike.state
  dsimp only at h
  revert h hmss
  generalize pcb.setMss arr.mss = start
  intro h hmss
  split at h
  · next hstate =>
    have hopen : ¬Deaf pcb.state := by
      rw [← hmss, hstate]
      rintro (h | h) <;> cases h
    split at h
    · split at h
      · obtain ⟨⟨done, r'⟩, hrec, h⟩ := bind_ok h
        cases h
        refine .inr ⟨_, done, hrec, .inr (hmss.symm.trans hstate), fun hfin => ?_,
          fun hdeaf => absurd hdeaf hopen⟩
        rw [if_pos hfin]
        exact .inl rfl
      · cases h
        exact .inl ⟨rfl, .inr rfl⟩
    · cases h
      exact .inl ⟨rfl, .inl hmss⟩
  · next hstate =>
    have hopen : ¬Deaf pcb.state := by
      rw [← hmss, hstate]
      rintro (h | h) <;> cases h
    obtain ⟨⟨done, r'⟩, hrec, h⟩ := bind_ok h
    cases h
    refine .inr ⟨_, done, hrec, .inl hmss, fun hfin => ?_, fun hdeaf => absurd hdeaf hopen⟩
    rw [if_pos hfin]
    exact .inl rfl
  · next hstate =>
    obtain ⟨⟨done, r'⟩, hrec, h⟩ := bind_ok h
    cases h
    obtain ⟨rfl, hdone⟩ := tcpReceive_deaf (by rw [hstate]; rfl) hrec
    have hdeaf : Deaf done.state := by
      rw [hdone.state, hstate]
      exact .inl rfl
    exact .inr ⟨_, done, hrec, .inl hmss, nofun, fun _ => ⟨rfl, hdeaf⟩⟩
  · next hstate =>
    have hopen : ¬Deaf pcb.state := by
      rw [← hmss, hstate]
      rintro (h | h) <;> cases h
    obtain ⟨⟨done, r'⟩, hrec, h⟩ := bind_ok h
    dsimp only at h
    split at h
    · split at h
      · cases h
        exact .inr ⟨_, done, hrec, .inl hmss, fun _ => .inl rfl, fun hdeaf => absurd hdeaf hopen⟩
      · cases h
        exact .inr ⟨_, done, hrec, .inl hmss, fun _ => .inl rfl, fun hdeaf => absurd hdeaf hopen⟩
    · next hgot =>
      split at h
      · cases h
        exact .inr ⟨_, done, hrec, .inl hmss, fun h => absurd h hgot,
          fun hdeaf => absurd hdeaf hopen⟩
      · cases h
        exact .inr ⟨_, pcb', hrec, .inl hmss, fun h => absurd h hgot,
          fun hdeaf => absurd hdeaf hopen⟩
  · next hstate =>
    have hopen : ¬Deaf pcb.state := by
      rw [← hmss, hstate]
      rintro (h | h) <;> cases h
    obtain ⟨⟨done, r'⟩, hrec, h⟩ := bind_ok h
    cases h
    refine .inr ⟨_, done, hrec, .inl hmss, fun hfin => ?_, fun hdeaf => absurd hdeaf hopen⟩
    rw [if_pos hfin]
    exact .inl rfl
  · next hstate =>
    obtain ⟨⟨done, r'⟩, hrec, h⟩ := bind_ok h
    cases h
    obtain ⟨rfl, hdone⟩ := tcpReceive_deaf (by rw [hstate]; rfl) hrec
    refine .inr ⟨_, done, hrec, .inl hmss, nofun, fun _ => ⟨rfl, ?_⟩⟩
    split
    · exact .inl rfl
    · rw [hdone.state, hstate]
      exact .inl rfl
  · next hstate =>
    obtain ⟨⟨done, r'⟩, hrec, h⟩ := bind_ok h
    cases h
    obtain ⟨rfl, hdone⟩ := tcpReceive_deaf (by rw [hstate]; rfl) hrec
    refine .inr ⟨_, done, hrec, .inl hmss, nofun, fun _ => ⟨rfl, ?_⟩⟩
    split
    · exact .inr rfl
    · rw [hdone.state, hstate]
      exact .inl rfl
  · cases h
    exact .inl ⟨rfl, .inl hmss⟩

/-- A segment without a sequence number brings nothing. -/
theorem tcpProcess_empty {arr : Arrival α} (hlen : arr.inseg.tcplen = 0)
    (h : pcb.tcpProcess env arr = .ok (pcb', r)) : r = {} := by
  rcases tcpProcess_cases h with ⟨rfl, -⟩ | ⟨start, done, hrec, -⟩
  · rfl
  · unfold Rcv.tcpReceive at hrec
    rw [hlen] at hrec
    split at hrec
    · rw [if_neg (by simp)] at hrec
      split at hrec <;> cases hrec <;> rfl
    · cases hrec

end

/-! ### Calls -/

variable {p : List α} {ok : Bool} {cs cs' : List (Call α)} {h h' : Hand α} {replies : Replies}

theorem accepted_append : accepted (cs ++ cs') = accepted cs ++ accepted cs' := by
  induction cs with
  | nil => rfl
  | cons c cs ih =>
    rcases c with ⟨p, _ | _⟩ | ok
    · exact ih
    · exact congrArg (p :: ·) ih
    · exact ih

theorem endings_append : endings (cs ++ cs') = endings cs + endings cs' := by
  induction cs with
  | nil => exact (Nat.zero_add _).symm
  | cons c cs ih =>
    rcases c with ⟨p, ok⟩ | _ | _
    · exact ih
    · exact ih
    · show endings (cs ++ cs') + 1 = endings cs + 1 + endings cs'
      omega

/-- No call has been for the end of the stream. -/
def RecvOnly (cs : List (Call α)) : Prop := ∀ c ∈ cs, ∃ p ok, c = .recv p ok

theorem RecvOnly.snoc (hcs : RecvOnly cs) : RecvOnly (cs ++ [Call.recv p ok]) := by
  intro c hc
  rcases List.mem_append.mp hc with hc | hc
  · exact hcs c hc
  · exact ⟨p, ok, List.mem_singleton.mp hc⟩

theorem RecvOnly.endings (hcs : RecvOnly cs) : endings cs = 0 := by
  induction cs with
  | nil => rfl
  | cons c cs ih =>
    obtain ⟨p, ok, rfl⟩ := hcs c List.mem_cons_self
    exact ih fun c hc => hcs c (List.mem_cons_of_mem _ hc)

/-- In front of the first call for the end of the stream there are only calls for chunks. -/
theorem RecvOnly.front {front back : List (Call α)} {ok' : Bool} (hcs : RecvOnly cs)
    (h : cs ++ [.closed ok] = front ++ .closed ok' :: back) : front = cs ∧ back = [] := by
  induction cs generalizing front with
  | nil =>
    cases front with
    | nil =>
      simp only [List.nil_append, List.cons.injEq] at h
      exact ⟨rfl, h.2.symm⟩
    | cons c front => simp at h
  | cons c cs ih =>
    cases front with
    | nil =>
      obtain ⟨p, ok, hc⟩ := hcs c List.mem_cons_self
      rw [hc] at h
      simp at h
    | cons c' front =>
      simp only [List.cons_append, List.cons.injEq] at h
      obtain ⟨hfront, hback⟩ := ih (fun c hc => hcs c (List.mem_cons_of_mem _ hc)) h.2
      exact ⟨by rw [hfront, h.1], hback⟩

/-! ### The hand-over -/

/-- The chunks taken so far and the one that waits are all there are, and the FIN waits with it or
has been taken. -/
def Hand.Handed (h : Hand α) : Prop :=
  ∃ cs, RecvOnly cs ∧ h.chunks = accepted cs ++ (h.refused.map Prod.fst).toList ∧
    (h.calls = cs ∧ (∀ x ∈ h.refused, x.2 = h.gotFin) ∧ (h.gotFin = true → h.refused.isSome) ∨
      h.calls = cs ++ [.closed true] ∧ h.refused = none ∧ h.gotFin = true)

theorem Hand.Handed.congr (hh : h.Handed) (hrefused : h'.refused = h.refused)
    (hchunks : h'.chunks = h.chunks) (hfin : h'.gotFin = h.gotFin) (hcalls : h'.calls = h.calls) :
    h'.Handed := by
  rw [Hand.Handed]
  rw [hrefused, hchunks, hfin, hcalls]
  exact hh

/-- What is left of a connection when `refused_data` has been offered again. -/
theorem Hand.Handed.processRefusedData (hh : h.Handed) (hclosed : replies.closed = true) :
    (h.processRefusedData replies).Handed := by
  obtain ⟨cs, hcs, hchunks, hcalls⟩ := hh
  rw [Hand.processRefusedData]
  split
  · exact ⟨cs, hcs, hchunks, hcalls⟩
  · next p fin hrefused =>
    rw [hrefused] at hchunks hcalls
    obtain ⟨hcalls, hflag, -⟩ : h.calls = cs ∧ (∀ x ∈ some (p, fin), x.2 = h.gotFin) ∧ _ := by
      rcases hcalls with hcalls | ⟨-, hnone, -⟩
      · exact hcalls
      · cases hnone
    have hfin : fin = h.gotFin := hflag _ rfl
    have htaken : accepted (cs ++ [Call.recv p true]) = h.chunks := by
      rw [accepted_append, hchunks]
      rfl
    split
    · dsimp only
      split
      · next htrue =>
        refine ⟨cs ++ [.recv p true], hcs.snoc, ?_, .inr ⟨?_, rfl, hfin ▸ htrue⟩⟩
        · rw [htaken]
          exact (List.append_nil _).symm
        · show h.calls ++ [Call.recv p true] ++ [Call.closed replies.closed] = _
          rw [hcalls, hclosed]
      · next hfalse =>
        refine ⟨cs ++ [.recv p true], hcs.snoc, ?_, .inl ⟨by rw [hcalls], nofun, fun h => ?_⟩⟩
        · rw [htaken]
          exact (List.append_nil _).symm
        · exact absurd (hfin.trans h) hfalse
    · refine ⟨cs ++ [.recv p false], hcs.snoc, ?_, .inl ⟨by rw [hcalls], ?_, fun _ => ?_⟩⟩
      · rw [accepted_append, hrefused, hchunks, show accepted [.recv p false] = [] from rfl,
          List.append_nil]
      · rw [hrefused]
        exact hflag
      · rw [hrefused]
        rfl

/-- What offering `refused_data` again leaves alone. -/
theorem Hand.processRefusedData_spec (replies : Replies) (h : Hand α) :
    (h.processRefusedData replies).chunks = h.chunks ∧
      (h.processRefusedData replies).gotFin = h.gotFin ∧
      (h.processRefusedData replies).active = h.active ∧
      (h.processRefusedData replies).pcb.state = h.pcb.state ∧
      ((h.processRefusedData replies).refused = none ∨
        replies.again = false ∧ (h.processRefusedData replies).refused = h.refused) := by
  rw [Hand.processRefusedData]
  split
  · next hnone => exact ⟨rfl, rfl, rfl, rfl, .inl hnone⟩
  · split
    · dsimp only
      split
      · refine ⟨rfl, rfl, rfl, ?_, .inl rfl⟩
        rw [Hand.eventClosed]
        dsimp only
        split <;> rfl
      · exact ⟨rfl, rfl, rfl, rfl, .inl rfl⟩
    · next hagain => exact ⟨rfl, rfl, rfl, rfl, .inr ⟨by simpa using hagain, rfl⟩⟩

theorem Hand.takeData_spec {data : List α} (hh : h.Handed)
    (hfin : data ≠ [] → h.gotFin = false) (htake : h.takeData replies data = .ok h') :
    h'.Handed ∧ h'.gotFin = h.gotFin ∧ h'.active = h.active ∧ h'.pcb = h.pcb ∧
      (h'.refused = none ∨ h'.refused = h.refused ∨ data ≠ [] ∧ replies.data = false) := by
  unfold Hand.takeData at htake
  split at htake
  · cases htake
    exact ⟨hh, rfl, rfl, rfl, .inr (.inl rfl)⟩
  · next hdata =>
    split at htake
    · cases htake
    · next hnone =>
      cases htake
      have hnone : h.refused = none := by simpa using hnone
      have hfin := hfin hdata
      obtain ⟨cs, hcs, hchunks, hcalls⟩ := hh
      have hcalls : h.calls = cs := by
        rcases hcalls with ⟨hcalls, -⟩ | ⟨-, -, htrue⟩
        · exact hcalls
        · rw [hfin] at htrue
          cases htrue
      rw [hnone] at hchunks
      have hall : h.chunks = accepted cs := hchunks.trans (List.append_nil _)
      cases hreply : replies.data with
      | true =>
        refine ⟨⟨cs ++ [.recv data true], hcs.snoc, ?_, .inl ⟨?_, nofun, fun h => ?_⟩⟩, rfl, rfl, rfl,
          .inl rfl⟩
        · show h.chunks ++ [data] = accepted (cs ++ [Call.recv data true]) ++ []
          rw [accepted_append, hall, List.append_nil]
          rfl
        · show h.calls ++ [Call.recv data true] = _
          rw [hcalls]
        · exact absurd (hfin.symm.trans h) Bool.false_ne_true
      | false =>
        refine ⟨⟨cs ++ [.recv data false], hcs.snoc, ?_, .inl ⟨?_, ?_, fun _ => rfl⟩⟩, rfl, rfl, rfl,
          .inr (.inr ⟨hdata, rfl⟩)⟩
        · show h.chunks ++ [data] = accepted (cs ++ [Call.recv data false]) ++ [data]
          rw [accepted_append, hall, show accepted [.recv data false] = [] from rfl, List.append_nil]
        · show h.calls ++ [Call.recv data false] = _
          rw [hcalls]
        · rintro x hx
          cases hx
          exact hfin.symm

theorem Hand.Handed.takeFin {gotFin : Bool} (hh : h.Handed) (hclosed : replies.closed = true)
    (hfin : gotFin = true → h.gotFin = false) : (h.takeFin replies gotFin).Handed := by
  rw [Hand.takeFin]
  split
  · next htrue =>
    have hfin := hfin htrue
    obtain ⟨cs, hcs, hchunks, hcalls⟩ := hh
    have hcalls : h.calls = cs := by
      rcases hcalls with ⟨hcalls, -⟩ | ⟨-, -, htrue⟩
      · exact hcalls
      · rw [hfin] at htrue
        cases htrue
    split
    · next p fin hrefused =>
      rw [hrefused] at hchunks
      refine ⟨cs, hcs, hchunks, .inl ⟨hcalls, ?_, fun _ => rfl⟩⟩
      rintro x hx
      cases hx
      rfl
    · next hnone =>
      refine ⟨cs, hcs, hchunks, .inr ⟨?_, hnone, rfl⟩⟩
      show h.calls ++ [Call.closed replies.closed] = _
      rw [hcalls, hclosed]
  · exact hh

theorem Hand.takeFin_spec (replies : Replies) (gotFin : Bool) (h : Hand α) :
    (h.takeFin replies gotFin).gotFin = (h.gotFin || gotFin) ∧
      (h.takeFin replies gotFin).active = h.active ∧
      (h.takeFin replies gotFin).pcb.state = h.pcb.state ∧
      (h.takeFin replies gotFin).refused.isSome = h.refused.isSome := by
  rw [Hand.takeFin]
  split
  · next htrue =>
    split
    · next hrefused =>
      rw [hrefused, htrue, Bool.or_true]
      exact ⟨rfl, rfl, rfl, rfl⟩
    · next hnone =>
      rw [htrue, Bool.or_true]
      refine ⟨rfl, rfl, ?_, rfl⟩
      rw [Hand.eventClosed]
      dsimp only
      split <;> rfl
  · next hfalse =>
    rw [Bool.not_eq_true] at hfalse
    rw [hfalse, Bool.or_false]
    exact ⟨rfl, rfl, rfl, rfl⟩

/-! ### Runs -/

/-- The invariant: what waits is on a pcb that the fast timer visits. -/
structure Hand.Kept (h : Hand α) : Prop where
  handed : h.Handed
  listed : h.refused.isSome → h.active = true
  deaf : h.gotFin = true → Deaf h.pcb.state

/-- The callback does not refuse the end of the stream, and nothing waits for it when the pcb is
taken off `tcp_active_pcbs`. -/
def Lossless (h : Hand α) : HandEvent α → Prop
  | .segment a env replies => h.active = true → replies.closed = true ∧
      ((h.processRefusedData replies).refused = none ∨ a.inseg.tcplen = 0 →
        ∀ pcb r, (h.processRefusedData replies).pcb.tcpProcess env a = .ok (pcb, r) →
          pcb.state = .timeWait ∨ pcb.state = .closed →
            (h.processRefusedData replies).refused = none ∧ (r.recvData = [] ∨ replies.data = true))
  | .reset seqno tcplen replies => h.active = true → replies.closed = true ∧
      ((h.processRefusedData replies).refused = none ∨ tcplen = 0 →
        tcpSeqBetween seqno (h.processRefusedData replies).pcb.rcvNxt
          (h.processRefusedData replies).pcb.rightEdge = true →
          (h.processRefusedData replies).refused = none)
  | .fasttmr _ replies => h.active = true → replies.closed = true
  | _ => True

variable {pcb : Rcv α} {r : Received α} {e : HandEvent α} {es : List (HandEvent α)}

theorem Hand.Kept.processRefusedData (hk : h.Kept) (hclosed : replies.closed = true) :
    (h.processRefusedData replies).Kept := by
  obtain ⟨-, hfin, hactive, hstate, hrefused⟩ := h.processRefusedData_spec replies
  refine ⟨hk.handed.processRefusedData hclosed, fun hsome => ?_, fun htrue => ?_⟩
  · rcases hrefused with hnone | ⟨-, hsame⟩
    · rw [hnone] at hsome
      cases hsome
    · rw [hsame] at hsome
      exact hactive.trans (hk.listed hsome)
  · rw [hstate]
    exact hk.deaf (hfin.symm.trans htrue)

/-- The two calls after `tcp_process`. -/
theorem Hand.Handed.calls (hh : h.Handed)
    (hdata : r.recvData ≠ [] → h.gotFin = false) (hfin : r.gotFin = true → h.gotFin = false)
    (hclosed : replies.closed = true) (htake : h.takeData replies r.recvData = .ok h') :
    (h'.takeFin replies r.gotFin).Handed ∧
      (h'.takeFin replies r.gotFin).gotFin = (h.gotFin || r.gotFin) ∧
      (h'.takeFin replies r.gotFin).active = h.active ∧
      (h'.takeFin replies r.gotFin).pcb.state = h.pcb.state ∧
      ((h'.takeFin replies r.gotFin).refused.isSome →
        h.refused.isSome ∨ r.recvData ≠ [] ∧ replies.data = false) := by
  obtain ⟨hh', hfin', hactive, hpcb, hrefused⟩ := Hand.takeData_spec hh hdata htake
  obtain ⟨hfin'', hactive', hstate, hsome⟩ := h'.takeFin_spec replies r.gotFin
  refine ⟨hh'.takeFin hclosed fun htrue => hfin'.trans (hfin htrue), hfin''.trans (by rw [hfin']),
    hactive'.trans hactive, hstate.trans (by rw [hpcb]), fun hnew => ?_⟩
  rw [hsome] at hnew
  rcases hrefused with hnone | hsame | hboth
  · rw [hnone] at hnew
    cases hnew
  · exact .inl (hsame ▸ hnew)
  · exact .inr hboth

/-- `tcp_input` after `tcp_process`. -/
theorem Hand.Kept.deliver (hk : h.Kept) (hactive : h.active = true)
    (hclosed : replies.closed = true) (hold : h.gotFin = true → r = {} ∧ Deaf pcb.state)
    (hnew : r.gotFin = true → Deaf pcb.state)
    (hleave : pcb.state = .timeWait ∨ pcb.state = .closed →
      h.refused = none ∧ (r.recvData = [] ∨ replies.data = true))
    (hdeliver : h.deliver replies pcb r = .ok h') : h'.Kept := by
  have hdata : r.recvData ≠ [] → h.gotFin = false := by
    intro hne
    refine Bool.eq_false_iff.mpr fun htrue => hne ?_
    rw [(hold htrue).1]
  have hfin : r.gotFin = true → h.gotFin = false := by
    intro htrue
    refine Bool.eq_false_iff.mpr fun hgot => ?_
    rw [(hold hgot).1] at htrue
    cases htrue
  have hdeaf : (h.gotFin || r.gotFin) = true → Deaf pcb.state := by
    intro hany
    rcases Bool.or_eq_true_iff.mp hany with hgot | hgot
    · exact (hold hgot).2
    · exact hnew hgot
  unfold Hand.deliver at hdeliver
  split at hdeliver
  · next hstate =>
    cases hdeliver
    have hnone := (hleave (.inr hstate)).1
    refine ⟨hk.handed.congr hnone.symm rfl rfl rfl, nofun, fun _ => ?_⟩
    show Deaf pcb.state
    rw [hstate]
    exact .inr rfl
  · next hstate =>
    obtain ⟨hnone, hreply⟩ := hleave (.inl hstate)
    obtain ⟨h1, htake, hdone⟩ := bind_ok hdeliver
    cases hdone
    have hstart : ({ h with pcb := pcb }.leaveActive).Handed :=
      hk.handed.congr hnone.symm rfl rfl rfl
    obtain ⟨hh, hfin', -, hstate', hsome⟩ := hstart.calls hdata hfin hclosed htake
    refine ⟨hh, fun hrefused => ?_, fun htrue => ?_⟩
    · rcases hsome hrefused with hold | ⟨hne, hfalse⟩
      · cases hold
      · rcases hreply with hreply | hreply
        · exact absurd hreply hne
        · rw [hreply] at hfalse
          cases hfalse
    · rw [hstate']
      exact hdeaf (hfin'.symm.trans htrue)
  · obtain ⟨h1, htake, hdone⟩ := bind_ok hdeliver
    cases hdone
    have hstart : ({ h with pcb := pcb } : Hand α).Handed := hk.handed.congr rfl rfl rfl rfl
    obtain ⟨hh, hfin', hactive', hstate', -⟩ := hstart.calls hdata hfin hclosed htake
    refine ⟨hh, fun _ => hactive'.trans hactive, fun htrue => ?_⟩
    rw [hstate']
    exact hdeaf (hfin'.symm.trans htrue)

theorem deaf_closed {st : TcpState} (h : Deaf st) (hpcb : pcb.state = st) :
    Deaf (Session.closed pcb).state := by
  rw [Session.closed]
  split
  · next hstate =>
    rw [← hpcb, hstate] at h
    rcases h with h | h <;> cases h
  · exact .inl rfl
  · rwa [hpcb]

/-- What the invariant looks at is the state of the pcb only. -/
theorem Hand.Kept.congr (hk : h.Kept) (hstate : Deaf h.pcb.state → Deaf pcb.state) :
    ({ h with pcb := pcb } : Hand α).Kept :=
  ⟨hk.handed.congr rfl rfl rfl rfl, hk.listed, fun htrue => hstate (hk.deaf htrue)⟩

theorem Hand.Kept.tcpInput {a : Arrival α} {env : Answers} (hk : h.Kept) (hactive : h.active = true)
    (hok : Lossless h (.segment a env replies)) (hexec : h.tcpInput a env replies = .ok h') :
    h'.Kept := by
  obtain ⟨hclosed, hleave⟩ := hok hactive
  have hk1 := hk.processRefusedData hclosed
  have hactive1 := (h.processRefusedData_spec replies).2.2.1.trans hactive
  unfold Hand.tcpInput at hexec
  dsimp only at hexec
  split at hexec
  · cases hexec
    exact hk1
  · next hgoes =>
    have hgoes : (h.processRefusedData replies).refused = none ∨ a.inseg.tcplen = 0 := by
      by_contra hnot
      obtain ⟨hsome, hpos⟩ := not_or.mp hnot
      refine hgoes ?_
      rw [Bool.and_eq_true, decide_eq_true_eq]
      exact ⟨Option.isSome_iff_ne_none.mpr hsome, Nat.pos_of_ne_zero hpos⟩
    split at hexec
    · cases hexec
    · next pcb r hproc =>
      refine hk1.deliver hactive1 hclosed (fun htrue => ?_) (fun htrue => ?_)
        (hleave hgoes pcb r hproc) hexec
      · have hdeaf := hk1.deaf htrue
        rcases tcpProcess_cases hproc with ⟨rfl, hstate | hstate⟩ | ⟨start, done, -, -, -, hquiet⟩
        · exact ⟨rfl, hstate ▸ hdeaf⟩
        · exact ⟨rfl, hstate ▸ .inr rfl⟩
        · exact hquiet hdeaf
      · rcases tcpProcess_cases hproc with ⟨rfl, -⟩ | ⟨start, done, -, -, hfin, -⟩
        · cases htrue
        · exact hfin htrue

theorem Hand.Kept.exec (hk : h.Kept) (hok : Lossless h e) (hexec : h.exec e = .ok h') : h'.Kept := by
  cases e with
  | segment a env replies =>
    unfold Hand.exec at hexec
    dsimp only at hexec
    split at hexec
    · next hactive => exact hk.tcpInput hactive hok hexec
    · cases hexec
      exact hk
  | reset seqno tcplen replies =>
    cases hexec
    split
    · next hactive =>
      obtain ⟨hclosed, hleave⟩ := hok hactive
      have hk1 := hk.processRefusedData hclosed
      unfold Hand.tcpReset
      dsimp only
      split
      · exact hk1
      · next hgoes =>
        split
        · next hin =>
          have hnone : (h.processRefusedData replies).refused = none := by
            refine hleave ?_ hin
            by_contra hnot
            obtain ⟨hsome, hpos⟩ := not_or.mp hnot
            refine hgoes ?_
            rw [Bool.and_eq_true, decide_eq_true_eq]
            exact ⟨Option.isSome_iff_ne_none.mpr hsome, Nat.pos_of_ne_zero hpos⟩
          exact ⟨hk1.handed.congr hnone.symm rfl rfl rfl, nofun, fun _ => .inr rfl⟩
        · exact hk1
    · exact hk
  | fasttmr env replies =>
    cases hexec
    split
    · next hactive =>
      refine Hand.Kept.processRefusedData (hk.congr fun hdeaf => ?_) (hok hactive)
      split
      · show Deaf (h.pcb.tcpAckNow.tcpSendEmptyAck env).state
        rw [Rcv.tcpSendEmptyAck_alike.state]
        exact hdeaf
      · exact hdeaf
    · exact hk
  | recved len =>
    unfold Hand.exec at hexec
    dsimp only at hexec
    split at hexec
    · cases hexec
    · next pcb hrec =>
      cases hexec
      refine hk.congr fun hdeaf => ?_
      rw [(Rcv.tcpRecved_spec hrec).1]
      exact hdeaf
  | output =>
    cases hexec
    exact hk.congr id
  | shutdownTx =>
    cases hexec
    exact hk.congr fun hdeaf => deaf_closed hdeaf rfl

/-- Every chunk has been taken in order and once, except for one that may wait. The end of the stream
is offered after all of them and taken once, the next tick of an application that takes everything
leaves nothing behind, and the assertion holds. -/
structure Hand.Surviving (ok : Hand α → HandEvent α → Prop) (h : Hand α) : Prop where
  chunks : h.chunks = accepted h.calls ++ (h.refused.map Prod.fst).toList
  afterData : ∀ front taken back, h.calls = front ++ .closed taken :: back →
    accepted front = h.chunks
  once : endings h.calls ≤ 1
  offered : ∀ env, ∃ h', h.exec (.fasttmr env {}) = .ok h' ∧ h'.refused = none ∧
    accepted h'.calls = h.chunks ∧ (h.gotFin = true → endings h'.calls = 1)
  asserted : ∀ e, ok h e → h.exec e ≠ .error .refusedData

theorem Hand.takeData_error {data : List α} {f : InputFault}
    (htake : h.takeData replies data = .error f) : data ≠ [] ∧ h.refused.isSome := by
  unfold Hand.takeData at htake
  split at htake
  · cases htake
  · next hdata =>
    split at htake
    · next hsome => exact ⟨hdata, hsome⟩
    · cases htake

theorem Hand.exec_asserted : h.exec e ≠ .error .refusedData := by
  intro hexec
  cases e with
  | segment a env replies =>
    unfold Hand.exec Hand.tcpInput at hexec
    dsimp only at hexec
    split at hexec
    · split at hexec
      · cases hexec
      · next hgoes =>
        split at hexec
        · cases hexec
        · next pcb r hproc =>
          have hempty : (h.processRefusedData replies).refused.isSome → r = {} := by
            intro hsome
            refine tcpProcess_empty ?_ hproc
            by_contra hpos
            refine hgoes ?_
            rw [Bool.and_eq_true, decide_eq_true_eq]
            exact ⟨hsome, Nat.pos_of_ne_zero hpos⟩
          unfold Hand.deliver at hexec
          split at hexec
          · cases hexec
          · cases htake : ({ h.processRefusedData replies with pcb := pcb }.leaveActive).takeData
                replies r.recvData with
            | error f => cases (Hand.takeData_error htake).2
            | ok h1 =>
              rw [htake] at hexec
              cases hexec
          · cases htake : ({ h.processRefusedData replies with pcb := pcb } : Hand α).takeData
                replies r.recvData with
            | error f =>
              obtain ⟨hdata, hsome⟩ := Hand.takeData_error htake
              rw [hempty hsome] at hdata
              exact hdata rfl
            | ok h1 =>
              rw [htake] at hexec
              cases hexec
    · cases hexec
  | recved len =>
    unfold Hand.exec at hexec
    dsimp only at hexec
    split at hexec <;> cases hexec
  | _ => cases hexec

/-- Where nothing waits, all chunks have been taken. -/
theorem Hand.Kept.finished (hk : h.Kept) (hnone : h.refused = none) :
    accepted h.calls = h.chunks ∧ (h.gotFin = true → endings h.calls = 1) := by
  obtain ⟨cs, hcs, hchunks, hcalls⟩ := hk.handed
  rw [hnone] at hchunks hcalls
  have hall : h.chunks = accepted cs := hchunks.trans (List.append_nil _)
  rcases hcalls with ⟨hcalls, -, hwaits⟩ | ⟨hcalls, -, -⟩
  · refine ⟨by rw [hcalls, hall], fun htrue => ?_⟩
    cases hwaits htrue
  · rw [hcalls, accepted_append, endings_append, hcs.endings, hall]
    exact ⟨List.append_nil _, fun _ => rfl⟩

theorem Hand.Kept.surviving (hk : h.Kept) (ok : Hand α → HandEvent α → Prop) :
    h.Surviving ok := by
  obtain ⟨cs, hcs, hchunks, hcalls⟩ := hk.handed
  refine ⟨?_, fun front taken back heq => ?_, ?_, fun env => ?_, fun e _ => Hand.exec_asserted⟩
  · rcases hcalls with ⟨hcalls, -⟩ | ⟨hcalls, hnone, -⟩
    · rw [hcalls, hchunks]
    · rw [hcalls, hchunks, accepted_append, hnone]
      exact (congrArg (· ++ []) (List.append_nil (accepted cs))).symm
  · rcases hcalls with ⟨hcalls, -⟩ | ⟨hcalls, hnone, -⟩
    · have hmem : Call.closed taken ∈ cs := by
        rw [← hcalls, heq]
        exact List.mem_append_right _ List.mem_cons_self
      obtain ⟨p, ok, hc⟩ := hcs _ hmem
      cases hc
    · rw [(hcs.front (hcalls.symm.trans heq)).1, hchunks, hnone]
      exact (List.append_nil _).symm
  · rcases hcalls with ⟨hcalls, -⟩ | ⟨hcalls, -, -⟩
    · rw [hcalls, hcs.endings]
      exact Nat.zero_le 1
    · rw [hcalls, endings_append, hcs.endings]
      exact le_rfl
  · by_cases hactive : h.active = true
    · have hexec : h.exec (.fasttmr env {}) = .ok (h.tcpFasttmr env {}) := by
        show Except.ok _ = _
        rw [if_pos hactive]
      have hdone : (h.tcpFasttmr env {}).Kept :=
        hk.exec (e := .fasttmr env {}) (fun _ => rfl) hexec
      have hspec := Hand.processRefusedData_spec {} { h with
        pcb := if h.pcb.ackDelay then
          { h.pcb.tcpAckNow.tcpSendEmptyAck env with ackDelay := false, ackNow := false }
          else h.pcb }
      obtain ⟨hsame, hfin, -, -, hrefused⟩ := hspec
      have hnone : (h.tcpFasttmr env {}).refused = none := by
        rcases hrefused with hnone | ⟨hfalse, -⟩
        · exact hnone
        · cases hfalse
      obtain ⟨hall, hends⟩ := hdone.finished hnone
      exact ⟨_, hexec, hnone, hall.trans hsame, fun htrue => hends (hfin.trans htrue)⟩
    · have hexec : h.exec (.fasttmr env {}) = .ok h := by
        show Except.ok _ = _
        rw [if_neg hactive]
      have hnone : h.refused = none := by
        by_contra hsome
        exact hactive (hk.listed (Option.isSome_iff_ne_none.mpr hsome))
      exact ⟨h, hexec, hnone, hk.finished hnone⟩

theorem Hand.Fresh.kept (hfresh : h.Fresh) : h.Kept := by
  obtain ⟨-, hrefused, -, hchunks, hfin, hcalls⟩ := hfresh
  refine ⟨⟨[], nofun, ?_, .inl ⟨hcalls, ?_, fun htrue => ?_⟩⟩, fun hsome => ?_, fun htrue => ?_⟩
  · rw [hchunks, hrefused]
    rfl
  · rw [hrefused]
    exact nofun
  · rw [hfin] at htrue
    cases htrue
  · rw [hrefused] at hsome
    cases hsome
  · rw [hfin] at htrue
    cases htrue

/-- The hand-over survives refusals in every run in which nothing waits when the pcb is taken off
`tcp_active_pcbs` and the end of the stream is not refused. -/
theorem handOver_survives (hrun : (handing α).Run Lossless es h) : h.Surviving Lossless := by
  have hkept : h.Kept := by
    refine hrun.invariant (I := fun _ h => h.Kept) (fun h hfresh => Hand.Fresh.kept hfresh)
      fun es h e h' _ hk hok hstep => ?_
    exact hk.exec hok hstep
  exact hkept.surviving Lossless

/-! ### Runs from an open connection -/

/-- A connection that has handed nothing over, at its start. -/
def openHand : Hand ℕ where
  pcb := (openSession 7).pcb

theorem openHand_fresh : openHand.Fresh := ⟨.inr rfl, rfl, rfl, rfl, rfl, rfl⟩

/-- The segment with the byte at `pos`. -/
def byteAt (pos : ℕ) : Arrival ℕ where
  seqno := 7 + pos
  data := [pos]
  data_length := (by decide : 1 ≤ 65495)

/-- The FIN at `pos`. -/
def finAt (pos : ℕ) : Arrival ℕ where
  seqno := 7 + pos
  data := []
  fin := true
  data_length := by decide

/-- The callback has refused the first byte. -/
def refusedHand : Hand ℕ where
  pcb :=
    { (openSession 7).pcb with
      rcvNxt := 8
      rcvWnd := 4095
      rcvAnnWnd := 4095
      ackDelay := true }
  refused := some ([0], false)
  chunks := [[0]]
  calls := [.recv [0] false]

theorem exec_refused :
    openHand.exec (.segment (byteAt 0) {} { data := false }) = .ok refusedHand := rfl

/-- The fast timer has handed it over. -/
def offeredHand : Hand ℕ :=
  { refusedHand with
    pcb :=
      { refusedHand.pcb with
        ackDelay := false
        rcvAnnRightEdge := 8 + 4095 }
    refused := none
    calls := [.recv [0] false, .recv [0] true] }

theorem exec_offered : refusedHand.exec (.fasttmr {} {}) = .ok offeredHand := rfl

theorem handOver_survives_offered :
    ∃ es h, (handing ℕ).Run Lossless es h ∧ es.length = 3 ∧
      h.calls = [.recv [0] false, .recv [0] true, .closed true] ∧ h.Surviving Lossless := by
  have hfirst : Lossless openHand (.segment (byteAt 0) {} { data := false }) := by
    refine fun _ => ⟨rfl, fun _ pcb r hproc hstate => ?_⟩
    cases hproc
    rcases hstate with hstate | hstate <;> cases hstate
  have hlast : Lossless offeredHand (.segment (finAt 1) {} {}) := by
    refine fun _ => ⟨rfl, fun _ pcb r hproc hstate => ?_⟩
    cases hproc
    rcases hstate with hstate | hstate <;> cases hstate
  obtain ⟨h, hh, hcalls⟩ :
      ∃ h, offeredHand.exec (.segment (finAt 1) {} {}) = .ok h ∧
        h.calls = [.recv [0] false, .recv [0] true, .closed true] :=
    ⟨_, rfl, rfl⟩
  have hrun : (handing ℕ).Run Lossless
      ([] ++ [HandEvent.segment (byteAt 0) {} { data := false }] ++ [HandEvent.fasttmr {} {}] ++
        [HandEvent.segment (finAt 1) {} {}]) h :=
    .snoc (.snoc (.snoc (.start openHand_fresh) hfirst exec_refused) (fun _ => rfl) exec_offered)
      hlast hh
  exact ⟨_, h, hrun, rfl, hcalls, handOver_survives hrun⟩

/-- The end of the stream that the callback refuses is not offered again. -/
theorem handOver_fails :
    ¬∀ (es : List (HandEvent ℕ)) (h : Hand ℕ),
      (handing ℕ).Run (fun _ _ => True) es h → h.Surviving fun _ _ => True := by
  intro hall
  obtain ⟨h, hh, hend, hquiet⟩ :
      ∃ h, openHand.exec (.segment (finAt 0) {} { closed := false }) = .ok h ∧ h.gotFin = true ∧
        ∀ h', h.exec (.fasttmr {} {}) = .ok h' → endings h'.calls = 0 := by
    refine ⟨_, rfl, rfl, fun h' hexec => ?_⟩
    cases hexec
    rfl
  have hrun : (handing ℕ).Run (fun _ _ => True)
      ([] ++ [HandEvent.segment (finAt 0) {} { closed := false }]) h :=
    .snoc (.start openHand_fresh) trivial hh
  obtain ⟨h', hexec, -, -, honce⟩ := (hall _ _ hrun).offered {}
  rw [hquiet h' hexec] at honce
  cases honce hend

end QuietLwip.Stream
