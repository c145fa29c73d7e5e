import QuietLwip.Foundation.Transition
import QuietLwip.Netconn.Conn

/-!
# Blocking writes

A message to write is carried out over any number of turns of `do_writemore`, begun by `do_write`,
`sent_tcp` and `poll_tcp`. How far it has come stands in `write_offset`.
-/

namespace QuietLwip.Netconn

open Word Sockets Transition

variable {α μ τ : Type*}

/-! ### One turn -/

/-- `tcp_write` has refused for good. -/
def Turn.Refused (turn : Turn) : Prop := turn.writeErr ≠ errOk ∧ turn.writeErr ≠ errMem

namespace Conn

variable {conn conn' : Conn α μ τ} {eff : Effects α μ τ} {turn : Turn} {id : τ} {data : List α}
  {dontblock : Bool} {timeStarted : ℕ}

/-- The fields that no turn changes. -/
structure Same (conn' conn : Conn α μ τ) : Prop where
  type : conn'.type = conn.type
  pcb : conn'.pcb = conn.pcb
  lastErr : conn'.lastErr = conn.lastErr
  sendTimeout : conn'.sendTimeout = conn.sendTimeout
  nonBlocking : conn'.nonBlocking = conn.nonBlocking
  inNonblockingConnect : conn'.inNonblockingConnect = conn.inNonblockingConnect

theorem Same.refl (conn : Conn α μ τ) : conn.Same conn := ⟨rfl, rfl, rfl, rfl, rfl, rfl⟩

theorem markSpace_spec (len total : ℕ) :
    (conn.markSpace turn dontblock len total).1.Same conn ∧
      (conn.markSpace turn dontblock len total).1.state = conn.state ∧
      (conn.markSpace turn dontblock len total).1.currentMsg = conn.currentMsg ∧
      (conn.markSpace turn dontblock len total).1.writeOffset = conn.writeOffset := by
  rw [markSpace]
  split
  · exact ⟨⟨rfl, rfl, rfl, rfl, rfl, rfl⟩, rfl, rfl, rfl⟩
  · split <;> exact ⟨⟨rfl, rfl, rfl, rfl, rfl, rfl⟩, rfl, rfl, rfl⟩

/-- The message is answered in the turn. -/
structure Ends (turn : Turn) (id : τ) (data : List α) (dontblock : Bool) (timeStarted : ℕ)
    (conn conn' : Conn α μ τ) (eff : Effects α μ τ) (a : Answer τ) : Prop where
  answers : eff.answers = [a]
  id : a.id = id
  state : conn'.state = .none
  currentMsg : conn'.currentMsg = none
  len : a.err = errOk → a.len = conn.writeOffset + eff.written.length
  full : a.err = errOk → dontblock = false → conn.sendTimeout = 0 → a.len = data.length
  writeOffset : conn'.writeOffset = 0 ∨ conn'.writeOffset = conn.writeOffset ∧
    (dontblock = true ∨ conn.Expired turn timeStarted ∨ turn.Refused)

/-- The message goes on after the turn. -/
structure GoesOn (data : List α) (dontblock : Bool) (conn conn' : Conn α μ τ)
    (eff : Effects α μ τ) : Prop where
  answers : eff.answers = []
  state : conn'.state = conn.state
  currentMsg : conn'.currentMsg = conn.currentMsg
  dontblock : dontblock = false
  writeOffset : conn'.writeOffset = conn.writeOffset + eff.written.length
  rest : conn'.writeOffset < data.length

theorem chunk_le : conn.chunk turn data.length ≤ data.length - conn.writeOffset :=
  (min_le_left _ _).trans (min_le_left _ _)

theorem length_chunk : ((data.drop conn.writeOffset).take (conn.chunk turn data.length)).length =
    conn.chunk turn data.length := by
  rw [List.length_take, List.length_drop]
  exact min_eq_left chunk_le

theorem take_length_take (xs : List α) (n : ℕ) : xs.take n = xs.take (xs.take n).length := by
  rw [List.length_take, List.take_eq_take_iff]
  omega

/-- A turn of `do_writemore`: what it gives to `tcp_write` begins where the last turn has ended. -/
theorem writeTurn_spec (hlt : conn.writeOffset < data.length)
    (h : conn.writeTurn turn id data dontblock timeStarted = (conn', eff)) :
    conn'.Same conn ∧ eff.written = (data.drop conn.writeOffset).take eff.written.length ∧
      ((∃ a, conn.Ends turn id data dontblock timeStarted conn' eff a) ∨
        conn.GoesOn data dontblock conn' eff) := by
  have hmark : ∀ len, (conn.markSpace turn dontblock len data.length).1.Same conn ∧
      (conn.markSpace turn dontblock len data.length).1.state = conn.state ∧
      (conn.markSpace turn dontblock len data.length).1.currentMsg = conn.currentMsg ∧
      (conn.markSpace turn dontblock len data.length).1.writeOffset = conn.writeOffset :=
    fun len => markSpace_spec len _
  unfold writeTurn at h
  split at h
  · next hexpired =>
    split at h
    · next hzero =>
      cases h
      exact ⟨⟨rfl, rfl, rfl, rfl, rfl, rfl⟩, (List.take_zero ..).symm, .inl ⟨_, rfl, rfl, rfl, rfl, nofun,
        nofun, .inl hzero⟩⟩
    · cases h
      exact ⟨⟨rfl, rfl, rfl, rfl, rfl, rfl⟩, (List.take_zero ..).symm, .inl ⟨_, rfl, rfl, rfl, rfl,
        fun _ => rfl, fun _ _ hnone => absurd hnone hexpired.1, .inr ⟨rfl, .inr (.inl hexpired)⟩⟩⟩
  split at h
  · next hroom =>
    obtain ⟨⟨htype, hpcb, herr, htimeout, hblock, hconnect⟩, -, -, hoffset⟩ := hmark 0
    cases h
    exact ⟨⟨htype, hpcb, herr, htimeout, hblock, hconnect⟩, (List.take_zero ..).symm, .inl ⟨_, rfl, rfl, rfl,
      rfl, nofun, nofun, .inr ⟨hoffset, .inl hroom.2.1⟩⟩⟩
  obtain ⟨⟨htype, hpcb, herr, htimeout, hblock, hconnect⟩, hstate, hmsg, hoffset⟩ :=
    hmark (conn.chunk turn data.length)
  split at h
  · dsimp only at h
    have hle : conn.chunk turn data.length ≤ data.length - conn.writeOffset := chunk_le
    split at h
    · next hlast =>
      cases h
      refine ⟨⟨htype, hpcb, herr, htimeout, hblock, hconnect⟩, take_length_take _ _, .inl ⟨_, rfl, rfl, rfl,
        rfl, fun _ => ?_, fun _ hfalse _ => ?_, .inl rfl⟩⟩
      · exact congrArg _ length_chunk.symm
      · exact hlast.resolve_right (by simp [hfalse])
    · next hlast =>
      obtain ⟨hne, hfalse⟩ := not_or.mp hlast
      cases h
      refine ⟨⟨htype, hpcb, herr, htimeout, hblock, hconnect⟩, take_length_take _ _, .inr ⟨rfl, hstate, hmsg,
        Bool.eq_false_iff.mpr hfalse, congrArg _ length_chunk.symm, ?_⟩⟩
      change conn.writeOffset + conn.chunk turn data.length < data.length
      omega
  next hwrite =>
  split at h
  · dsimp only at h
    split at h
    · next hdont =>
      cases h
      exact ⟨⟨htype, hpcb, herr, htimeout, hblock, hconnect⟩, (List.take_zero ..).symm, .inl ⟨_, rfl, rfl, rfl,
        rfl, nofun, nofun, .inr ⟨hoffset, .inl hdont⟩⟩⟩
    · next hdont =>
      cases h
      exact ⟨⟨htype, hpcb, herr, htimeout, hblock, hconnect⟩, (List.take_zero ..).symm, .inr ⟨rfl, hstate, hmsg,
        Bool.eq_false_iff.mpr hdont, hoffset, hoffset.trans_lt hlt⟩⟩
  · next hmem =>
    cases h
    exact ⟨⟨rfl, rfl, rfl, rfl, rfl, rfl⟩, (List.take_zero ..).symm, .inl ⟨_, rfl, rfl, rfl, rfl,
      fun hok => absurd hok hwrite, fun hok => absurd hok hwrite,
      .inr ⟨rfl, .inr (.inr ⟨hwrite, hmem⟩)⟩⟩⟩

theorem doWritemore_eq {b : Bool} (hstate : conn.state = .write) (hpcb : conn.pcb ≠ none)
    (hmsg : conn.currentMsg = some ⟨id, .write data b timeStarted⟩)
    (hlt : conn.writeOffset < data.length) :
    conn.doWritemore turn =
      .ok (conn.writeTurn turn id data (conn.nonBlocking || b) timeStarted) := by
  rw [doWritemore]
  simp only [hmsg, hstate, hpcb, hlt, ne_eq, not_true_eq_false, if_false]

/-- `do_write` refuses the message, or begins with it. -/
theorem doWrite_cases {b : Bool} (htype : conn.type = .tcp) (hdata : data ≠ [])
    (hidle : conn.state = .none → conn.currentMsg = none ∧ conn.writeOffset = 0) :
    (∃ err ≠ errOk, conn.doWrite turn id data b timeStarted =
      .ok (conn, { answers := [⟨id, err, data.length⟩] })) ∨
    (conn.state = .none ∧ conn.pcb ≠ none ∧ conn.doWrite turn id data b timeStarted =
      .ok (writeTurn turn id data (conn.nonBlocking || b) timeStarted { conn with
        state := .write
        currentMsg := some ⟨id, .write data b timeStarted⟩
        writeOffset := 0 })) := by
  have hlen : 0 < data.length := List.length_pos_iff.mpr hdata
  rw [doWrite]
  by_cases hfatal : ErrIsFatal conn.lastErr
  · refine .inl ⟨_, fun herr => ?_, if_pos hfatal⟩
    rw [herr] at hfatal
    exact absurd hfatal (by decide)
  rw [if_neg hfatal, if_neg (not_not.mpr htype)]
  by_cases hstate : conn.state = .none
  · obtain ⟨hmsg, hzero⟩ := hidle hstate
    rw [if_neg (not_not.mpr hstate)]
    by_cases hpcb : conn.pcb = none
    · exact .inl ⟨_, by decide, if_pos hpcb⟩
    · refine .inr ⟨hstate, hpcb, ?_⟩
      rw [if_neg hpcb, if_neg (by simp [hmsg, hzero]), if_neg hdata]
      exact doWritemore_eq rfl hpcb rfl hlen
  · exact .inl ⟨_, by decide, if_pos hstate⟩

/-- The netconn that `sent_tcp` and `poll_tcp` leave is the one that `carryOn` leaves but for the
mark of `select`. -/
structure Marked (conn' conn : Conn α μ τ) (eff' eff : Effects α μ τ) : Prop where
  same : conn'.Same conn
  state : conn'.state = conn.state
  currentMsg : conn'.currentMsg = conn.currentMsg
  writeOffset : conn'.writeOffset = conn.writeOffset
  written : eff'.written = eff.written
  answers : eff'.answers = eff.answers

theorem Marked.refl : conn.Marked conn eff eff := ⟨.refl conn, rfl, rfl, rfl, rfl, rfl⟩

theorem sentTcp_spec (h : conn.carryOn turn = .ok (conn', eff)) :
    ∃ conn₁ eff₁, conn.sentTcp turn = .ok (conn₁, eff₁) ∧ conn₁.Marked conn' eff₁ eff := by
  rw [sentTcp]
  rw [h]
  by_cases hspace : conn'.Writable turn
  · refine ⟨_, _, congrArg Except.ok (if_pos hspace), ?_⟩
    exact ⟨⟨rfl, rfl, rfl, rfl, rfl, rfl⟩, rfl, rfl, rfl, rfl, rfl⟩
  · exact ⟨_, _, congrArg Except.ok (if_neg hspace), .refl⟩

theorem pollTcp_spec (h : conn.carryOn turn = .ok (conn', eff)) :
    ∃ conn₁ eff₁, conn.pollTcp turn = .ok (conn₁, eff₁) ∧ conn₁.Marked conn' eff₁ eff := by
  rw [pollTcp]
  rw [h]
  by_cases hspace : conn'.checkWritespace = true ∧ conn'.Writable turn
  · refine ⟨_, _, congrArg Except.ok (if_pos hspace), ?_⟩
    exact ⟨⟨rfl, rfl, rfl, rfl, rfl, rfl⟩, rfl, rfl, rfl, rfl, rfl⟩
  · exact ⟨_, _, congrArg Except.ok (if_neg hspace), .refl⟩

/-- What `err_tcp` leaves. -/
structure Reset (conn' conn : Conn α μ τ) : Prop where
  type : conn'.type = conn.type
  inNonblockingConnect : conn'.inNonblockingConnect = conn.inNonblockingConnect
  state : conn'.state = .none
  currentMsg : conn'.currentMsg = none
  writeOffset : conn'.writeOffset = conn.writeOffset

theorem errTcp_idle {err : ℤ} {room room' : Bool} (hstate : conn.state = .none)
    (hmsg : conn.currentMsg = none) : ∃ conn' eff, conn.errTcp err room room' = .ok (conn', eff) ∧
      conn'.Reset conn ∧ eff.answers = [] := by
  rw [errTcp]
  dsimp only
  rw [if_neg (by rw [hstate]; simp), if_neg (by rw [hmsg]; exact not_not.mpr rfl)]
  exact ⟨_, _, rfl, ⟨rfl, rfl, rfl, hmsg, rfl⟩, rfl⟩

theorem errTcp_write {err : ℤ} {room room' : Bool} {msg : Msg α τ} (hstate : conn.state = .write)
    (hconnect : conn.inNonblockingConnect = false) (hmsg : conn.currentMsg = some msg) :
    ∃ conn' eff, conn.errTcp err room room' = .ok (conn', eff) ∧ conn'.Reset conn ∧
      eff.written = [] ∧ eff.answers = [⟨msg.id, err, msg.len⟩] := by
  rw [errTcp]
  dsimp only
  rw [if_pos (.inl hstate), if_neg (by rw [hconnect]; exact nofun), hmsg]
  exact ⟨_, _, rfl, ⟨rfl, rfl, rfl, rfl, rfl⟩, rfl, rfl⟩

/-- No exit of the turn leaves `write_offset` behind. -/
def KeepsOffset (turn : Turn) (conn : Conn α μ τ) : Prop :=
  ∀ id data dontblock timeStarted,
    conn.currentMsg = some ⟨id, .write data dontblock timeStarted⟩ →
      conn.Expired turn timeStarted ∨ turn.Refused → conn.writeOffset = 0

end Conn

/-! ### Runs -/

/-- A call of `netconn_write_partly` that has posted its message, and what `tcp_write` has taken of
its data. `dontblock` and `timed` are what the call itself has found. -/
structure Job (α : Type*) where
  id : ℕ
  data : List α
  dontblock : Bool := false
  timed : Bool := false
  taken : List α := []
  deriving DecidableEq, Repr

/-- `*bytes_written` for `ERR_OK`. -/
def Job.bytesWritten (a : Answer ℕ) (job : Job α) : ℕ :=
  if job.dontblock || job.timed then a.len else job.data.length

/-- A netconn with the message that is being carried out, and what has been answered so far. -/
structure Writer (α μ : Type*) where
  conn : Conn α μ ℕ
  issued : ℕ := 0
  job : Option (Job α) := none
  done : List (Job α × Answer ℕ) := []
  signalled : List ℕ := []
  deriving DecidableEq

inductive WriteEvent (α : Type*) where
  | write (data : List α) (dontblock counted : Bool) (now : ℕ) (turn : Turn)
  | configure (nonBlocking : Bool) (sendTimeout : ℤ)
  | sent (turn : Turn)
  | poll (turn : Turn)
  | err (err : ℤ) (room room' : Bool)
  | safeErr (err : ℤ)

/-- `netconn_write_partly` posts a message. -/
def Conn.Posts (data : List α) (dontblock counted : Bool) (conn : Conn α μ τ) : Prop :=
  conn.type = .tcp ∧ data ≠ [] ∧ ((conn.nonBlocking || dontblock) = true → counted = true)

instance (data : List α) (dontblock counted : Bool) (conn : Conn α μ τ) :
    Decidable (conn.Posts data dontblock counted) := inferInstanceAs (Decidable (_ ∧ _))

namespace Writer

variable {conn conn' : Conn α μ ℕ} {eff : Effects α μ ℕ} {w : Writer α μ} {job : Job α}

/-- The effects of a step belong to `job`. -/
def book (job : Job α) (conn : Conn α μ ℕ) (eff : Effects α μ ℕ) (w : Writer α μ) : Writer α μ :=
  let job := { job with taken := job.taken ++ eff.written }
  { w with
    conn := conn
    job := if eff.answers = [] then some job else w.job
    done := w.done ++ eff.answers.map (job, ·)
    signalled := w.signalled ++ eff.answers.map Answer.id }

/-- A callback carries on the message that is being carried out. -/
def callback (called : Except Fault (Conn α μ ℕ × Effects α μ ℕ)) (w : Writer α μ) :
    Except Fault (Writer α μ) :=
  called.map fun (conn, eff) =>
    match w.job with
    | some job => { w with job := none }.book job conn eff
    | none => { w with conn := conn, signalled := w.signalled ++ eff.answers.map Answer.id }

/-- The message that `netconn_write_partly` posts, carried out as far as it goes at once. -/
def post (data : List α) (dontblock : Bool) (now : ℕ) (turn : Turn) (w : Writer α μ) :
    Except Fault (Writer α μ) :=
  let timed := decide (w.conn.sendTimeout ≠ 0)
  let timeStarted := if timed then now else 0
  (w.conn.doWrite turn w.issued data dontblock timeStarted).map fun (conn, eff) =>
    { w with issued := w.issued + 1 }.book
      { id := w.issued, data := data, dontblock := w.conn.nonBlocking || dontblock, timed := timed }
      conn eff

/-- The callbacks belong to the pcb, and the options are not changed while a message is being carried
out. The errors that the stack reports are fatal. -/
def Enabled (w : Writer α μ) : WriteEvent α → Prop
  | .write .. => True
  | .configure .. => w.job = none
  | .sent _ => w.conn.pcb ≠ none
  | .poll _ => w.conn.pcb ≠ none
  | .err err _ _ => w.conn.pcb ≠ none ∧ ErrIsFatal err
  | .safeErr _ => True

def after (w : Writer α μ) : WriteEvent α → Except Fault (Writer α μ)
  | .write data dontblock counted now turn =>
    if w.conn.Posts data dontblock counted then w.post data dontblock now turn else .ok w
  | .configure nonBlocking sendTimeout =>
    .ok { w with conn := { w.conn with nonBlocking := nonBlocking, sendTimeout := sendTimeout } }
  | .sent turn => w.callback (w.conn.sentTcp turn)
  | .poll turn => w.callback (w.conn.pollTcp turn)
  | .err err room room' => w.callback (w.conn.errTcp err room room')
  | .safeErr err => .ok { w with conn := w.conn.setSafeErr err }

end Writer

/-- A TCP netconn on which nothing but writing happens. An assertion that fails ends the run. -/
def writing : System (Except Fault (Writer α μ)) (WriteEvent α) where
  start s := ∃ conn, s = .ok { conn := conn } ∧ conn.type = .tcp ∧ conn.state = .none ∧
    conn.currentMsg = none ∧ conn.writeOffset = 0 ∧ conn.inNonblockingConnect = false
  step s e s' := ∃ w, s = .ok w ∧ w.Enabled e ∧ s' = w.after e

theorem writing_step {w : Writer α μ} {s : Except Fault (Writer α μ)} (e : WriteEvent α)
    (hen : w.Enabled e) (h : w.after e = s) : writing.step (.ok w) e s := ⟨w, rfl, hen, h.symm⟩

/-- What `tcp_write` has taken of a message that has been answered. -/
structure Settled (d : Job α × Answer ℕ) : Prop where
  front : d.1.taken <+: d.1.data
  exact : d.2.err = errOk → d.1.taken.length = d.1.bytesWritten d.2
  full : d.2.err = errOk → d.1.dontblock = false → d.1.timed = false → d.1.taken = d.1.data
  own : d.2.id = d.1.id

/-- The bookkeeping of the writes. -/
structure Writer.Booked (w : Writer α μ) : Prop where
  front : ∀ job, w.job = some job → job.taken <+: job.data
  settled : ∀ d ∈ w.done, Settled d
  signalled : w.signalled = w.done.map fun d => d.1.id
  once : (w.signalled ++ w.job.toList.map Job.id).Perm (List.range w.issued)
  rest : w.conn.state = .none → w.conn.currentMsg = none → w.conn.writeOffset = 0

/-- No message ends half way: by the send timeout, by an error of `tcp_write` or by an error of the
connection. -/
def Resets (s : Except Fault (Writer α μ)) (e : WriteEvent α) : Prop :=
  ∀ w, s = .ok w → match e with
    | .sent turn => w.conn.KeepsOffset turn
    | .poll turn => w.conn.KeepsOffset turn
    | .err .. => w.conn.writeOffset = 0
    | _ => True

/-! ### The invariant -/

/-- The netconn is in the middle of the message of `job`. -/
structure Conn.Carries (dontblock : Bool) (timeStarted : ℕ) (job : Job α) (conn : Conn α μ ℕ) :
    Prop where
  type : conn.type = .tcp
  inNonblockingConnect : conn.inNonblockingConnect = false
  state : conn.state = .write
  pcb : conn.pcb ≠ none
  currentMsg : conn.currentMsg = some ⟨job.id, .write job.data dontblock timeStarted⟩
  dontblock : job.dontblock = (conn.nonBlocking || dontblock)
  timed : job.timed = decide (conn.sendTimeout ≠ 0)
  taken : job.taken = job.data.take conn.writeOffset
  rest : conn.writeOffset < job.data.length

namespace Writer

variable {conn conn' : Conn α μ ℕ} {eff : Effects α μ ℕ} {w w' : Writer α μ} {job : Job α}
  {a : Answer ℕ} {ids : List ℕ}

/-- The messages `ids` have not been answered, all others have. -/
structure Ledger (ids : List ℕ) (w : Writer α μ) : Prop where
  settled : ∀ d ∈ w.done, Settled d
  signalled : w.signalled = w.done.map fun d => d.1.id
  once : (w.signalled ++ ids).Perm (List.range w.issued)

theorem Ledger.goesOn (h : w.Ledger ids) (ha : eff.answers = []) :
    (w.book job conn eff).Ledger ids := by
  obtain ⟨hsettled, hsignalled, honce⟩ := h
  unfold book
  rw [ha]
  dsimp only
  rw [List.map_nil, List.map_nil, List.append_nil, List.append_nil]
  exact ⟨hsettled, hsignalled, honce⟩

theorem Ledger.answered (h : w.Ledger (job.id :: ids)) (ha : eff.answers = [a])
    (hs : Settled ({ job with taken := job.taken ++ eff.written }, a)) :
    (w.book job conn eff).Ledger ids := by
  have hown : a.id = job.id := hs.own
  rw [book]
  rw [ha]
  refine ⟨fun d hd => ?_, ?_, ?_⟩
  · rcases List.mem_append.mp hd with hd | hd
    · exact h.settled d hd
    · rw [List.map_singleton, List.mem_singleton] at hd
      exact hd ▸ hs
  · change w.signalled ++ [a.id] = _
    rw [h.signalled, List.map_append, hown]
    rfl
  · change ((w.signalled ++ [a.id]) ++ ids).Perm _
    rw [List.append_assoc, hown]
    exact h.once

theorem Ledger.issue (h : w.Ledger ids) :
    ({ w with issued := w.issued + 1 } : Writer α μ).Ledger (w.issued :: ids) := by
  refine ⟨h.settled, h.signalled, ?_⟩
  rw [List.range_succ]
  have hswap : (w.signalled ++ w.issued :: ids).Perm (w.issued :: (w.signalled ++ ids)) :=
    List.perm_middle
  exact (hswap.trans (h.once.cons _)).trans (List.perm_append_singleton _ _).symm

/-- The netconn carries the message that is being carried out, and is free otherwise. -/
structure Held (w : Writer α μ) : Prop where
  type : w.conn.type = .tcp
  inNonblockingConnect : w.conn.inNonblockingConnect = false
  idle : w.job = none →
    w.conn.state = .none ∧ w.conn.currentMsg = none ∧ w.conn.writeOffset = 0
  busy : ∀ job, w.job = some job → job.dontblock = false ∧ ∃ b t, w.conn.Carries b t job
  ledger : w.Ledger (w.job.toList.map Job.id)

theorem Held.job_none (h : w.Held) (hstate : w.conn.state = .none) : w.job = none := by
  cases hjob : w.job with
  | none => rfl
  | some job =>
    obtain ⟨-, b, t, hc⟩ := h.busy job hjob
    exact absurd (hstate.symm.trans hc.state) nofun

theorem Held.ledger_none (h : w.Held) (hjob : w.job = none) : w.Ledger [] := by
  have hl := h.ledger
  rw [hjob] at hl
  exact hl

theorem Held.ledger_some (h : w.Held) (hjob : w.job = some job) : w.Ledger [job.id] := by
  have hl := h.ledger
  rw [hjob] at hl
  exact hl

theorem callback_none {called : Except Fault (Conn α μ ℕ × Effects α μ ℕ)} (hjob : w.job = none)
    (hc : called = .ok (conn, eff)) : w.callback called =
      .ok { w with conn := conn, signalled := w.signalled ++ eff.answers.map Answer.id } := by
  rw [callback]
  rw [hc, hjob]
  rfl

theorem callback_some {called : Except Fault (Conn α μ ℕ × Effects α μ ℕ)}
    (hjob : w.job = some job) (hc : called = .ok (conn, eff)) :
    w.callback called = .ok ({ w with job := none }.book job conn eff) := by
  rw [callback]
  rw [hc, hjob]
  rfl

/-- A callback that answers nothing, while there is nothing to answer. -/
theorem Held.callback_idle {called : Except Fault (Conn α μ ℕ × Effects α μ ℕ)} (h : w.Held)
    (hjob : w.job = none) (hc : called = .ok (conn, eff)) (ha : eff.answers = [])
    (htype : conn.type = .tcp) (hconnect : conn.inNonblockingConnect = false)
    (hidle : conn.state = .none ∧ conn.currentMsg = none ∧ conn.writeOffset = 0) :
    ∃ w', w.callback called = .ok w' ∧ w'.Held := by
  refine ⟨_, callback_none hjob hc, htype, hconnect, fun _ => hidle, fun job hsome => ?_, ?_⟩
  · exact absurd (hjob.symm.trans hsome) nofun
  · rw [ha, List.map_nil, List.append_nil]
    exact ⟨h.ledger.settled, h.ledger.signalled, h.ledger.once⟩

theorem Held.booked (h : w.Held) : w.Booked := by
  refine ⟨fun job hjob => ?_, h.ledger.settled, h.ledger.signalled, h.ledger.once,
    fun hstate _ => (h.idle (h.job_none hstate)).2.2⟩
  obtain ⟨-, b, t, hc⟩ := h.busy job hjob
  rw [hc.taken]
  exact List.take_prefix _ _

/-- What `tcp_write` has taken after a turn is a front part again, as long as `write_offset` says. -/
theorem taken_append {xs ys : List α} {n : ℕ} (hys : ys = (xs.drop n).take ys.length) :
    xs.take n ++ ys = xs.take (n + ys.length) := by
  rw [List.take_add, ← hys]

/-- A turn of `do_writemore` for the message of `job`, which `w` has outstanding. -/
theorem Held.book_turn {turn : Turn} {b : Bool} {t : ℕ} {conn₁ : Conn α μ ℕ} {eff₁ : Effects α μ ℕ}
    (hjob : w.job = none) (hl : w.Ledger [job.id]) (hc : conn.Carries b t job)
    (hblock : job.dontblock = true → conn.writeOffset = 0)
    (hreset : conn.Expired turn t ∨ turn.Refused → conn.writeOffset = 0)
    (hturn : conn.writeTurn turn job.id job.data job.dontblock t = (conn₁, eff₁))
    (hm : conn'.Marked conn₁ eff eff₁) : (w.book job conn' eff).Held := by
  obtain ⟨hsame, hwritten, hcases⟩ := Conn.writeTurn_spec hc.rest hturn
  have htype : conn'.type = .tcp := hm.same.type.trans (hsame.type.trans hc.type)
  have hconnect : conn'.inNonblockingConnect = false :=
    hm.same.inNonblockingConnect.trans (hsame.inNonblockingConnect.trans hc.inNonblockingConnect)
  rw [← hm.written] at hwritten
  have htaken : job.taken ++ eff.written =
      job.data.take (conn.writeOffset + eff.written.length) := by
    rw [hc.taken]
    exact taken_append hwritten
  have hfits : conn.writeOffset + eff.written.length ≤ job.data.length := by
    have hlen := congrArg List.length hwritten
    rw [List.length_take, List.length_drop] at hlen
    have := hc.rest
    omega
  rcases hcases with ⟨a, hends⟩ | hgoes
  · have ha : eff.answers = [a] := hm.answers.trans hends.answers
    have hnone : (w.book job conn' eff).job = none := by
      rw [book]
      dsimp only
      rw [if_neg (by rw [ha]; exact List.cons_ne_nil _ _)]
      exact hjob
    have hzero : conn'.writeOffset = 0 := by
      rw [hm.writeOffset]
      rcases hends.writeOffset with hzero | ⟨hkeep, hexit⟩
      · exact hzero
      · rw [hkeep]
        rcases hexit with hdont | hexit
        · exact hblock hdont
        · exact hreset hexit
    refine ⟨htype, hconnect, fun _ => ⟨hm.state.trans hends.state,
      hm.currentMsg.trans hends.currentMsg, hzero⟩, fun job' hjob' => ?_, ?_⟩
    · rw [hnone] at hjob'
      cases hjob'
    · rw [hnone]
      have hlen : a.err = errOk → a.len = conn.writeOffset + eff.written.length := by
        rw [hm.written]
        exact hends.len
      have hfull : a.err = errOk → job.dontblock = false → job.timed = false →
          a.len = job.data.length := fun herr hdont htimed =>
        hends.full herr hdont (not_not.mp (of_decide_eq_false (hc.timed.symm.trans htimed)))
      refine hl.answered ha ⟨?_, fun herr => ?_, fun herr hdont htimed => ?_, hends.id⟩
      · change job.taken ++ eff.written <+: job.data
        rw [htaken]
        exact List.take_prefix _ _
      · change (job.taken ++ eff.written).length = if job.dontblock || job.timed then a.len
          else job.data.length
        rw [htaken, List.length_take, min_eq_left hfits]
        cases hdont : job.dontblock <;> cases htimed : job.timed
        · exact (hlen herr).symm.trans (hfull herr hdont htimed)
        all_goals exact (hlen herr).symm
      · change job.taken ++ eff.written = job.data
        rw [htaken, ← hlen herr, hfull herr hdont htimed, List.take_length]
  · have ha : eff.answers = [] := hm.answers.trans hgoes.answers
    have hsome : (w.book job conn' eff).job =
        some { job with taken := job.taken ++ eff.written } := if_pos ha
    have hoffset : conn'.writeOffset = conn.writeOffset + eff.written.length := by
      rw [hm.writeOffset, hm.written]
      exact hgoes.writeOffset
    refine ⟨htype, hconnect, fun hnone => absurd (hsome.symm.trans hnone) nofun,
      fun job' hjob' => ?_, ?_⟩
    · rw [hsome, Option.some.injEq] at hjob'
      subst hjob'
      refine ⟨hgoes.dontblock, b, t, ?_⟩
      constructor
      · exact htype
      · exact hconnect
      · exact hm.state.trans (hgoes.state.trans hc.state)
      · rw [show (w.book job conn' eff).conn = conn' from rfl, hm.same.pcb, hsame.pcb]
        exact hc.pcb
      · exact hm.currentMsg.trans (hgoes.currentMsg.trans hc.currentMsg)
      · rw [show (w.book job conn' eff).conn = conn' from rfl, hm.same.nonBlocking,
          hsame.nonBlocking]
        exact hc.dontblock
      · rw [show (w.book job conn' eff).conn = conn' from rfl, hm.same.sendTimeout,
          hsame.sendTimeout]
        exact hc.timed
      · change job.taken ++ eff.written = job.data.take conn'.writeOffset
        rw [htaken, hoffset]
      · exact hm.writeOffset.trans_lt hgoes.rest
    · rw [hsome]
      exact hl.goesOn ha

theorem Held.post {data : List α} {b : Bool} {now : ℕ} {turn : Turn} (h : w.Held)
    (hdata : data ≠ []) : ∃ w', w.post data b now turn = .ok w' ∧ w'.Held := by
  have hidle (hstate : w.conn.state = .none) :
      w.conn.currentMsg = none ∧ w.conn.writeOffset = 0 := (h.idle (h.job_none hstate)).2
  rw [Writer.post]
  dsimp only
  obtain ⟨err, herr, hw⟩ | ⟨hstate, hpcb, hw⟩ := Conn.doWrite_cases h.type hdata hidle
  · rw [hw]
    refine ⟨_, rfl, h.type, h.inNonblockingConnect, h.idle, h.busy, ?_⟩
    refine h.ledger.issue.answered rfl ⟨List.nil_prefix, ?_, ?_, rfl⟩
    · exact fun hok => absurd hok herr
    · exact fun hok => absurd hok herr
  · have hjob : w.job = none := h.job_none hstate
    rw [hw]
    refine ⟨_, rfl, ?_⟩
    refine Held.book_turn (b := b) hjob (h.ledger_none hjob).issue ?_ (fun _ => rfl) (fun _ => rfl) rfl .refl
    exact ⟨h.type, h.inNonblockingConnect, rfl, hpcb, rfl, rfl, rfl, rfl,
      List.length_pos_iff.mpr hdata⟩

/-- `sent_tcp` or `poll_tcp`, as what it does to the netconn that `carryOn` leaves. -/
theorem Held.carryOn {turn : Turn} {f : Conn α μ ℕ → Except Fault (Conn α μ ℕ × Effects α μ ℕ)}
    (hf : ∀ {conn conn' : Conn α μ ℕ} {eff : Effects α μ ℕ},
      conn.carryOn turn = .ok (conn', eff) →
        ∃ conn₁ eff₁, f conn = .ok (conn₁, eff₁) ∧ conn₁.Marked conn' eff₁ eff)
    (h : w.Held) (hok : w.conn.KeepsOffset turn) : ∃ w', w.callback (f w.conn) = .ok w' ∧ w'.Held := by
  cases hjob : w.job with
  | none =>
    obtain ⟨hstate, hmsg, hzero⟩ := h.idle hjob
    have hcarry : w.conn.carryOn turn = .ok (w.conn, {}) := by
      rw [Conn.carryOn]
      rw [if_neg (by rw [hstate]; exact nofun), if_neg (by rw [hstate]; exact nofun)]
    obtain ⟨conn₁, eff₁, hcalled, hm⟩ := hf hcarry
    refine h.callback_idle hjob hcalled hm.answers (hm.same.type.trans h.type)
      (hm.same.inNonblockingConnect.trans h.inNonblockingConnect) ?_
    exact ⟨hm.state.trans hstate, hm.currentMsg.trans hmsg, hm.writeOffset.trans hzero⟩
  | some job =>
    obtain ⟨hdont, b, t, hc⟩ := h.busy job hjob
    obtain ⟨hsettled, hsignalled, honce⟩ := h.ledger_some hjob
    have hcarry : w.conn.carryOn turn =
        .ok (w.conn.writeTurn turn job.id job.data job.dontblock t) := by
      rw [Conn.carryOn]
      rw [if_pos hc.state, hc.dontblock]
      exact Conn.doWritemore_eq hc.state hc.pcb hc.currentMsg hc.rest
    obtain ⟨conn₁, eff₁, hcalled, hm⟩ := hf hcarry
    refine ⟨_, callback_some hjob hcalled,
      Held.book_turn rfl ⟨hsettled, hsignalled, honce⟩ hc ?_ ?_ rfl hm⟩
    · exact fun hblock => absurd (hdont.symm.trans hblock) nofun
    · exact hok _ _ _ _ hc.currentMsg

theorem Held.errTcp {err : ℤ} {room room' : Bool} (h : w.Held) (hfatal : ErrIsFatal err)
    (hzero : w.conn.writeOffset = 0) :
    ∃ w', w.callback (w.conn.errTcp err room room') = .ok w' ∧ w'.Held := by
  cases hjob : w.job with
  | none =>
    obtain ⟨hstate, hmsg, -⟩ := h.idle hjob
    obtain ⟨conn', eff, hcalled, hreset, ha⟩ :=
      Conn.errTcp_idle hstate hmsg
    exact h.callback_idle hjob hcalled ha (hreset.type.trans h.type)
      (hreset.inNonblockingConnect.trans h.inNonblockingConnect)
      ⟨hreset.state, hreset.currentMsg, hreset.writeOffset.trans hzero⟩
  | some job =>
    obtain ⟨hdont, b, t, hc⟩ := h.busy job hjob
    obtain ⟨hsettled, hsignalled, honce⟩ := h.ledger_some hjob
    obtain ⟨conn', eff, hcalled, hreset, hwritten, ha⟩ :=
      Conn.errTcp_write hc.state h.inNonblockingConnect hc.currentMsg
    have herr : err ≠ errOk := by
      rintro rfl
      exact absurd hfatal (by decide)
    have hnone : ({ w with job := none }.book job conn' eff).job = none := by
      refine if_neg ?_
      rw [ha]
      exact List.cons_ne_nil _ _
    refine ⟨_, callback_some hjob hcalled, hreset.type.trans h.type,
      hreset.inNonblockingConnect.trans h.inNonblockingConnect,
      fun _ => ⟨hreset.state, hreset.currentMsg, hreset.writeOffset.trans hzero⟩,
      fun job' hsome => absurd (hnone.symm.trans hsome) nofun, ?_⟩
    rw [hnone]
    refine Ledger.answered ⟨hsettled, hsignalled, honce⟩ ha
      ⟨?_, fun hok => absurd hok herr, fun hok => absurd hok herr, rfl⟩
    change job.taken ++ eff.written <+: job.data
    rw [hwritten, List.append_nil, hc.taken]
    exact List.take_prefix _ _

theorem Held.safeErr {err : ℤ} (h : w.Held) :
    ({ w with conn := w.conn.setSafeErr err } : Writer α μ).Held := by
  rw [Conn.setSafeErr]
  split
  · exact h
  · refine ⟨h.type, h.inNonblockingConnect, h.idle, fun job hjob => ?_,
      ⟨h.ledger.settled, h.ledger.signalled, h.ledger.once⟩⟩
    obtain ⟨hdont, b, t, hc⟩ := h.busy job hjob
    exact ⟨hdont, b, t, hc.type, hc.inNonblockingConnect, hc.state, hc.pcb, hc.currentMsg,
      hc.dontblock, hc.timed, hc.taken, hc.rest⟩

/-- One step keeps the invariant, and no assertion of it fails. -/
theorem Held.after {e : WriteEvent α} (h : w.Held) (hen : w.Enabled e) (hok : Resets (.ok w) e) :
    ∃ w', w.after e = .ok w' ∧ w'.Held := by
  specialize hok w rfl
  cases e with
  | write data b counted now turn =>
    unfold Writer.after
    dsimp only
    split
    · next hposts => exact h.post hposts.2.1
    · exact ⟨w, rfl, h⟩
  | configure nonBlocking sendTimeout =>
    have hjob : w.job = none := hen
    refine ⟨_, rfl, h.type, h.inNonblockingConnect, h.idle, fun job hjob' => ?_,
      ⟨h.ledger.settled, h.ledger.signalled, h.ledger.once⟩⟩
    exact absurd (hjob.symm.trans hjob') nofun
  | sent turn => exact h.carryOn (f := Conn.sentTcp turn) Conn.sentTcp_spec hok
  | poll turn => exact h.carryOn (f := Conn.pollTcp turn) Conn.pollTcp_spec hok
  | err err room room' => exact h.errTcp hen.2 hok
  | safeErr err => exact ⟨_, rfl, h.safeErr⟩

end Writer

/-- Where no message ends half way, the books are right in every state of a run, and no assertion
has failed. -/
theorem writes_booked {s : Except Fault (Writer α μ)} (h : writing.ReachableWhile Resets s) :
    ∃ w, s = .ok w ∧ w.Booked := by
  suffices hheld : ∃ w, s = .ok w ∧ w.Held by
    obtain ⟨w, hs, hw⟩ := hheld
    exact ⟨w, hs, hw.booked⟩
  refine h.invariant (I := fun s => ∃ w, s = .ok w ∧ w.Held) ?_ ?_
  · rintro s ⟨conn, rfl, htype, hstate, hmsg, hzero, hconnect⟩
    exact ⟨_, rfl, htype, hconnect, fun _ => ⟨hstate, hmsg, hzero⟩, nofun, nofun, rfl, .nil⟩
  · rintro s e s' ⟨w, rfl, hw⟩ hok ⟨w', hs, hen, rfl⟩
    cases hs
    exact hw.after hen hok

/-- A connected netconn; `sendTimeout` is 0 or 10. -/
def connected (sendTimeout : ℤ) : Conn ℕ Unit ℕ := { pcb := some {}, sendTimeout := sendTimeout }

/-- The message is carried out in two turns. -/
def writtenInTwo : Writer ℕ Unit :=
  { conn := connected 0
    issued := 1
    done := [(⟨0, [1, 2, 3], false, false, [1, 2, 3]⟩, ⟨0, errOk, 3⟩)]
    signalled := [0] }

/-- A message of three bytes, two of them taken. -/
def halfWay (sendTimeout : ℤ) : Writer ℕ Unit :=
  { conn := { connected sendTimeout with
      state := .write
      currentMsg := some ⟨0, .write [1, 2, 3] false 0⟩
      writeOffset := 2 }
    issued := 1
    job := some ⟨0, [1, 2, 3], false, decide (sendTimeout ≠ 0), [1, 2]⟩ }

/-- The send timeout has ended the message. -/
def timedOut : Writer ℕ Unit :=
  { conn := { connected 10 with writeOffset := 2 }
    issued := 1
    done := [(⟨0, [1, 2, 3], false, true, [1, 2]⟩, ⟨0, errOk, 2⟩)]
    signalled := [0] }

theorem writes_booked_two : ∃ w, (Except.ok writtenInTwo : Except Fault (Writer ℕ Unit)) = .ok w ∧
    w.Booked := by
  refine writes_booked (s := .ok writtenInTwo) ⟨_, .snoc (.snoc (.start
    ⟨connected 0, rfl, rfl, rfl, rfl, rfl, rfl⟩) ?_
    (writing_step (s := .ok (halfWay 0))
      (.write [1, 2, 3] false true 0 { sndbuf := 2, sndbufAfter := 3000 }) trivial rfl)) ?_
    (writing_step (.sent { sndbuf := 1 }) nofun rfl)⟩
  · rintro w ⟨⟩
    trivial
  · rintro w ⟨⟩ id data b t hmsg (hexpired | hrefused)
    · exact absurd rfl hexpired.1
    · exact absurd rfl hrefused.1

/-- The send timeout leaves `write_offset` as it is, and the assertion of the next `do_write` fails. -/
theorem writes_fail :
    (∃ w, (writing : System (Except Fault (Writer ℕ Unit)) _).Reachable (.ok w) ∧
      w.conn.state = .none ∧ w.conn.currentMsg = none ∧ w.conn.writeOffset = 2 ∧ ¬w.Booked) ∧
    (writing : System (Except Fault (Writer ℕ Unit)) _).Reachable (.error .alreadyWriting) := by
  have hstart : writing.start (Except.ok { conn := connected 10 } : Except Fault (Writer ℕ Unit)) :=
    ⟨connected 10, rfl, rfl, rfl, rfl, rfl, rfl⟩
  have hhalf := (System.Reachable.of_start hstart).step (writing_step (s := .ok (halfWay 10))
    (.write [1, 2, 3] false true 0 { sndbuf := 2, sndbufAfter := 3000 }) trivial rfl)
  have hout := hhalf.step
    (writing_step (s := .ok timedOut) (.poll { now := 10 }) nofun rfl)
  refine ⟨⟨timedOut, hout, rfl, rfl, rfl, fun hb => absurd (hb.rest rfl rfl) nofun⟩, ?_⟩
  exact hout.step (writing_step (.write [4] false true 20 { sndbuf := 2 }) trivial rfl)

end QuietLwip.Netconn
