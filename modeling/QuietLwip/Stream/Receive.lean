import QuietLwip.Stream.Segments
import QuietLwip.Tcp.Pcbs
import QuietLwip.Foundation.Transition

/-!
# Receiving the text of a connection

The part of `tcp_receive` that takes the text of a segment: the segment is trimmed to what is new
and to the window, text that is next in sequence goes to the application, and other text waits on
`ooseq`. Every assertion on this path ends the program when it fails.
-/

namespace QuietLwip.Stream

open Serial Word Tcp

/-- `TCP_MSS`. -/
def tcpMss : ℕ := 1024

/-- The assertions of the path. -/
inductive Fault where
  | wrongState
  | insaneOffset
  | pbufTooShort
  | notTrimmedToRcvWnd
  | notTrimmedToOoseq
  | tcplenOverRcvWnd
  | ooseqTcplenOverRcvWnd
  | newRcvAnnWnd
  | recvedWraps
  deriving DecidableEq, Repr

/-- The fields of a `tcp_pcb` that the text of a segment concerns. -/
structure Rcv (α : Type*) where
  state : TcpState
  rcvNxt : Seq
  rcvWnd : ℕ
  rcvAnnWnd : ℕ
  rcvAnnRightEdge : Seq
  mss : ℕ
  -- `TF_ACK_DELAY`, `TF_ACK_NOW`
  ackDelay : Bool := false
  ackNow : Bool := false
  ooseq : List (Seg α) := []
  deriving DecidableEq, Repr

/-- What `tcp_receive` leaves behind: `recv_data`, no bytes standing for no pbuf, and
`TF_GOT_FIN`. -/
structure Received (α : Type*) where
  recvData : List α := []
  gotFin : Bool := false
  deriving DecidableEq, Repr

/-- A segment for the connection as `tcp_input` hands it on. What depends on the sending half
comes with it: whether `ackno` is acceptable in `SYN_RCVD`, and whether it equals `snd_nxt`. -/
structure Arrival (α : Type*) where
  seqno : Seq
  data : List α
  syn : Bool := false
  fin : Bool := false
  ack : Bool := true
  mss : Option ℕ := none
  acceptable : Bool := true
  ackno : Bool := false
  -- an IP packet has no room for more
  data_length : data.length ≤ 65495

/-- What the memory pools and the accept callback answer while a segment is processed. -/
structure Answers where
  copied : Bool := true
  acked : Bool := true
  accepted : Bool := true

/-- `inseg`. -/
def Arrival.inseg {α : Type*} (a : Arrival α) : Seg α where
  seqno := a.seqno
  len := a.data.length
  p := a.data
  syn := a.syn
  fin := a.fin

/-- `pcb->state < CLOSE_WAIT`. -/
def beforeCloseWait : TcpState → Bool
  | .closeWait | .closing | .lastAck | .timeWait => false
  | _ => true

/-- `pcb->state >= ESTABLISHED`. -/
def pastHandshake : TcpState → Bool
  | .closed | .listen | .synSent | .synRcvd => false
  | _ => true

variable {α : Type*}

namespace Rcv

/-- The right edge of the window. -/
def rightEdge (pcb : Rcv α) : Seq := pcb.rcvNxt + pcb.rcvWnd

def tcpAckNow (pcb : Rcv α) : Rcv α := { pcb with ackNow := true }

def tcpAck (pcb : Rcv α) : Rcv α :=
  if pcb.ackDelay then { pcb with ackDelay := false, ackNow := true }
  else { pcb with ackDelay := true }

/-- A segment goes out, and the window with it. -/
def announce (pcb : Rcv α) : Rcv α :=
  { pcb with
    rcvAnnRightEdge := pcb.rcvNxt + pcb.rcvAnnWnd
    ackDelay := false
    ackNow := false }

/-- `tcp_send_empty_ack`, which does nothing without memory. -/
def tcpSendEmptyAck (env : Answers) (pcb : Rcv α) : Rcv α :=
  if env.acked then pcb.announce else pcb

/-- `tcp_update_rcv_ann_wnd`, with what it returns. -/
def tcpUpdateRcvAnnWnd (pcb : Rcv α) : Except Fault (Rcv α × ℕ) :=
  let newRightEdge := pcb.rightEdge
  if tcpSeqGeq newRightEdge (pcb.rcvAnnRightEdge + (min (tcpWnd / 2) pcb.mss : ℕ)) then
    .ok ({ pcb with rcvAnnWnd := pcb.rcvWnd }, (newRightEdge - pcb.rcvAnnRightEdge).toNat)
  else if tcpSeqGt pcb.rcvNxt pcb.rcvAnnRightEdge then
    .ok ({ pcb with rcvAnnWnd := 0 }, 0)
  else
    let newRcvAnnWnd := (pcb.rcvAnnRightEdge - pcb.rcvNxt).toNat
    if newRcvAnnWnd ≤ 0xffff then .ok ({ pcb with rcvAnnWnd := newRcvAnnWnd }, 0)
    else .error .newRcvAnnWnd

/-- `tcp_recved`; a significant update sends a segment later on. -/
def tcpRecved (len : ℕ) (pcb : Rcv α) : Except Fault (Rcv α) :=
  if len ≤ 0xffff - pcb.rcvWnd then
    { pcb with rcvWnd := min (pcb.rcvWnd + len) tcpWnd }.tcpUpdateRcvAnnWnd.map
      fun (pcb, wndInflation) => if tcpWnd / 4 ≤ wndInflation then tcpAckNow pcb else pcb
  else .error .recvedWraps

/-- The MSS option, as `tcp_parseopt` takes it. -/
def setMss (mss : Option ℕ) (pcb : Rcv α) : Rcv α :=
  match mss with
  | some mss => { pcb with mss := if mss > tcpMss || mss == 0 then tcpMss else mss }
  | none => pcb

/-! ### Text in sequence -/

/-- The part of `inseg` in front of `rcv_nxt` is hidden. -/
def trimFirstEdge (rcvNxt : Seq) (inseg : Seg α) : Except Fault (Seg α) :=
  let off := dist rcvNxt inseg.seqno
  if off < 0x7fff then
    if (inseg.p.length : ℤ) < off then .error .pbufTooShort
    else
      .ok { inseg with
        p := inseg.p.drop off.toNat
        len := u16 (inseg.len - u16 (rcvNxt - inseg.seqno).toNat)
        seqno := rcvNxt }
  else .error .insaneOffset

/-- The end of `inseg` is cut off at the right edge of the window. -/
def trimToRcvWnd (pcb : Rcv α) (inseg : Seg α) : Except Fault (Seg α) :=
  if inseg.tcplen > pcb.rcvWnd then
    let inseg := { inseg with fin := false }.cut (u16 (pcb.rcvWnd - inseg.syn.toNat))
    if inseg.seqno + inseg.tcplen = pcb.rightEdge then .ok inseg
    else .error .notTrimmedToRcvWnd
  else .ok inseg

/-- The loops over the queued segments that `seg`, up to `reach`, covers: they are freed, and a FIN
of theirs is taken over. -/
def coveredLoop (reach : Seg α → Seq) (takes : Seg α → Bool) (seg : Seg α) :
    List (Seg α) → Seg α × List (Seg α)
  | [] => (seg, [])
  | next :: rest =>
    if tcpSeqGeq (reach seg) (next.seqno + next.len) then
      coveredLoop reach takes (if next.fin && takes seg then { seg with fin := true } else seg) rest
    else (seg, next :: rest)

/-- The loop of `tcp_receive` for text in sequence. -/
def removeCovered (inseg : Seg α) (next : List (Seg α)) : Seg α × List (Seg α) :=
  coveredLoop (fun inseg => inseg.seqno + inseg.tcplen) (fun inseg => !inseg.syn) inseg next

/-- `inseg` and `ooseq` are made disjoint. -/
def adjustOoseq (inseg : Seg α) (ooseq : List (Seg α)) : Except Fault (Seg α × List (Seg α)) :=
  if inseg.fin then .ok (inseg, [])
  else
    match removeCovered inseg ooseq with
    | (inseg, []) => .ok (inseg, [])
    | (inseg, next :: rest) =>
      if tcpSeqGt (inseg.seqno + inseg.tcplen) next.seqno then
        let cut := inseg.cut (u16 (u16 (next.seqno - inseg.seqno).toNat - inseg.syn.toNat))
        if cut.seqno + u16 cut.tcplen = next.seqno then .ok (cut, next :: rest)
        else .error .notTrimmedToOoseq
      else .ok (inseg, next :: rest)

/-- The segments on `ooseq` that are now in sequence are handed up too. -/
def dequeue (r : Received α) (pcb : Rcv α) : List (Seg α) → Except Fault (Rcv α × Received α)
  | [] => .ok ({ pcb with ooseq := [] }, r)
  | cseg :: rest =>
    if cseg.seqno = pcb.rcvNxt then
      if pcb.rcvWnd < cseg.tcplen then .error .ooseqTcplenOverRcvWnd
      else do
        let (pcb, _) ← { pcb with
          rcvNxt := pcb.rcvNxt + cseg.tcplen
          rcvWnd := pcb.rcvWnd - cseg.tcplen }.tcpUpdateRcvAnnWnd
        dequeue { recvData := r.recvData ++ cseg.p, gotFin := r.gotFin || cseg.fin }
          (if cseg.fin && pcb.state == .established then { pcb with state := .closeWait } else pcb)
          rest
    else .ok ({ pcb with ooseq := cseg :: rest }, r)

/-- The text is next in sequence. -/
def takeInSequence (pcb : Rcv α) (inseg : Seg α) : Except Fault (Rcv α × Received α) := do
  let inseg ← pcb.trimToRcvWnd inseg
  let (inseg, ooseq) ← adjustOoseq inseg pcb.ooseq
  if pcb.rcvWnd < inseg.tcplen then .error .tcplenOverRcvWnd
  else do
    let (pcb, _) ← { pcb with
      rcvNxt := inseg.seqno + inseg.tcplen
      rcvWnd := pcb.rcvWnd - inseg.tcplen }.tcpUpdateRcvAnnWnd
    let (pcb, r) ← pcb.dequeue { recvData := inseg.p, gotFin := inseg.fin } ooseq
    .ok (pcb.tcpAck, r)

/-! ### Text out of sequence -/

/-- The loop of `tcp_oos_insert_segment`. -/
def freeCovered (cseg : Seg α) (next : List (Seg α)) : Seg α × List (Seg α) :=
  coveredLoop (fun cseg => cseg.seqno + cseg.len) (fun _ => true) cseg next

/-- `tcp_oos_insert_segment`. -/
def tcpOosInsertSegment (cseg : Seg α) (next : List (Seg α)) : List (Seg α) :=
  if cseg.fin then [cseg]
  else
    match freeCovered cseg next with
    | (cseg, []) => [cseg]
    | (cseg, next :: rest) =>
      if tcpSeqGt (cseg.seqno + cseg.len) next.seqno then
        cseg.cut (u16 (next.seqno - cseg.seqno).toNat) :: next :: rest
      else cseg :: next :: rest

/-- The second edge of a queued segment is trimmed where the text of `seqno` begins. -/
def trimSecondEdge (seqno : Seq) (prev : Seg α) : Seg α :=
  if tcpSeqGt (prev.seqno + prev.len) seqno then prev.cut (u16 (seqno - prev.seqno).toNat)
  else prev

/-- The test whether a segment behind the queue overruns the window. -/
def overruns (pcb : Rcv α) (inseg : Seg α) : Bool :=
  u32 (inseg.tcplen + inseg.seqno.toNat) > pcb.rightEdge.toNat

/-- The copy of `inseg` that comes behind the last segment of the queue. -/
def lastCopy (pcb : Rcv α) (inseg : Seg α) : Except Fault (Seg α) :=
  if pcb.overruns inseg then
    let cseg := { inseg with fin := false }.cut (u16 (pcb.rightEdge - inseg.seqno).toNat)
    if inseg.seqno + cseg.tcplen = pcb.rightEdge then .ok cseg else .error .notTrimmedToRcvWnd
  else .ok inseg

/-- The rest of a turn of the walk: `next` may be the last segment of the queue. `further` is what
the following turns make of the queue from `next` on. -/
def queueBehind (env : Answers) (pcb : Rcv α) (inseg : Seg α) (prev : Option (Seg α))
    (next : Seg α) (rest : List (Seg α)) (further : Except Fault (List (Seg α))) :
    Except Fault (List (Seg α)) :=
  if rest.isEmpty && tcpSeqGt inseg.seqno next.seqno then
    if next.fin || !env.copied then .ok (prev.toList ++ [next])
    else (pcb.lastCopy inseg).map fun cseg =>
      prev.toList ++ [trimSecondEdge inseg.seqno next, cseg]
  else further.map (prev.toList ++ ·)

/-- The walk over `ooseq` that finds the place of `inseg`: what becomes of the queue from `prev`
on. -/
def queueOoseq (env : Answers) (pcb : Rcv α) (inseg : Seg α) (prev : Option (Seg α)) :
    List (Seg α) → Except Fault (List (Seg α))
  | [] => .ok prev.toList
  | next :: rest =>
    if inseg.seqno = next.seqno then
      .ok (prev.toList ++
        if inseg.len > next.len && env.copied then tcpOosInsertSegment inseg (next :: rest)
        else next :: rest)
    else
      match prev with
      | none =>
        if tcpSeqLt inseg.seqno next.seqno then
          .ok (if env.copied then tcpOosInsertSegment inseg (next :: rest) else next :: rest)
        else queueBehind env pcb inseg none next rest (queueOoseq env pcb inseg (some next) rest)
      | some prev =>
        if tcpSeqBetween inseg.seqno (prev.seqno + 1) (next.seqno - 1) then
          .ok (if env.copied then
              trimSecondEdge inseg.seqno prev :: tcpOosInsertSegment inseg (next :: rest)
            else prev :: next :: rest)
        else
          queueBehind env pcb inseg (some prev) next rest
            (queueOoseq env pcb inseg (some next) rest)

/-- The text is out of sequence and waits on `ooseq`. -/
def takeOutOfSequence (env : Answers) (pcb : Rcv α) (inseg : Seg α) : Except Fault (Rcv α) :=
  let pcb := pcb.tcpSendEmptyAck env
  match pcb.ooseq with
  | [] => .ok { pcb with ooseq := if env.copied then [inseg] else [] }
  | ooseq => (queueOoseq env pcb inseg none ooseq).map fun ooseq => { pcb with ooseq := ooseq }

/-! ### A segment -/

/-- `inseg` with its first edge trimmed where it begins in front of `rcv_nxt`, and whether all of
it is an old duplicate. -/
def trimOld (pcb : Rcv α) (inseg : Seg α) : Except Fault (Seg α × Bool) :=
  if tcpSeqBetween pcb.rcvNxt (inseg.seqno + 1) (inseg.seqno + inseg.tcplen - 1) then
    (trimFirstEdge pcb.rcvNxt inseg).map (·, false)
  else .ok (inseg, tcpSeqLt inseg.seqno pcb.rcvNxt)

/-- `seqno` is in the window. -/
def inWindow (pcb : Rcv α) (seqno : Seq) : Bool :=
  tcpSeqBetween seqno pcb.rcvNxt (pcb.rightEdge - 1)

/-- An old duplicate is answered at once. -/
def answerOld (duplicate : Bool) (pcb : Rcv α) : Rcv α := if duplicate then pcb.tcpAckNow else pcb

/-- `tcp_receive` from the test of the window on. -/
def takeTrimmed (env : Answers) (inseg : Seg α) (pcb : Rcv α) : Except Fault (Rcv α × Received α) :=
  if pcb.inWindow inseg.seqno then
    if pcb.rcvNxt = inseg.seqno then pcb.takeInSequence inseg
    else (pcb.takeOutOfSequence env inseg).map (·, {})
  else .ok (pcb.tcpSendEmptyAck env, {})

/-- `tcp_receive` for a segment with text. -/
def takeText (env : Answers) (pcb : Rcv α) (inseg : Seg α) : Except Fault (Rcv α × Received α) := do
  let (inseg, duplicate) ← pcb.trimOld inseg
  (pcb.answerOld duplicate).takeTrimmed env inseg

/-- `tcp_receive`, from the test of `tcplen` on. -/
def tcpReceive (env : Answers) (inseg : Seg α) (pcb : Rcv α) : Except Fault (Rcv α × Received α) :=
  if pastHandshake pcb.state then
    if inseg.tcplen > 0 && beforeCloseWait pcb.state then pcb.takeText env inseg
    else if pcb.inWindow inseg.seqno then .ok (pcb, {})
    else .ok (pcb.tcpAckNow, {})
  else .error .wrongState

/-- The connection is over, and `tcp_pcb_purge` frees what waits on `ooseq`. -/
def leave (state : TcpState) (pcb : Rcv α) : Rcv α := { pcb with state := state, ooseq := [] }

/-- `tcp_process` for a segment without RST, in the states from `SYN_RCVD` on. -/
def tcpProcess (env : Answers) (a : Arrival α) (pcb : Rcv α) : Except Fault (Rcv α × Received α) :=
  if a.syn && pcb.state != .synRcvd then .ok (pcb.tcpAckNow, {})
  else
    let pcb := pcb.setMss a.mss
    match pcb.state with
    | .synRcvd =>
      if a.ack && a.acceptable then
        if env.accepted then do
          let (pcb, r) ← { pcb with state := .established }.tcpReceive env a.inseg
          .ok (if r.gotFin then { pcb.tcpAckNow with state := .closeWait } else pcb, r)
        else .ok (pcb.leave .closed, {})
      else .ok (pcb, {})
    | .established | .closeWait => do
      let (pcb, r) ← pcb.tcpReceive env a.inseg
      .ok (if r.gotFin then { pcb.tcpAckNow with state := .closeWait } else pcb, r)
    | .finWait1 => do
      let (pcb, r) ← pcb.tcpReceive env a.inseg
      if r.gotFin then
        if a.ack && a.ackno then .ok (pcb.tcpAckNow.leave .timeWait, r)
        else .ok ({ pcb.tcpAckNow with state := .closing }, r)
      else if a.ack && a.ackno then .ok ({ pcb with state := .finWait2 }, r)
      else .ok (pcb, r)
    | .finWait2 => do
      let (pcb, r) ← pcb.tcpReceive env a.inseg
      .ok (if r.gotFin then pcb.tcpAckNow.leave .timeWait else pcb, r)
    | .closing => do
      let (pcb, r) ← pcb.tcpReceive env a.inseg
      .ok (if a.ack && a.ackno then pcb.leave .timeWait else pcb, r)
    | .lastAck => do
      let (pcb, r) ← pcb.tcpReceive env a.inseg
      .ok (if a.ack && a.ackno then pcb.leave .closed else pcb, r)
    | _ => .ok (pcb, {})

/-- The two differ in what goes out only. -/
structure Alike (pcb' pcb : Rcv α) : Prop where
  state : pcb'.state = pcb.state
  rcvNxt : pcb'.rcvNxt = pcb.rcvNxt
  rcvWnd : pcb'.rcvWnd = pcb.rcvWnd
  ooseq : pcb'.ooseq = pcb.ooseq

variable {pcb pcb' : Rcv α} {env : Answers}

theorem tcpAckNow_alike : Alike pcb.tcpAckNow pcb := ⟨rfl, rfl, rfl, rfl⟩

theorem announce_alike : Alike pcb.announce pcb := ⟨rfl, rfl, rfl, rfl⟩

theorem answerOld_alike {duplicate : Bool} : Alike (pcb.answerOld duplicate) pcb := by
  cases duplicate <;> exact ⟨rfl, rfl, rfl, rfl⟩

theorem tcpAck_alike : Alike pcb.tcpAck pcb := by
  rw [tcpAck]
  split <;> exact ⟨rfl, rfl, rfl, rfl⟩

theorem tcpSendEmptyAck_alike : Alike (pcb.tcpSendEmptyAck env) pcb := by
  rw [tcpSendEmptyAck]
  split
  · exact announce_alike
  · exact ⟨rfl, rfl, rfl, rfl⟩

theorem setMss_alike {mss : Option ℕ} : Alike (pcb.setMss mss) pcb := by
  cases mss <;> exact ⟨rfl, rfl, rfl, rfl⟩

theorem tcpUpdateRcvAnnWnd_alike {w : ℕ} (h : pcb.tcpUpdateRcvAnnWnd = .ok (pcb', w)) :
    Alike pcb' pcb := by
  unfold tcpUpdateRcvAnnWnd at h
  dsimp only at h
  split at h
  · cases h
    exact ⟨rfl, rfl, rfl, rfl⟩
  · split at h
    · cases h
      exact ⟨rfl, rfl, rfl, rfl⟩
    · split at h
      · cases h
        exact ⟨rfl, rfl, rfl, rfl⟩
      · cases h

theorem trimToRcvWnd_seqno {inseg cseg : Seg α} (h : pcb.trimToRcvWnd inseg = .ok cseg) :
    cseg.seqno = inseg.seqno := by
  unfold trimToRcvWnd at h
  split at h
  · dsimp only at h
    split at h
    · cases h
      rfl
    · cases h
  · cases h
    rfl

theorem coveredLoop_seqno (reach : Seg α → Seq) (takes : Seg α → Bool) (seg : Seg α)
    (next : List (Seg α)) : (coveredLoop reach takes seg next).1.seqno = seg.seqno := by
  induction next generalizing seg with
  | nil => rfl
  | cons s rest ih =>
    rw [coveredLoop]
    split
    · rw [ih]
      split <;> rfl
    · rfl

theorem adjustOoseq_seqno {inseg cseg : Seg α} {q q' : List (Seg α)}
    (h : adjustOoseq inseg q = .ok (cseg, q')) : cseg.seqno = inseg.seqno := by
  have hloop : (removeCovered inseg q).1.seqno = inseg.seqno := coveredLoop_seqno _ _ inseg q
  unfold adjustOoseq at h
  split at h
  · cases h
    rfl
  · split at h
    · next seg hcovered =>
      cases h
      rwa [hcovered] at hloop
    · next seg next rest hcovered =>
      rw [hcovered] at hloop
      dsimp only at h
      split at h
      · split at h
        · cases h
          exact hloop
        · cases h
      · cases h
        exact hloop

theorem trimToRcvWnd_error {inseg : Seg α} {f : Fault} (h : pcb.trimToRcvWnd inseg = .error f) :
    f = .notTrimmedToRcvWnd := by
  unfold trimToRcvWnd at h
  split at h
  · dsimp only at h
    split at h
    · cases h
    · cases h
      rfl
  · cases h

theorem adjustOoseq_error {inseg : Seg α} {q : List (Seg α)} {f : Fault} (h : adjustOoseq inseg q = .error f) :
    f = .notTrimmedToOoseq := by
  unfold adjustOoseq at h
  split at h
  · cases h
  · split at h
    · cases h
    · dsimp only at h
      split at h
      · split at h
        · cases h
        · cases h
          rfl
      · cases h

theorem tcpRecved_spec {len : ℕ} (h : pcb.tcpRecved len = .ok pcb') :
    pcb'.state = pcb.state ∧ pcb'.rcvNxt = pcb.rcvNxt ∧ pcb'.ooseq = pcb.ooseq ∧
      pcb'.rcvWnd = min (pcb.rcvWnd + len) tcpWnd := by
  unfold tcpRecved at h
  split at h
  · obtain ⟨⟨upd, w⟩, hupd, rfl⟩ := map_ok h
    have halike := tcpUpdateRcvAnnWnd_alike hupd
    dsimp only
    split
    · exact ⟨halike.state, halike.rcvNxt, halike.ooseq, halike.rcvWnd⟩
    · exact ⟨halike.state, halike.rcvNxt, halike.ooseq, halike.rcvWnd⟩
  · cases h

end Rcv

/-! ### Runs -/

/-- A connection, with what has come out of its text so far. -/
structure Session (α : Type*) where
  pcb : Rcv α
  -- all `recv_data` handed up, and whether `TF_GOT_FIN` has been raised
  given : List α := []
  gotFin : Bool := false
  -- whether `tcp_input` has given back the sequence number of the FIN
  corrected : Bool := false
  -- the sequence numbers taken in and not given back
  unread : ℕ := 0
  deriving DecidableEq, Repr

/-- What can happen to a connection. -/
inductive Event (α : Type*) where
  | segment (a : Arrival α) (env : Answers)
  | recved (len : ℕ)
  | correctWnd
  | output
  | close

namespace Session

/-- The connection after a segment. -/
def took (t : Session α) (pcb : Rcv α) (r : Received α) : Session α :=
  { t with
    pcb := pcb
    given := t.given ++ r.recvData
    gotFin := t.gotFin || r.gotFin
    unread := t.unread + (pcb.rcvNxt - t.pcb.rcvNxt).toNat }

/-- `tcp_input` adds the sequence number of the FIN to the window again. -/
def correctWnd (t : Session α) : Session α :=
  { t with
    pcb := if t.pcb.rcvWnd = tcpWnd then t.pcb else { t.pcb with rcvWnd := u16 (t.pcb.rcvWnd + 1) }
    corrected := true
    unread := t.unread - 1 }

/-- The application has closed its side. -/
def closed (pcb : Rcv α) : Rcv α :=
  match pcb.state with
  | .established => { pcb with state := .finWait1 }
  | .closeWait => { pcb with state := .lastAck }
  | _ => pcb

def exec (e : Event α) (t : Session α) : Except Fault (Session α) :=
  match e with
  | .segment a env => (t.pcb.tcpProcess env a).map fun (pcb, r) => t.took pcb r
  | .recved len =>
    (t.pcb.tcpRecved len).map fun pcb => { t with pcb := pcb, unread := t.unread - len }
  | .correctWnd => .ok (if t.gotFin && !t.corrected then t.correctWnd else t)
  | .output => .ok { t with pcb := t.pcb.announce }
  | .close => .ok { t with pcb := closed t.pcb }

/-- A connection that waits for the byte at `rcvNxt`, the first one. -/
def Fresh (rcvNxt : Seq) (t : Session α) : Prop :=
  (t.pcb.state = .synRcvd ∨ t.pcb.state = .established) ∧ t.pcb.rcvNxt = rcvNxt ∧
    t.pcb.rcvWnd = tcpWnd ∧ t.pcb.ooseq = [] ∧ t.given = [] ∧ t.gotFin = false ∧
      t.corrected = false ∧ t.unread = 0

end Session

/-- The connections whose first byte has the sequence number `irs`. -/
def receiving (α : Type*) (irs : Seq) : Transition.System (Session α) (Event α) where
  start := Session.Fresh irs
  step t e t' := t.exec e = .ok t'

section

variable {irs : Seq} {t t' : Session α} {es : List (Event α)}

theorem Session.correctWnd_spec (hwnd : t.pcb.rcvWnd ≤ tcpWnd) :
    t.correctWnd.pcb.state = t.pcb.state ∧ t.correctWnd.pcb.rcvNxt = t.pcb.rcvNxt ∧
      t.correctWnd.pcb.ooseq = t.pcb.ooseq ∧
      t.correctWnd.pcb.rcvWnd = min (t.pcb.rcvWnd + 1) tcpWnd := by
  rw [Session.correctWnd]
  dsimp only
  split
  · next hfull =>
    refine ⟨rfl, rfl, rfl, ?_⟩
    rw [hfull]
    exact (min_eq_right (Nat.le_succ _)).symm
  · next hroom =>
    have hlt : t.pcb.rcvWnd + 1 ≤ tcpWnd := by omega
    have hcast := u16_natCast (n := t.pcb.rcvWnd + 1) (by unfold tcpWnd at hlt; omega)
    push_cast at hcast
    exact ⟨rfl, rfl, rfl, hcast.trans (min_eq_left hlt).symm⟩

/-- The run that a list of events makes. -/
theorem run_of_exec {ok : Event α → Prop} {es' : List (Event α)}
    (hrun : (receiving α irs).Run (fun _ => ok) es t) (hok : ∀ e ∈ es', ok e)
    (hexec : es'.foldlM (fun t e => t.exec e) t = .ok t') :
    (receiving α irs).Run (fun _ => ok) (es ++ es') t' := by
  induction es' generalizing es t with
  | nil =>
    cases hexec
    rwa [List.append_nil]
  | cons e es' ih =>
    obtain ⟨s, hs, hexec⟩ := bind_ok hexec
    rw [List.append_cons]
    exact ih (hrun.snoc (hok e List.mem_cons_self) hs)
      (fun e he => hok e (List.mem_cons_of_mem _ he)) hexec

/-- A connection at its start. -/
def openSession (irs : Seq) : Session ℕ where
  pcb :=
    { state := .established
      rcvNxt := irs
      rcvWnd := tcpWnd
      rcvAnnWnd := tcpWnd
      rcvAnnRightEdge := irs
      mss := tcpMss }

theorem openSession_fresh : (openSession irs).Fresh irs :=
  ⟨.inr rfl, rfl, rfl, rfl, rfl, rfl, rfl, rfl⟩

/-- Bytes from the position `pos` on of a stream whose first sequence number is `irs`. -/
def bytesAt (irs : Seq) (pos : ℕ) (data : List ℕ) (fin : Bool) (h : data.length ≤ 65495) :
    Event ℕ :=
  .segment { seqno := irs + pos, data := data, fin := fin, data_length := h } {}

/-- The two last bytes of three, with the FIN, have come first. -/
def swapped : Session ℕ :=
  { openSession 7 with
    pcb :=
      { (openSession 7).pcb with
        rcvAnnRightEdge := 7 + 4096
        ooseq := [⟨8, 2, [2, 3], false, true⟩] } }

theorem exec_swapped :
    (openSession 7).exec (bytesAt 7 1 [2, 3] true (by decide)) = .ok swapped := rfl

/-- The first byte closes the gap. -/
theorem exec_swapped_first : ∃ t, swapped.exec (bytesAt 7 0 [1] false (by decide)) = .ok t ∧
    t.given = [1, 2, 3] ∧ t.gotFin = true :=
  ⟨_, rfl, rfl, rfl⟩

end

end QuietLwip.Stream
