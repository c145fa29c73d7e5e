import QuietLwip.Sender.Moves

/-!
# What the queued segments hold

The functions of `tcp_in.c` and of the timers move segments between the queues and drop them, and
make none. `tcp_write` and `tcp_close` do: what they queue is what the application has written, each
piece with the sequence number of its place.
-/

namespace QuietLwip.Sender

open Serial Word Tcp QuietLwip.Stream Transition

variable {α : Type*}

/-! ### The queues -/

theorem mem_insertBySeqno {seg x : OutSeg α} {queue : List (OutSeg α)} :
    x ∈ insertBySeqno seg queue ↔ x = seg ∨ x ∈ queue := by
  induction queue with
  | nil => simp [insertBySeqno]
  | cons cur rest ih =>
    rw [insertBySeqno]
    split
    · simp only [List.mem_cons, ih]
      exact or_left_comm
    · exact List.mem_cons

/-- The segment comes last if all the others are before it, and otherwise the last one stays. -/
theorem insertBySeqno_getLast (seg : OutSeg α) (queue : List (OutSeg α)) :
    (insertBySeqno seg queue).getLast? =
      if queue.all fun cur => tcpSeqLt cur.seqno seg.seqno then some seg else queue.getLast? := by
  induction queue with
  | nil => rfl
  | cons cur rest ih =>
    rw [insertBySeqno]
    split
    · next hlt =>
      rw [List.all_cons, hlt, Bool.true_and, List.getLast?_cons, ih]
      split
      · rfl
      · next hall =>
        cases rest with
        | nil => exact absurd rfl hall
        | cons next rest =>
          rw [List.getLast?_cons_cons, List.getLast?_cons]
          rfl
    · next hlt =>
      rw [List.all_cons, Bool.eq_false_iff.mpr hlt, Bool.false_and, if_neg Bool.false_ne_true]
      exact List.getLast?_cons_cons

theorem mem_pushUnacked {seg x : OutSeg α} {queue : List (OutSeg α)} :
    x ∈ pushUnacked seg queue ↔ x = seg ∨ x ∈ queue := by
  rw [pushUnacked]
  split
  · next hnone =>
    rw [List.getLast?_eq_none_iff.mp hnone]
    simp
  · split
    · exact mem_insertBySeqno
    · simp [or_comm]

namespace Snd

variable {pcb pcb' pcb₁ : Snd α} {seg : Incoming}

theorem unsnoc_eq {β : Type*} {queue front : List β} {last : β}
    (h : unsnoc queue = some (front, last)) : queue = front ++ [last] := by
  rw [unsnoc] at h
  split at h
  · cases h
  · next last' hlast =>
    cases h
    obtain ⟨ys, rfl⟩ := List.getLast?_eq_some_iff.mp hlast
    simp

theorem unsnoc_none {β : Type*} {queue : List β} (h : unsnoc queue = none) : queue = [] := by
  rw [unsnoc] at h
  split at h
  · next hlast => exact List.getLast?_eq_none_iff.mp hlast
  · cases h

/-- The segments on the two queues -/
def queued (pcb : Snd α) : List (OutSeg α) := pcb.unacked ++ pcb.unsent

/-- `unsent_oversize` is about the last unsent segment, and that is not a SYN. -/
def RoomForText (pcb : Snd α) : Prop :=
  pcb.unsentOversize ≠ 0 → ∃ last ∈ pcb.unsent.getLast?, last.syn = false

theorem RoomForText.of_zero (h : pcb.unsentOversize = 0) : pcb.RoomForText := fun hne => absurd h hne

/-- No segment has been made. -/
structure Moves (pcb' pcb : Snd α) : Prop where
  sndLbb : pcb'.sndLbb = pcb.sndLbb
  finQueued : pcb'.finQueued = pcb.finQueued
  queued : pcb'.queued ⊆ pcb.queued
  room : pcb.RoomForText → pcb'.RoomForText

theorem Moves.refl (pcb : Snd α) : pcb.Moves pcb := ⟨rfl, rfl, List.Subset.refl _, id⟩

theorem Moves.trans (h : pcb₁.Moves pcb') (h' : pcb'.Moves pcb) : pcb₁.Moves pcb where
  sndLbb := h.sndLbb.trans h'.sndLbb
  finQueued := h.finQueued.trans h'.finQueued
  queued := List.Subset.trans h.queued h'.queued
  room hroom := h.room (h'.room hroom)

/-- Other fields do not matter. -/
theorem Moves.congr (hlbb : pcb'.sndLbb = pcb.sndLbb) (hfin : pcb'.finQueued = pcb.finQueued)
    (hunacked : pcb'.unacked = pcb.unacked) (hunsent : pcb'.unsent = pcb.unsent)
    (hoversize : pcb'.unsentOversize = pcb.unsentOversize) : pcb'.Moves pcb where
  sndLbb := hlbb
  finQueued := hfin
  queued := by
    rw [Snd.queued, hunacked, hunsent]
    exact List.Subset.refl _
  room := by
    rw [RoomForText, RoomForText, hoversize, hunsent]
    exact id

theorem Moves.set (h : pcb'.Moves pcb) (hlbb : pcb₁.sndLbb = pcb'.sndLbb)
    (hfin : pcb₁.finQueued = pcb'.finQueued) (hunacked : pcb₁.unacked = pcb'.unacked)
    (hunsent : pcb₁.unsent = pcb'.unsent) (hoversize : pcb₁.unsentOversize = pcb'.unsentOversize) :
    pcb₁.Moves pcb :=
  (Moves.congr hlbb hfin hunacked hunsent hoversize).trans h

/-! ### Output -/

theorem outputLoop_moves (queue : List (OutSeg α)) (pcb : Snd α)
    (hunsent : pcb.unsent = queue) : (outputLoop queue pcb).Moves pcb := by
  -- the loop goes on with the rest of the queue, while `unsent` still has all of it
  suffices h : ∀ pcb : Snd α, (outputLoop queue pcb).sndLbb = pcb.sndLbb ∧
      (outputLoop queue pcb).finQueued = pcb.finQueued ∧
      (outputLoop queue pcb).queued ⊆ pcb.unacked ++ queue ∧
      ((queue ≠ [] → RoomForText { pcb with unsent := queue }) →
        (outputLoop queue pcb).RoomForText) by
    obtain ⟨hlbb, hfin, hqueued, hroom⟩ := h pcb
    subst hunsent
    exact ⟨hlbb, hfin, hqueued, fun h => hroom fun _ => h⟩
  clear hunsent pcb
  induction queue with
  | nil =>
    intro pcb
    exact ⟨rfl, rfl, by simp [outputLoop, queued], fun _ => .of_zero rfl⟩
  | cons seg rest ih =>
    intro pcb
    rw [outputLoop]
    split
    · obtain ⟨hlbb, hfin, hqueued, hroom⟩ := ih (pcb.outputSegment seg)
      refine ⟨hlbb, hfin, fun x hx => ?_, fun h => hroom fun hne => ?_⟩
      · have hx := hqueued hx
        simp only [outputSegment, List.mem_append] at hx
        simp only [List.mem_append, List.mem_cons]
        split at hx
        · rw [mem_pushUnacked] at hx
          tauto
        · tauto
      · have hlast : (seg :: rest).getLast? = rest.getLast? := by
          obtain ⟨next, rest, rfl⟩ := List.exists_cons_of_ne_nil hne
          exact List.getLast?_cons_cons
        have h := h (List.cons_ne_nil _ _)
        rw [RoomForText] at h ⊢
        rwa [← hlast]
    · refine ⟨rfl, rfl, List.Subset.refl _, fun h => ?_⟩
      exact h (List.cons_ne_nil _ _)

theorem tcpOutput_moves {acked : Bool} : (pcb.tcpOutput acked).Moves pcb := by
  rw [tcpOutput]
  split
  · exact .congr rfl rfl rfl rfl rfl
  · exact outputLoop_moves _ _ rfl

theorem tcpRexmitRto_moves {acked : Bool} : (pcb.tcpRexmitRto acked).Moves pcb := by
  rw [tcpRexmitRto]
  split
  · exact .refl pcb
  · next seg rest hunacked =>
    refine tcpOutput_moves.trans ⟨rfl, rfl, ?_, fun hroom hne => ?_⟩
    · simp [queued, hunacked]
    · obtain ⟨last, hlast, hsyn⟩ := hroom hne
      refine ⟨last, ?_, hsyn⟩
      rw [Option.mem_def] at hlast ⊢
      rw [List.getLast?_append, hlast]
      rfl

theorem tcpRexmit_moves : pcb.tcpRexmit.Moves pcb := by
  rw [tcpRexmit]
  split
  · exact .refl pcb
  · next seg rest hunacked =>
    refine ⟨rfl, rfl, fun x hx => ?_, fun hroom => ?_⟩
    · simp only [queued, List.mem_append, mem_insertBySeqno] at hx
      simp only [queued, hunacked, List.mem_append, List.mem_cons]
      tauto
    · intro hne
      have hlast := insertBySeqno_getLast seg pcb.unsent
      dsimp only at hne ⊢
      split at hne
      · exact absurd rfl hne
      · next hall =>
        rw [if_neg hall] at hlast
        rw [hlast]
        exact hroom hne

theorem tcpRexmitFast_moves : pcb.tcpRexmitFast.Moves pcb := by
  rw [tcpRexmitFast]
  split
  · exact tcpRexmit_moves.set rfl rfl rfl rfl rfl
  · exact .refl pcb

theorem retransmit_moves {env : CallEnv} : (pcb.retransmit env).Moves pcb :=
  tcpRexmitRto_moves.trans (.congr rfl rfl rfl rfl rfl)

/-! ### Acknowledgements -/

theorem inflate_moves : pcb.inflate.Moves pcb := by
  rw [inflate]
  split
  · exact .congr rfl rfl rfl rfl rfl
  · exact .refl pcb

theorem ackOld_moves {edge : Seq} : (pcb.ackOld edge seg).Moves pcb := by
  obtain ⟨n, h | h | h⟩ := ackOld_cases edge seg pcb
  · exact h ▸ .congr rfl rfl rfl rfl rfl
  · exact h ▸ inflate_moves.trans (.congr rfl rfl rfl rfl rfl)
  · exact h ▸ tcpRexmitFast_moves.trans (.congr rfl rfl rfl rfl rfl)

theorem growCwnd_moves : pcb.growCwnd.Moves pcb := by
  rw [growCwnd]
  split
  · exact inflate_moves
  · dsimp only
    split
    · exact .congr rfl rfl rfl rfl rfl
    · exact .refl pcb

theorem leaveRecovery_moves : pcb.leaveRecovery.Moves pcb := by
  rw [leaveRecovery]
  split
  · exact .congr rfl rfl rfl rfl rfl
  · exact .refl pcb

theorem freeUnacked_moves (ackno : Seq) {queue : List (OutSeg α)} (h : queue ⊆ pcb.unacked) :
    (freeUnacked ackno queue pcb).Moves pcb := by
  induction queue generalizing pcb with
  | nil => exact ⟨rfl, rfl, by simp [freeUnacked, queued], id⟩
  | cons cur rest ih =>
    have hrest : rest ⊆ (pcb.release cur).unacked := List.Subset.trans (List.subset_cons_self _ _) h
    rw [freeUnacked]
    split
    · exact (ih hrest).trans (.congr rfl rfl rfl rfl rfl)
    · exact ⟨rfl, rfl, List.append_subset.mpr ⟨List.Subset.trans h (List.subset_append_left _ _),
        List.subset_append_right _ _⟩, id⟩

theorem ackNew_moves {ackno : Seq} : (pcb.ackNew ackno).Moves pcb := by
  have hcount : (pcb.leaveRecovery.countAcked ackno).Moves pcb.leaveRecovery :=
    .congr rfl rfl rfl rfl rfl
  have h := (freeUnacked_moves ackno (List.Subset.refl _)).trans
    (growCwnd_moves.trans (hcount.trans leaveRecovery_moves))
  exact h.set rfl rfl rfl rfl rfl

theorem updateWindow_moves (seg : Incoming) : (pcb.updateWindow seg).Moves pcb := by
  rw [updateWindow]
  split
  · exact .congr rfl rfl rfl rfl rfl
  · exact .refl pcb

/-- `unsent_oversize` goes with the last segment. -/
theorem freeUnsent_moves (ackno : Seq) (queue : List (OutSeg α)) (pcb : Snd α) :
    (freeUnsent ackno queue pcb).Moves { pcb with unsent := queue } := by
  induction queue generalizing pcb with
  | nil => exact .congr rfl rfl rfl rfl rfl
  | cons cur rest ih =>
    rw [freeUnsent]
    split
    · refine (ih _).trans ⟨rfl, rfl, ?_, fun hroom hne => ?_⟩
      · exact List.append_subset.mpr ⟨List.subset_append_left _ _,
          List.subset_append_of_subset_right _ (List.subset_cons_self _ _)⟩
      · dsimp only [release] at hne ⊢
        split at hne
        · exact absurd rfl hne
        · next hrest =>
          obtain ⟨next, rest, rfl⟩ := List.exists_cons_of_ne_nil hrest
          exact hroom hne
    · exact .congr rfl rfl rfl rfl rfl

theorem tcpReceive_moves (seg : Incoming) : (pcb.tcpReceive seg).Moves pcb := by
  have hack : (pcb.receiveAck seg).Moves pcb := by
    refine (freeUnsent_moves _ _ _).trans (Moves.trans ?_ (updateWindow_moves seg))
    split
    · exact ackOld_moves
    · split
      · exact ackNew_moves
      · exact .congr rfl rfl rfl rfl rfl
  rw [tcpReceive]
  split
  · exact hack.set rfl rfl rfl rfl rfl
  · exact .congr rfl rfl rfl rfl rfl

/-! ### The states -/

theorem leave_moves {state : TcpState} : (pcb.leave state).Moves pcb :=
  ⟨rfl, rfl, List.nil_subset _, fun _ => .of_zero rfl⟩

theorem accept_moves : (pcb.accept seg).Moves pcb := by
  have h : (({ pcb with state := .established } : Snd α).tcpReceive seg).Moves pcb :=
    (tcpReceive_moves seg).trans (.congr rfl rfl rfl rfl rfl)
  rw [accept]
  dsimp only
  split
  · exact h.set rfl rfl rfl rfl rfl
  · exact h.set rfl rfl rfl rfl rfl

theorem Processed.moves {mtu : Option ℕ} (h : Processed mtu seg pcb pcb') : pcb'.Moves pcb := by
  cases h with
  | ignored => exact .refl pcb
  | @synAcked rseg unacked _ hfirst _ _ _ =>
    refine ⟨rfl, rfl, ?_, id⟩
    rw [queued, queued, hfirst]
    exact List.subset_cons_self _ _
  | refused => exact leave_moves
  | accepted _ _ _ _ => exact accept_moves
  | synAgain _ => exact tcpRexmit_moves
  | received _ _ => exact (tcpReceive_moves seg).set rfl rfl rfl rfl rfl
  | left _ _ => exact leave_moves.trans ((tcpReceive_moves seg).set rfl rfl rfl rfl rfl)

theorem tcpParseopt_moves {mss : Option ℕ} : (pcb.tcpParseopt mss).Moves pcb := by
  cases mss with
  | none => exact .refl pcb
  | some mss => exact .congr rfl rfl rfl rfl rfl

theorem tcpProcess_moves {mtu : Option ℕ} : (pcb.tcpProcess mtu seg).Moves pcb := by
  obtain h | h | h | ⟨-, -, h⟩ := tcpProcess_cases mtu seg pcb
  · rw [h]
    exact .refl pcb
  · exact h ▸ leave_moves
  · exact h ▸ .congr rfl rfl rfl rfl rfl
  · exact h.moves.trans tcpParseopt_moves

theorem tcpSlowtmr_moves {env : CallEnv} {expired remove : Bool} :
    (pcb.tcpSlowtmr env expired remove).Moves pcb := by
  obtain h | ⟨-, h⟩ | ⟨t, h | h⟩ := tcpSlowtmr_cases env expired remove pcb
  · exact h ▸ leave_moves
  · rw [h, persist]
    split
    · exact .congr rfl rfl rfl rfl rfl
    · exact .congr rfl rfl rfl rfl rfl
  · exact h ▸ .congr rfl rfl rfl rfl rfl
  · exact h ▸ retransmit_moves.trans (.congr rfl rfl rfl rfl rfl)

/-! ### The states in which the application may write -/

/-- `tcp_write_checks` does not return `ERR_CONN`. -/
def writable : TcpState → Bool
  | .established | .closeWait | .synSent | .synRcvd => true
  | _ => false

theorem processState_writable {mtu : Option ℕ} (h : writable (pcb.processState mtu seg).state = true) :
    writable pcb.state = true := by
  cases hstate : pcb.state with
  | synSent | synRcvd | established | closeWait => rfl
  | closed | listen | timeWait =>
    simp only [processState, hstate] at h
    exact h
  | finWait1 | finWait2 | closing | lastAck =>
    simp only [processState, hstate] at h
    revert h
    repeat' split
    all_goals simp [leave, writable, hstate]

theorem tcpProcess_writable {mtu : Option ℕ} (h : writable (pcb.tcpProcess mtu seg).state = true) :
    writable pcb.state = true := by
  rw [tcpProcess] at h
  split at h
  · split at h
    · cases h
    · exact h
  · split at h
    · exact h
    · have h := processState_writable h
      cases hmss : seg.mss with
      | none =>
        rw [hmss] at h
        exact h
      | some mss =>
        rw [hmss] at h
        exact h

theorem tcpSlowtmr_writable {env : CallEnv} {expired remove : Bool}
    (h : writable (pcb.tcpSlowtmr env expired remove).state = true) : writable pcb.state = true := by
  obtain heq | ⟨-, heq⟩ | ⟨t, heq | heq⟩ := tcpSlowtmr_cases env expired remove pcb
  · rw [heq] at h
    cases h
  · rw [heq, persist] at h
    split at h
    · exact h
    · exact h
  · rw [heq] at h
    exact h
  · rw [heq, retransmit_window.state] at h
    exact h

end Snd

/-! ### The bytes of a segment -/

/-- The segment holds bytes of `S`, whose first byte has the sequence number `first`, and the FIN comes
behind the last of them; `closed` is whether a FIN has been queued. A SYN is by itself. -/
def OutSeg.Holds (S : List α) (first : Seq) (closed : Bool) (seg : OutSeg α) : Prop :=
  (seg.syn = true → seg.len = 0 ∧ seg.fin = false) ∧
    (seg.syn = false → ∃ pos : ℕ, seg.seqno = first + (pos : Seq) ∧ pos + seg.len ≤ S.length ∧
      seg.p = (S.drop pos).take seg.len ∧
      (seg.fin = true → closed = true ∧ pos + seg.len = S.length))

variable {S data : List α} {first : Seq} {closed : Bool} {seg : OutSeg α}

theorem slice_append {pos len : ℕ} (h : pos + len ≤ S.length) (data : List α) :
    ((S ++ data).drop pos).take len = (S.drop pos).take len := by
  rw [List.drop_append_of_le_length (by omega), List.take_append_of_le_length]
  rw [List.length_drop]
  omega

/-- More is written, while there is no FIN. -/
theorem OutSeg.Holds.append (h : seg.Holds S first false) (data : List α) :
    seg.Holds (S ++ data) first closed := by
  refine ⟨h.1, fun hsyn => ?_⟩
  obtain ⟨pos, hseqno, hlen, hp, hfin⟩ := h.2 hsyn
  refine ⟨pos, hseqno, ?_, ?_, fun htrue => ?_⟩
  · rw [List.length_append]
    omega
  · rw [hp, slice_append hlen]
  · obtain ⟨hfalse, -⟩ := hfin htrue
    cases hfalse

theorem OutSeg.Holds.close (h : seg.Holds S first false) : seg.Holds S first true := by
  have hmore : seg.Holds (S ++ []) first true := h.append []
  rwa [List.append_nil] at hmore

namespace Snd

variable {pcb pcb' : Snd α}

/-- The last unsent segment, unless it is a SYN, ends where the next byte is going to be. A segment
that `tcp_rexmit` has put there need not. -/
def TailCurrent (S : List α) (pcb : Snd α) : Prop :=
  ∀ last ∈ pcb.unsent.getLast?, last.syn = false →
    last.seqno + (last.len : Seq) = pcb.sndLbb ∧ last.p <:+ S

instance [DecidableEq α] : Decidable (pcb.TailCurrent S) :=
  inferInstanceAs (Decidable (∀ last ∈ pcb.unsent.getLast?, _ → _))

/-- What the application has written is `S`, and the queues hold pieces of it. -/
structure Sending (S : List α) (first : Seq) (pcb : Snd α) : Prop where
  queued : ∀ seg ∈ pcb.queued, seg.Holds S first pcb.finQueued
  sndLbb : pcb.finQueued = false → pcb.sndLbb = first + (S.length : Seq)
  finished : pcb.finQueued = true → writable pcb.state = false
  room : pcb.RoomForText

theorem Sending.moves (h : pcb.Sending S first) (hmoves : pcb'.Moves pcb)
    (hstate : writable pcb'.state = true → writable pcb.state = true) : pcb'.Sending S first where
  queued := by
    rw [hmoves.finQueued]
    exact fun seg hseg => h.queued seg (hmoves.queued hseg)
  sndLbb hopen := by
    rw [hmoves.finQueued] at hopen
    rw [hmoves.sndLbb, h.sndLbb hopen]
  finished hclosed := by
    rw [hmoves.finQueued] at hclosed
    have hno := h.finished hclosed
    refine Bool.eq_false_iff.mpr fun htrue => ?_
    rw [hstate htrue] at hno
    cases hno
  room := hmoves.room h.room

/-- While the application may write, no FIN has been queued. -/
theorem Sending.open (h : pcb.Sending S first) (hstate : writable pcb.state = true) :
    pcb.finQueued = false := by
  refine Bool.eq_false_iff.mpr fun hclosed => ?_
  rw [h.finished hclosed] at hstate
  cases hstate

/-! ### `tcp_write` -/

/-- What the local variables of `tcp_write` hold of the data. -/
structure Drafted (data : List α) (pcb : Snd α) (d : Draft α) : Prop where
  tail : d.copied ++ d.chained = data.take (d.copied.length + d.chained.length)
  copied : d.copied ≠ [] → pcb.unsentOversize ≠ 0
  chained : d.chained ≠ [] → ∃ last ∈ pcb.unsent.getLast?, 0 < last.len
  queue : ∀ seg ∈ d.queue, seg.syn = false ∧ seg.fin = false ∧ ∃ off : ℕ,
    seg.seqno = pcb.sndLbb + (off : Seq) ∧ off + seg.len ≤ data.length ∧
      seg.p = (data.drop off).take seg.len
  oversize : d.queue = [] → d.oversize ≠ 0 → pcb.unsentOversize ≠ 0 ∨ d.chained ≠ []

variable {args : WriteArgs} {d d' : Draft α}

theorem copyInto_drafted (allocs : ℕ) (data : List α) (pcb : Snd α) :
    Drafted data pcb { pcb.copyInto data with allocs := allocs } where
  tail := by simp [copyInto]
  copied := by
    rintro hne hzero
    simp [copyInto, hzero] at hne
  chained hne := absurd rfl hne
  queue _ hseg := absurd hseg List.not_mem_nil
  oversize := by
    intro _ hne
    dsimp only [copyInto] at hne
    omega

/-- Phase 2 goes on where phase 1 has stopped. -/
theorem chainTo_drafted {last : OutSeg α} {allocs : ℕ} (hlast : pcb.unsent.getLast? = some last)
    (h : pcb.chainTo args data last { pcb.copyInto data with allocs := allocs } = some d) :
    Drafted data pcb d := by
  have hstart := copyInto_drafted allocs data pcb
  rw [chainTo] at h
  split at h
  · next hroom =>
    split at h
    · cases h
    · next n hallocs =>
      cases h
      refine ⟨?_, hstart.copied, fun _ => ⟨last, hlast, hroom.2.2⟩, hstart.queue, fun _ _ => .inr ?_⟩
      · have hcopied : (data.take (min pcb.unsentOversize data.length)).length =
            min pcb.unsentOversize data.length := by simp
        dsimp only [copyInto]
        rw [hcopied, List.take_add, List.length_take_of_le]
        rw [List.length_drop]
        omega
      · refine List.ne_nil_of_length_pos ?_
        have hpos := hroom.1
        have hspace := hroom.2.1
        dsimp only [copyInto] at hpos hspace ⊢
        rw [List.length_take, List.length_drop]
        omega
  · cases h
    exact hstart

theorem nextSegment_drafted (hd : Drafted data pcb d) (hpos : d.pos < data.length)
    (h : pcb.nextSegment args data d = some d') : Drafted data pcb d' := by
  rw [nextSegment] at h
  split at h
  · cases h
  · by_cases hfull : tcpSndQueuelen < d.queuelen + if args.copy = true then 1 else 2
    · rw [if_pos hfull] at h
      cases h
    · rw [if_neg hfull] at h
      cases h
      refine ⟨hd.tail, hd.copied, hd.chained, fun seg hseg => ?_, fun hnil => ?_⟩
      · rcases List.mem_append.mp hseg with hseg | hseg
        · exact hd.queue seg hseg
        · obtain rfl := List.mem_singleton.mp hseg
          exact ⟨rfl, rfl, d.pos, rfl, by dsimp only; omega, rfl⟩
      · exact absurd hnil (List.concat_ne_nil _ _)

theorem segmentLoop_drafted {turns : ℕ} (hd : Drafted data pcb d)
    (h : pcb.segmentLoop args data turns d = some d') : Drafted data pcb d' := by
  induction turns generalizing d with
  | zero =>
    rw [segmentLoop] at h
    split at h
    · cases h
    · cases h
      exact hd
  | succ turns ih =>
    rw [segmentLoop] at h
    split at h
    · next hpos =>
      obtain ⟨next, hnext, h⟩ := Option.bind_eq_some_iff.mp h
      exact ih (nextSegment_drafted hd hpos hnext) h
    · cases h
      exact hd

theorem segmentation_drafted (h : pcb.segmentation args data = some d) : Drafted data pcb d := by
  rw [segmentation] at h
  obtain ⟨start, hstart, h⟩ := Option.bind_eq_some_iff.mp h
  refine segmentLoop_drafted ?_ h
  split at hstart
  · next front last hunsent =>
    refine chainTo_drafted ?_ hstart
    rw [unsnoc_eq hunsent, List.getLast?_concat]
  · cases hstart
    exact ⟨rfl, fun hne => absurd rfl hne, fun hne => absurd rfl hne,
      fun _ hseg => absurd hseg List.not_mem_nil, fun _ hne => absurd rfl hne⟩

/-- What is put behind the last bytes that have been written goes on with the stream. -/
theorem holds_tail (seg : OutSeg α) (data : List α) {last : OutSeg α} (hlast : last.Holds S first closed) (hsyn : last.syn = false)
    (hplace : last.seqno + (last.len : Seq) = first + (S.length : Seq)) (hsuffix : last.p <:+ S)
    (hlen : last.len ≤ seg.len) (hle : seg.len ≤ last.len + data.length)
    (hseqno : seg.seqno = last.seqno) (hp : seg.p = last.p ++ data.take (seg.len - last.len)) :
    ∃ pos : ℕ, seg.seqno = first + (pos : Seq) ∧ pos + seg.len ≤ (S ++ data).length ∧
      seg.p = ((S ++ data).drop pos).take seg.len ∧ pos + last.len = S.length := by
  obtain ⟨pos, -, hwithin, hslice, -⟩ := hlast.2 hsyn
  have hplen : last.p.length = last.len := by
    rw [hslice, List.length_take_of_le]
    rw [List.length_drop]
    omega
  have hfront : S.length - last.len + last.len = S.length := Nat.sub_add_cancel (by omega)
  refine ⟨S.length - last.len, ?_, ?_, ?_, hfront⟩
  · have hcast : (S.length : Seq) = ((S.length - last.len : ℕ) : Seq) + (last.len : Seq) := by
      rw [← Nat.cast_add, hfront]
    rw [hcast, ← add_assoc] at hplace
    rw [hseqno]
    exact add_right_cancel hplace
  · rw [List.length_append]
    omega
  · have hdrop : S.drop (S.length - last.len) = last.p := by
      rw [← hplen]
      exact (List.suffix_iff_eq_drop.mp hsuffix).symm
    have hall : last.p.take seg.len = last.p := List.take_of_length_le (hplen ▸ hlen)
    rw [hp, List.drop_append_of_le_length (Nat.sub_le _ _), hdrop, List.take_append, hall, hplen]

/-- The last segment, with what phases 1 and 2 put there. -/
theorem extend_holds {last : OutSeg α} (hd : Drafted data pcb d) (hroom : pcb.RoomForText)
    (hmem : pcb.unsent.getLast? = some last) (hlast : last.Holds S first false)
    (hlbb : pcb.sndLbb = first + (S.length : Seq)) (htail : pcb.TailCurrent S) :
    (extend last d).Holds (S ++ data) first closed := by
  have hlength : d.copied.length + d.chained.length ≤ data.length := by
    have h := congrArg List.length hd.tail
    rw [List.length_append, List.length_take] at h
    omega
  constructor
  · intro hsyn
    replace hsyn : last.syn = true := hsyn
    obtain ⟨hlen, hfin⟩ := hlast.1 hsyn
    -- nothing is put behind a SYN
    have hcopied : d.copied = [] := by
      by_contra hne
      obtain ⟨last', hlast', hno⟩ := hroom (hd.copied hne)
      obtain rfl := Option.some.inj (hmem.symm.trans hlast')
      exact absurd hno (by rw [hsyn]; decide)
    have hchained : d.chained = [] := by
      by_contra hne
      obtain ⟨last', hlast', hpos⟩ := hd.chained hne
      obtain rfl := Option.some.inj (hmem.symm.trans hlast')
      omega
    refine ⟨?_, hfin⟩
    rw [extend, hcopied, hchained, hlen]
    rfl
  · intro hsyn
    obtain ⟨hplace, hsuffix⟩ := htail last hmem hsyn
    have hlen : (extend last d).len - last.len = d.copied.length + d.chained.length := by
      dsimp only [extend]
      omega
    obtain ⟨pos, hseqno, hle, hp, -⟩ := holds_tail (extend last d) data hlast hsyn
      (hplace.trans hlbb) hsuffix (by dsimp only [extend]; omega) (by dsimp only [extend]; omega) rfl
      (by rw [hlen, ← hd.tail, ← List.append_assoc]; rfl)
    refine ⟨pos, hseqno, hle, hp, fun hfin => ?_⟩
    obtain ⟨_, _, _, _, hend⟩ := hlast.2 hsyn
    obtain ⟨hfalse, -⟩ := hend hfin
    cases hfalse

/-- The new segments. -/
theorem Drafted.holds (hd : Drafted data pcb d) (hlbb : pcb.sndLbb = first + (S.length : Seq)) :
    ∀ seg ∈ d.queue, seg.Holds (S ++ data) first closed := by
  intro seg hseg
  obtain ⟨hsyn, hfin, off, hseqno, hlen, hp⟩ := hd.queue seg hseg
  refine ⟨fun h => ?_, fun _ => ⟨S.length + off, ?_, ?_, ?_, fun h => ?_⟩⟩
  · rw [hsyn] at h
    cases h
  · rw [hseqno, hlbb, Nat.cast_add, add_assoc]
  · rw [List.length_append]
    omega
  · rw [hp, List.drop_length_add_append]
  · rw [hfin] at h
    cases h

theorem commit_room (h : pcb.RoomForText) (hd : Drafted data pcb d) (len : ℕ)
    (hsyn : ∀ last ∈ pcb.unsent.getLast?, last.syn = true → last.len = 0) :
    (pcb.commit len d).RoomForText := by
  intro hne
  replace hne : d.oversize ≠ 0 := hne
  by_cases hqueue : d.queue = []
  · -- the last segment is the one that was there before
    have hlast : ∃ last ∈ pcb.unsent.getLast?, last.syn = false := by
      rcases hd.oversize hqueue hne with hold | hchained
      · exact h hold
      · obtain ⟨last, hlast, hpos⟩ := hd.chained hchained
        refine ⟨last, hlast, Bool.eq_false_iff.mpr fun htrue => ?_⟩
        rw [hsyn last hlast htrue] at hpos
        exact absurd hpos (lt_irrefl 0)
    obtain ⟨last, hlast, hno⟩ := hlast
    refine ⟨extend last d, ?_, hno⟩
    rw [commit, hqueue]
    dsimp only
    split
    · next front last' hunsent =>
      rw [unsnoc_eq hunsent, List.getLast?_concat] at hlast
      obtain rfl := Option.some.inj hlast
      rw [List.append_nil, List.getLast?_concat]
      rfl
    · next hnone =>
      rw [unsnoc_none hnone] at hlast
      cases hlast
  · obtain ⟨front, last, hsnoc⟩ := (d.queue.eq_nil_or_concat).resolve_left hqueue
    rw [List.concat_eq_append] at hsnoc
    refine ⟨last, ?_, (hd.queue last ?_).1⟩
    · rw [commit, hsnoc, ← List.append_assoc]
      exact List.getLast?_concat
    · rw [hsnoc]
      exact List.mem_append_right _ List.mem_cons_self

theorem commit_sending (h : pcb.Sending S first) (hopen : pcb.finQueued = false)
    (htail : pcb.TailCurrent S) (hd : Drafted data pcb d) :
    (pcb.commit data.length d).Sending (S ++ data) first := by
  have hlbb := h.sndLbb hopen
  have hold : ∀ seg ∈ pcb.queued, seg.Holds S first false := hopen ▸ h.queued
  refine ⟨fun seg hseg => ?_, fun _ => ?_, fun hclosed => ?_, ?_⟩
  · show seg.Holds (S ++ data) first pcb.finQueued
    simp only [queued, commit, List.mem_append] at hseg
    rcases hseg with hseg | hseg | hseg
    · exact (hold seg (List.mem_append_left _ hseg)).append data
    · split at hseg
      · next front last hunsent =>
        have hunsent := unsnoc_eq hunsent
        have hmem : pcb.unsent.getLast? = some last := by rw [hunsent, List.getLast?_concat]
        rcases List.mem_append.mp hseg with hseg | hseg
        · refine (hold seg (List.mem_append_right _ ?_)).append data
          rw [hunsent]
          exact List.mem_append_left _ hseg
        · obtain rfl := List.mem_singleton.mp hseg
          refine extend_holds hd h.room hmem (hold last ?_) hlbb htail
          exact List.mem_append_right _ (List.mem_of_getLast? hmem)
      · exact absurd hseg List.not_mem_nil
    · exact hd.holds hlbb seg hseg
  · rw [commit, hlbb, List.length_append, Nat.cast_add, add_assoc]
  · exact absurd (hopen.symm.trans hclosed) Bool.false_ne_true
  · refine commit_room h.room hd _ fun last hlast hsyn => ?_
    exact ((hold last (List.mem_append_right _ (List.mem_of_getLast? hlast))).1 hsyn).1

/-- `tcp_write` -/
theorem Sending.tcpWrite (h : pcb.Sending S first) (htail : pcb.TailCurrent S) (args : WriteArgs)
    (data : List α) :
    (pcb.tcpWrite args data).1.Sending
      (S ++ if (pcb.tcpWrite args data).2 = .ok then data else []) first := by
  have hkept : ∀ pcb' : Snd α, pcb'.Moves pcb → pcb'.state = pcb.state →
      pcb'.Sending (S ++ []) first := fun pcb' hmoves hstate => by
    rw [List.append_nil]
    exact h.moves hmoves fun hw => hstate ▸ hw
  rw [Snd.tcpWrite]
  split
  · exact hkept _ (.congr rfl rfl rfl rfl rfl) rfl
  · next err hne hchecks =>
    have herr : err ≠ .ok := by
      rintro rfl
      rw [tcpWriteChecks] at hchecks
      repeat' split at hchecks
      all_goals cases hchecks
    rw [if_neg herr]
    exact hkept _ (.refl pcb) rfl
  · next hchecks =>
    have hopen : pcb.finQueued = false := by
      refine h.open ?_
      rw [tcpWriteChecks] at hchecks
      split at hchecks
      · cases hchecks
      · next hstate =>
        cases hcase : pcb.state with
        | established | closeWait | synSent | synRcvd => rfl
        | closed | listen | finWait1 | finWait2 | closing | lastAck | timeWait =>
          rw [hcase] at hstate
          exact absurd (by decide) hstate
    split
    · exact hkept _ (.congr rfl rfl rfl rfl rfl) rfl
    · next d hd =>
      rw [if_pos rfl]
      exact commit_sending h hopen htail (segmentation_drafted hd)

/-! ### The FIN -/

theorem tcpEnqueueFlags_fin (h : pcb.Sending S first) (hopen : pcb.finQueued = false) (memory : Bool)
    {state : TcpState} (hstate : writable state = false)
    (hsent : (pcb.tcpEnqueueFlags memory false true).2 = true) :
    Sending S first { (pcb.tcpEnqueueFlags memory false true).1 with state := state } := by
  have hold : ∀ seg ∈ pcb.queued, seg.Holds S first false := hopen ▸ h.queued
  rw [tcpEnqueueFlags] at hsent ⊢
  split at hsent
  · cases hsent
  · next hlen =>
    rw [if_neg hlen]
    split at hsent
    · cases hsent
    · next hbuf =>
      rw [if_neg hbuf]
      split at hsent
      · cases hsent
      · next hmemory =>
        rw [if_neg hmemory]
        refine ⟨fun seg hseg => ?_, fun hno => ?_, fun _ => hstate, .of_zero rfl⟩
        · show seg.Holds S first (pcb.finQueued || true)
          rw [Bool.or_true]
          simp only [queued, List.mem_append, List.mem_singleton, ← or_assoc] at hseg
          rcases hseg with hseg | rfl
          · exact (hold seg (List.mem_append.mpr hseg)).close
          · refine ⟨Bool.noConfusion, fun _ => ⟨S.length, h.sndLbb hopen, le_rfl, ?_, fun _ => ⟨rfl, rfl⟩⟩⟩
            exact (List.take_zero).symm
        · replace hno : (pcb.finQueued || true) = false := hno
          rw [Bool.or_true] at hno
          cases hno

/-- The FIN comes with the last unsent segment or by itself, and the state follows. -/
theorem tcpSendFin_sending (h : pcb.Sending S first) (hopen : pcb.finQueued = false)
    (htail : pcb.TailCurrent S) (memory : Bool) {state : TcpState} (hstate : writable state = false)
    (hsent : (pcb.tcpSendFin memory).2 = true) :
    Sending S first { (pcb.tcpSendFin memory).1 with state := state } := by
  have hold : ∀ seg ∈ pcb.queued, seg.Holds S first false := hopen ▸ h.queued
  rw [tcpSendFin] at hsent ⊢
  split at hsent
  · next front last hunsent =>
    split at hsent
    · next hflags =>
      rw [if_pos hflags]
      exact tcpEnqueueFlags_fin h hopen memory hstate hsent
    · next hflags =>
      rw [if_neg hflags]
      have hunsent := unsnoc_eq hunsent
      have hmem : pcb.unsent.getLast? = some last := by rw [hunsent, List.getLast?_concat]
      have hsyn : last.syn = false := by
        rw [Bool.or_eq_true, not_or] at hflags
        exact Bool.eq_false_iff.mpr hflags.1
      have hlast := hold last (List.mem_append_right _ (List.mem_of_getLast? hmem))
      obtain ⟨hplace, hsuffix⟩ := htail last hmem hsyn
      refine ⟨fun seg hseg => ?_, Bool.noConfusion, fun _ => hstate, fun _ => ⟨{ last with fin := true }, ?_, hsyn⟩⟩
      · show seg.Holds S first true
        simp only [queued, List.mem_append, List.mem_singleton, ← or_assoc] at hseg
        rcases hseg with hseg | rfl
        · refine (hold seg ?_).close
          rw [queued, hunsent]
          simp only [List.mem_append]
          tauto
        · refine ⟨fun hno => absurd hno (by rw [hsyn]; decide), fun _ => ?_⟩
          obtain ⟨pos, hseqno, hle, hp, hend⟩ := holds_tail { last with fin := true } []
            hlast hsyn (hplace.trans (h.sndLbb hopen)) hsuffix le_rfl (Nat.le_add_right _ _) rfl (by simp)
          rw [List.append_nil] at hle hp
          exact ⟨pos, hseqno, hle, hp, fun _ => ⟨rfl, hend⟩⟩
      · exact List.getLast?_concat
  · exact tcpEnqueueFlags_fin h hopen memory hstate hsent

theorem sendFin_sending (h : pcb.Sending S first) (hopen : pcb.finQueued = false)
    (htail : pcb.TailCurrent S) (env : CallEnv) {state : TcpState} (hstate : writable state = false) :
    (pcb.sendFin env state).Sending S first := by
  rw [sendFin]
  dsimp only
  split
  · next hsent =>
    exact (tcpSendFin_sending h hopen htail env.memory hstate hsent).moves tcpOutput_moves
      fun hw => by rwa [tcpOutput_same.state] at hw
  · next hsent =>
    have hmoves : (pcb.tcpSendFin env.memory).1.Moves pcb := by
      rw [tcpSendFin, tcpEnqueueFlags] at hsent ⊢
      repeat' split
      all_goals first
        | exact .refl pcb
        | exact .congr rfl rfl rfl rfl rfl
        | simp_all
    exact h.moves hmoves fun hw => tcpSendFin_same.state ▸ hw

theorem Sending.tcpCloseShutdown (h : pcb.Sending S first) (htail : pcb.TailCurrent S) (env : CallEnv)
    (rst : Bool) : (pcb.tcpCloseShutdown env rst).Sending S first := by
  rw [Snd.tcpCloseShutdown]
  split
  · refine h.moves leave_moves fun hw => ?_
    split at hw <;> cases hw
  · split
    · exact h.moves leave_moves nofun
    · next hstate => exact sendFin_sending h (h.open (by rw [hstate]; rfl)) htail env rfl
    · next hstate => exact sendFin_sending h (h.open (by rw [hstate]; rfl)) htail env rfl
    · next hstate => exact sendFin_sending h (h.open (by rw [hstate]; rfl)) htail env rfl
    · exact h

/-! ### Runs -/

/-- What the application adds to the stream. -/
def added (pcb : Snd α) : Event α → List α
  | .write args data => if (pcb.tcpWrite args data).2 = .ok then data else []
  | _ => []

/-- The call finds no segment at the end of `unsent` that has been overtaken. -/
def Orderly (S : List α) (pcb : Snd α) : Event α → Prop
  | .write _ _ | .close _ _ => pcb.TailCurrent S
  | _ => True

theorem Sending.exec (mtu : Option ℕ) (h : pcb.Sending S first) {e : Event α} (hok : pcb.Orderly S e) :
    (pcb.exec mtu e).Sending (S ++ pcb.added e) first := by
  have hall : pcb.Sending (S ++ []) first := by rwa [List.append_nil]
  cases e with
  | write args data => exact h.tcpWrite hok args data
  | arrive seg =>
    rw [Snd.exec]
    split
    · exact hall.moves tcpProcess_moves tcpProcess_writable
    · exact hall
  | output acked =>
    have hsame : (pcb.tcpOutput acked).SameLimits pcb := tcpOutput_same
    exact hall.moves tcpOutput_moves fun hw => hsame.state ▸ hw
  | close env rst =>
    have hclose := h.tcpCloseShutdown hok env rst
    rw [← List.append_nil S] at hclose
    exact hclose
  | slowtmr env expired remove =>
    rw [Snd.exec]
    split
    · exact hall.moves tcpSlowtmr_moves tcpSlowtmr_writable
    · exact hall
  | ackNow => exact hall.moves (.congr rfl rfl rfl rfl rfl) id

/-- A new pcb has nothing on its queues. -/
structure Blank (pcb : Snd α) : Prop where
  unsent : pcb.unsent = []
  unacked : pcb.unacked = []
  finQueued : pcb.finQueued = false
  sndQueuelen : pcb.sndQueuelen = 0
  sndBuf : pcb.sndBuf = tcpSndBuf

/-- Behind the SYN begins the stream. -/
theorem Blank.syn (h : pcb.Blank) (state : TcpState) (acked : Bool) :
    Sending [] (pcb.sndLbb + 1)
      (tcpOutput acked { (pcb.tcpEnqueueFlags true true false).1 with state := state }) ∧
    (tcpOutput acked { (pcb.tcpEnqueueFlags true true false).1 with state := state }).finQueued =
      false := by
  have hroom : ¬tcpSndQueuelen ≤ pcb.sndQueuelen := by
    rw [h.sndQueuelen]
    decide
  have hbuf : pcb.sndBuf ≠ 0 := by
    rw [h.sndBuf]
    decide
  have hsyn : Sending [] (pcb.sndLbb + 1)
      { (pcb.tcpEnqueueFlags true true false).1 with state := state } := by
    rw [tcpEnqueueFlags, if_neg hroom, if_neg hbuf, if_neg Bool.noConfusion]
    refine ⟨fun seg hseg => ?_, fun _ => (add_zero _).symm, fun hclosed => ?_, .of_zero rfl⟩
    · simp only [queued, h.unacked, h.unsent, List.nil_append, List.mem_singleton] at hseg
      subst hseg
      exact ⟨fun _ => ⟨rfl, rfl⟩, Bool.noConfusion⟩
    · replace hclosed : (pcb.finQueued || false) = true := hclosed
      rw [h.finQueued] at hclosed
      cases hclosed
  refine ⟨hsyn.moves tcpOutput_moves fun hw => by rwa [tcpOutput_same.state] at hw, ?_⟩
  rw [tcpOutput_moves.finQueued, tcpEnqueueFlags, if_neg hroom, if_neg hbuf, if_neg Bool.noConfusion]
  show (pcb.finQueued || false) = false
  rw [h.finQueued]
  rfl

theorem sending_start {mtu : Option ℕ} (h : (sending α mtu).start pcb) : pcb.Sending [] pcb.sndLbb := by
  have hstart : ∃ first, pcb.Sending [] first ∧ pcb.finQueued = false := by
    rcases h with ⟨iss, acked, rfl⟩ | ⟨iss, seg, acked, rfl⟩
    · have hblank : (connecting (α := α) mtu iss).Blank := ⟨rfl, rfl, rfl, rfl, rfl⟩
      exact ⟨_, hblank.syn .synSent acked⟩
    · have hblank : (created (α := α) mtu iss seg).Blank := by
        rw [created]
        cases seg.mss <;> exact ⟨rfl, rfl, rfl, rfl, rfl⟩
      exact ⟨_, hblank.syn ((created mtu iss seg).tcpEnqueueFlags true true false).1.state acked⟩
  obtain ⟨first, hfirst, hopen⟩ := hstart
  have hlbb := hfirst.sndLbb hopen
  rw [List.length_nil, Nat.cast_zero, add_zero] at hlbb
  rwa [hlbb]

end Snd

/-- The window a peer with `TCP_WND` bytes of room announces -/
theorem tcpWnd_lt : 4096 < 65536 := by decide

end QuietLwip.Sender
