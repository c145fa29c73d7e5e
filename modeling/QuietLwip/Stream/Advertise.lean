import QuietLwip.Stream.OutOfOrder

/-!
# The window that is advertised

Every outgoing segment carries `rcv_ann_wnd`, and the right edge that the peer reads from it is
recorded in `rcv_ann_right_edge`. The edge never moves back and never passes the window, as long as
it is not half of the number space behind the window.
-/

namespace QuietLwip.Stream

open Serial Word Tcp

variable {α : Type*} {R R' E cur p : ℤ} {n : ℕ} {inseg : Seg α} {pcb pcb' : Rcv α}
  {r : Received α} {q : List (Seg α)} {env : Answers}

/-- `tcphdr->wnd` of an outgoing segment. -/
def Rcv.headerWnd (pcb : Rcv α) : ℕ := u16 pcb.rcvAnnWnd

/-- The right edge of the window is `R`, the next byte is at `cur`, and `E` is the right edge that
was announced last. -/
structure Announcing (R E cur : ℤ) (pcb : Rcv α) : Prop where
  rcvNxt : pcb.rcvNxt = (cur : Seq)
  edge : pcb.rcvAnnRightEdge = (E : Seq)
  right : cur + pcb.rcvWnd = R
  small : pcb.rcvWnd ≤ tcpWnd
  lo : E ≤ R
  near : R < E + 2147483648

/-- The next segment announces an edge from `E` to `R`. -/
structure Announced (R E cur : ℤ) (pcb : Rcv α) : Prop extends Announcing R E cur pcb where
  onward : E ≤ cur + pcb.rcvAnnWnd
  inside : cur + pcb.rcvAnnWnd ≤ R

/-- The fields that the window is made of. -/
def Rcv.view (pcb : Rcv α) : Seq × Seq × ℕ × ℕ :=
  (pcb.rcvNxt, pcb.rcvAnnRightEdge, pcb.rcvWnd, pcb.rcvAnnWnd)

theorem Announced.congr (h : Announced R E cur pcb) (hview : pcb'.view = pcb.view) :
    Announced R E cur pcb' := by
  obtain ⟨hnxt, hedge, hwnd, hann⟩ : pcb'.rcvNxt = pcb.rcvNxt ∧
      pcb'.rcvAnnRightEdge = pcb.rcvAnnRightEdge ∧ pcb'.rcvWnd = pcb.rcvWnd ∧
        pcb'.rcvAnnWnd = pcb.rcvAnnWnd := by
    simpa [Rcv.view] using hview
  obtain ⟨⟨hnxt', hedge', hright, hsmall, hlo, hnear⟩, honward, hinside⟩ := h
  exact ⟨⟨hnxt.trans hnxt', hedge.trans hedge', hwnd ▸ hright, hwnd ▸ hsmall, hlo, hnear⟩,
    hann ▸ honward, hann ▸ hinside⟩

/-- A segment goes out. -/
theorem Announced.announce (h : Announced R E cur pcb) :
    Announced R (cur + pcb.rcvAnnWnd) cur pcb.announce := by
  obtain ⟨⟨hnxt, -, hright, hsmall, -, hnear⟩, honward, hinside⟩ := h
  refine ⟨⟨hnxt, ?_, hright, hsmall, hinside, by omega⟩, le_rfl, hinside⟩
  show pcb.rcvNxt + pcb.rcvAnnWnd = ((cur + pcb.rcvAnnWnd : ℤ) : Seq)
  rw [hnxt, place_add]

/-- What is announced next is brought up to date, and the assertion holds. -/
theorem Announcing.update (h : Announcing R E cur pcb) :
    ∃ (ann w : ℕ), pcb.tcpUpdateRcvAnnWnd = .ok ({ pcb with rcvAnnWnd := ann }, w) ∧
      Announced R E cur { pcb with rcvAnnWnd := ann } := by
  obtain ⟨hnxt, hedge, hright, hsmall, hlo, hnear⟩ := h
  have hstep : min (tcpWnd / 2) pcb.mss ≤ tcpWnd / 2 := min_le_left _ _
  unfold tcpWnd at hsmall hstep
  have hbase : ∀ ann, Announcing R E cur { pcb with rcvAnnWnd := ann } :=
    fun _ => ⟨hnxt, hedge, hright, by unfold tcpWnd; exact hsmall, hlo, hnear⟩
  have hgeq : tcpSeqGeq pcb.rightEdge (pcb.rcvAnnRightEdge + (min (tcpWnd / 2) pcb.mss : ℕ)) =
      decide (E + (min (tcpWnd / 2) pcb.mss : ℕ) ≤ R) := by
    rw [Rcv.rightEdge, hnxt, place_add, hright, hedge, place_add]
    rw [tcpWnd]
    exact tcpSeqGeq_place (by omega) (by omega)
  have hgt : tcpSeqGt pcb.rcvNxt pcb.rcvAnnRightEdge = decide (E < cur) := by
    rw [hnxt, hedge]
    exact tcpSeqGt_place (by omega) (by omega)
  rw [Rcv.tcpUpdateRcvAnnWnd]
  dsimp only
  rw [hgeq, hgt]
  split
  · exact ⟨_, _, rfl, hbase _, by dsimp only; omega, hright.le⟩
  · split
    · next hpassed =>
      have hpassed := of_decide_eq_true hpassed
      exact ⟨0, 0, rfl, hbase 0, by dsimp only; omega, by dsimp only; omega⟩
    · next hpassed =>
      have hpassed : ¬E < cur := by simpa using hpassed
      have hwnd : (pcb.rcvAnnRightEdge - pcb.rcvNxt).toNat = (E - cur).toNat := by
        rw [hedge, hnxt, toNat_sub_place (by omega) (by omega)]
      rw [hwnd, if_pos (by omega)]
      exact ⟨_, _, rfl, hbase _, by dsimp only; omega, by dsimp only; omega⟩

/-- What a segment does: the edge may move on, and the right edge of the window stays. -/
def Announces (R E cur : ℤ) (pcb : Rcv α) : Prop :=
  ∃ E' cur', E ≤ E' ∧ cur ≤ cur' ∧ Announced R E' cur' pcb

theorem Announced.announces (h : Announced R E cur pcb) : Announces R E cur pcb :=
  ⟨E, cur, le_rfl, le_rfl, h⟩

/-- `tcp_send_empty_ack`. -/
theorem Announced.tcpSendEmptyAck (h : Announced R E cur pcb) :
    Announces R E cur (pcb.tcpSendEmptyAck env) := by
  rw [Rcv.tcpSendEmptyAck]
  split
  · exact ⟨_, cur, h.onward, le_rfl, h.announce⟩
  · exact h.announces

theorem Announces.congr (h : Announces R E cur pcb) (hview : pcb'.view = pcb.view) :
    Announces R E cur pcb' := by
  obtain ⟨E', cur', hE, hcur, h⟩ := h
  exact ⟨E', cur', hE, hcur, h.congr hview⟩

theorem Announces.trans {E' cur' : ℤ} (hE : E ≤ E') (hcur : cur ≤ cur')
    (h : Announces R E' cur' pcb) : Announces R E cur pcb := by
  obtain ⟨E'', cur'', hE', hcur', h⟩ := h
  exact ⟨E'', cur'', hE.trans hE', hcur.trans hcur', h⟩

/-- The assertion about the announced window holds, and the window is as `Announces` says. -/
def Keeps (R E cur : ℤ) : Except Fault (Rcv α × Received α) → Prop :=
  Ends (· ≠ .newRcvAnnWnd) fun x => Announces R E cur x.1

/-! ### Text in sequence -/

/-- Text that is taken moves the next byte on, and the window behind it stays. -/
theorem Announcing.take (h : Announcing R E cur pcb) (hn : n ≤ pcb.rcvWnd) :
    Announcing R E (cur + n) { pcb with rcvNxt := pcb.rcvNxt + n, rcvWnd := pcb.rcvWnd - n } := by
  obtain ⟨hnxt, hedge, hright, hsmall, hlo, hnear⟩ := h
  refine ⟨?_, hedge, ?_, (Nat.sub_le _ _).trans hsmall, hlo, hnear⟩
  · show pcb.rcvNxt + n = ((cur + n : ℤ) : Seq)
    rw [hnxt, place_add]
  · dsimp only
    omega

theorem dequeue_keeps (h : Announced R E cur pcb) : Keeps R E cur (pcb.dequeue r q) := by
  induction q generalizing pcb r cur with
  | nil =>
    show Announces R E cur { pcb with ooseq := [] }
    exact h.announces.congr rfl
  | cons cseg rest ih =>
    rw [Rcv.dequeue]
    split
    · split
      · exact nofun
      · next hwnd =>
        obtain ⟨ann, w, hupd, hnew⟩ := (h.toAnnouncing.take (Nat.not_lt.mp hwnd)).update
        rw [hupd]
        have hmore : Announced R E (cur + cseg.tcplen)
            (if cseg.fin && pcb.state == .established then { { pcb with
              rcvNxt := pcb.rcvNxt + cseg.tcplen, rcvWnd := pcb.rcvWnd - cseg.tcplen,
              rcvAnnWnd := ann } with state := .closeWait } else { pcb with
              rcvNxt := pcb.rcvNxt + cseg.tcplen, rcvWnd := pcb.rcvWnd - cseg.tcplen,
              rcvAnnWnd := ann }) := by
          split
          · exact hnew.congr rfl
          · exact hnew
        exact (ih hmore).mono fun x hx => hx.trans le_rfl (by omega)
    · show Announces R E cur { pcb with ooseq := cseg :: rest }
      exact h.announces.congr rfl

theorem takeInSequence_keeps (h : Announced R E cur pcb) (hs : inseg.seqno = pcb.rcvNxt) :
    Keeps R E cur (pcb.takeInSequence inseg) := by
  rw [Rcv.takeInSequence]
  cases htrim : pcb.trimToRcvWnd inseg with
  | error f =>
    obtain rfl := Rcv.trimToRcvWnd_error htrim
    exact nofun
  | ok trimmed =>
    cases hadjust : Rcv.adjustOoseq trimmed pcb.ooseq with
    | error f =>
      obtain rfl := Rcv.adjustOoseq_error hadjust
      show Keeps R E cur (Rcv.adjustOoseq trimmed pcb.ooseq >>= _)
      rw [hadjust]
      exact nofun
    | ok x =>
      obtain ⟨cseg, q⟩ := x
      have hplace : cseg.seqno = pcb.rcvNxt := by
        rw [Rcv.adjustOoseq_seqno hadjust, Rcv.trimToRcvWnd_seqno htrim, hs]
      show Keeps R E cur (Rcv.adjustOoseq trimmed pcb.ooseq >>= _)
      rw [hadjust]
      show Keeps R E cur (if pcb.rcvWnd < cseg.tcplen then _ else _)
      split
      · exact nofun
      · next hwnd =>
        obtain ⟨ann, w, hupd, hnew⟩ := (h.toAnnouncing.take (Nat.not_lt.mp hwnd)).update
        rw [hplace, hupd]
        refine (dequeue_keeps (hnew.congr rfl)).bind fun x hx => ?_
        refine (hx.trans le_rfl (by omega)).congr ?_
        rw [Rcv.tcpAck]
        split <;> rfl

/-! ### A segment -/

theorem takeOutOfSequence_keeps (h : Announced R E cur pcb) :
    Keeps R E cur ((pcb.takeOutOfSequence env inseg).map (·, {})) := by
  have hack : Announces R E cur (pcb.tcpSendEmptyAck env) := h.tcpSendEmptyAck
  unfold Rcv.takeOutOfSequence
  dsimp only
  split
  · exact hack.congr rfl
  · cases hqueue : (pcb.tcpSendEmptyAck env).queueOoseq env inseg none
        (pcb.tcpSendEmptyAck env).ooseq with
    | error f =>
      obtain rfl := lastCopy_error (queueOoseq_error hqueue).2
      exact nofun
    | ok q => exact hack.congr rfl

theorem trimOld_keeps : Ends (· ≠ .newRcvAnnWnd) (fun _ => True) (pcb.trimOld inseg) := by
  rw [Rcv.trimOld]
  split
  · unfold Rcv.trimFirstEdge
    dsimp only
    split
    · split
      · exact nofun
      · trivial
    · exact nofun
  · trivial

theorem tcpReceive_keeps (h : Announced R E cur pcb) :
    Keeps R E cur (pcb.tcpReceive env inseg) := by
  rw [Rcv.tcpReceive]
  split
  · split
    · refine trimOld_keeps.bind fun x _ => ?_
      obtain ⟨cseg, dup⟩ := x
      have hold : Announced R E cur (pcb.answerOld dup) := by
        cases dup
        · exact h
        · exact h.congr rfl
      show Keeps R E cur ((pcb.answerOld dup).takeTrimmed env cseg)
      rw [Rcv.takeTrimmed]
      split
      · split
        · next hnext => exact takeInSequence_keeps hold hnext.symm
        · exact takeOutOfSequence_keeps hold
      · exact hold.tcpSendEmptyAck
    · split
      · exact h.announces
      · exact h.announces.congr rfl
  · exact nofun

theorem tcpProcess_keeps {arr : Arrival α} (h : Announced R E cur pcb) :
    Keeps R E cur (pcb.tcpProcess env arr) := by
  have hmss : Announced R E cur (pcb.setMss arr.mss) := by
    cases arr.mss <;> exact h.congr rfl
  have hrec : Keeps R E cur ((pcb.setMss arr.mss).tcpReceive env arr.inseg) :=
    tcpReceive_keeps hmss
  rw [Rcv.tcpProcess]
  split
  · exact h.announces.congr rfl
  dsimp only
  split
  · split
    · split
      · have hopen : Announced R E cur { pcb.setMss arr.mss with state := .established } :=
          hmss.congr rfl
        refine (tcpReceive_keeps hopen).bind fun x hx => ?_
        refine hx.congr ?_
        dsimp only
        split <;> rfl
      · exact hmss.announces.congr rfl
    · exact hmss.announces
  · refine hrec.bind fun x hx => ?_
    refine hx.congr ?_
    dsimp only
    split <;> rfl
  · refine hrec.bind fun x hx => ?_
    refine hx.congr ?_
    dsimp only
    split <;> rfl
  · refine hrec.bind fun x hx => ?_
    split
    · split
      · exact hx.congr rfl
      · exact hx.congr rfl
    · split
      · exact hx.congr rfl
      · exact hx
  · refine hrec.bind fun x hx => ?_
    refine hx.congr ?_
    dsimp only
    split <;> rfl
  · refine hrec.bind fun x hx => ?_
    refine hx.congr ?_
    dsimp only
    split <;> rfl
  · refine hrec.bind fun x hx => ?_
    refine hx.congr ?_
    dsimp only
    split <;> rfl
  · exact hmss.announces

/-! ### Runs -/

variable {irs : Seq} {t t' : Session α} {e : Event α} {es : List (Event α)}

/-- The connections whose first byte has the sequence number `irs`, as the two handshakes leave
them: nothing has been announced yet. -/
def advertising (α : Type*) (irs : Seq) : Transition.System (Session α) (Event α) where
  start t := t.Fresh irs ∧ t.pcb.rcvAnnWnd = tcpWnd ∧ t.pcb.rcvAnnRightEdge = irs
  step t e t' := t.exec e = .ok t'

/-- The right edge of the window is never moved half of the number space past the edge that was
announced last. -/
def StaysNear (t : Session α) : Event α → Prop
  | .recved len =>
    (t.pcb.rcvNxt + (min (t.pcb.rcvWnd + len) tcpWnd : ℕ) - t.pcb.rcvAnnRightEdge).toNat <
      2147483648
  | .correctWnd =>
    (t.pcb.rcvNxt + (min (t.pcb.rcvWnd + 1) tcpWnd : ℕ) - t.pcb.rcvAnnRightEdge).toNat <
      2147483648
  | _ => True

/-- The window grows. -/
theorem Announced.grow (h : Announced R E cur pcb) {w : ℕ} (hle : pcb.rcvWnd ≤ w) (hw : w ≤ tcpWnd)
    (hnear : (pcb.rcvNxt + (w : Seq) - pcb.rcvAnnRightEdge).toNat < 2147483648) :
    Announced (cur + w) E cur { pcb with rcvWnd := w } := by
  obtain ⟨⟨hnxt, hedge, hright, hsmall, hlo, hnear'⟩, honward, hinside⟩ := h
  have hw' := hw
  unfold tcpWnd at hw'
  rw [hnxt, hedge, place_add, toNat_sub_place (by omega) (by omega)] at hnear
  refine ⟨⟨hnxt, hedge, rfl, hw, by omega, by omega⟩, honward, ?_⟩
  dsimp only
  omega

/-- The window, with the edge announced last at the place `E`. -/
def Session.At (E : ℤ) (t : Session α) : Prop := ∃ R cur, Announced R E cur t.pcb

/-- What an event does to the edge. -/
def Session.Onward (E : ℤ) (t : Session α) : Prop :=
  ∃ E', E ≤ E' ∧ E' < E + 2147483648 ∧ t.At E'

theorem Session.At.onward (h : t.At E) : t.Onward E := ⟨E, le_rfl, by omega, h⟩

theorem Announces.onward (h : Announces R E cur t.pcb) (hnear : R < E + 2147483648) :
    t.Onward E := by
  obtain ⟨E', cur', hE, -, h⟩ := h
  have hlo := h.lo
  exact ⟨E', hE, by omega, R, cur', h⟩

theorem Session.At.exec (ht : t.At E) (hok : StaysNear t e) :
    Ends (· ≠ .newRcvAnnWnd) (Session.Onward E) (t.exec e) := by
  obtain ⟨R, cur, h⟩ := ht
  have hright := h.right
  have hsmall := h.small
  cases e with
  | segment arr env =>
    refine (tcpProcess_keeps h).map fun x hx => ?_
    exact Announces.onward hx h.near
  | recved len =>
    have hgrow := h.grow (w := min (t.pcb.rcvWnd + len) tcpWnd) (by omega) (by omega) hok
    obtain ⟨ann, w, hupd, hnew⟩ := hgrow.toAnnouncing.update
    show Ends _ _ ((t.pcb.tcpRecved len).map _)
    rw [Rcv.tcpRecved]
    split
    · rw [hupd]
      refine Session.At.onward ⟨_, cur, hnew.congr ?_⟩
      dsimp only
      split <;> rfl
    · exact nofun
  | correctWnd =>
    show Session.Onward E (if t.gotFin && !t.corrected then t.correctWnd else t)
    split
    · have hgrow := h.grow (w := min (t.pcb.rcvWnd + 1) tcpWnd) (by omega) (by omega) hok
      obtain ⟨-, -, -, hwnd⟩ := Session.correctWnd_spec hsmall
      refine Session.At.onward ⟨_, cur, hgrow.congr ?_⟩
      rw [Rcv.view, hwnd]
      rw [Session.correctWnd]
      dsimp only
      split <;> rfl
    · exact Session.At.onward ⟨R, cur, h⟩
  | output =>
    show Session.Onward E { t with pcb := t.pcb.announce }
    have hout : Announces R E cur t.pcb.announce := ⟨_, cur, h.onward, le_rfl, h.announce⟩
    exact hout.onward h.near
  | close =>
    show Session.Onward E { t with pcb := Session.closed t.pcb }
    refine Session.At.onward ⟨R, cur, h.congr ?_⟩
    rw [Session.closed]
    split <;> rfl

/-- The header of the next segment announces the window that is recorded, without truncation. The
edge that was announced last is not behind that one, nor that one behind the window, and no event
moves it back or makes the assertion fail. -/
structure Session.Advertised (ok : Session α → Event α → Prop) (t : Session α) : Prop where
  header : t.pcb.headerWnd = t.pcb.rcvAnnWnd
  recorded : t.pcb.rcvNxt + (t.pcb.headerWnd : Seq) = t.pcb.announce.rcvAnnRightEdge
  onward : tcpSeqLeq t.pcb.rcvAnnRightEdge t.pcb.announce.rcvAnnRightEdge = true
  within : tcpSeqLeq t.pcb.announce.rcvAnnRightEdge t.pcb.rightEdge = true
  inside : t.pcb.rcvAnnWnd ≤ t.pcb.rcvWnd
  next : ∀ e, ok t e → Ends (· ≠ .newRcvAnnWnd)
    (fun t' => tcpSeqLeq t.pcb.rcvAnnRightEdge t'.pcb.rcvAnnRightEdge = true ∧
      tcpSeqLeq t'.pcb.rcvAnnRightEdge t'.pcb.rightEdge = true) (t.exec e)

theorem Session.Advertised.not_fault {ok : Session α → Event α → Prop} {f : Fault}
    (ht : t.Advertised ok) (hok : ok t e) (h : t.exec e = .error f) : f ≠ .newRcvAnnWnd :=
  (ht.next e hok).error h

theorem Session.At.within (ht : t.At E) :
    tcpSeqLeq t.pcb.rcvAnnRightEdge t.pcb.rightEdge = true := by
  obtain ⟨R, cur, h⟩ := ht
  have hlo := h.lo
  have hnear := h.near
  rw [Rcv.rightEdge, h.rcvNxt, h.edge, place_add, h.right, tcpSeqLeq_place (by omega) (by omega)]
  exact decide_eq_true hlo

theorem Session.At.edge (ht : t.At E) : t.pcb.rcvAnnRightEdge = (E : Seq) := by
  obtain ⟨R, cur, h⟩ := ht
  exact h.edge

theorem Session.At.advertised (ht : t.At E) : t.Advertised StaysNear := by
  have hedge := ht.edge
  have hnext : ∀ e, StaysNear t e → Ends (· ≠ .newRcvAnnWnd)
      (fun t' => tcpSeqLeq t.pcb.rcvAnnRightEdge t'.pcb.rcvAnnRightEdge = true ∧
        tcpSeqLeq t'.pcb.rcvAnnRightEdge t'.pcb.rightEdge = true) (t.exec e) := by
    intro e hok
    refine (ht.exec hok).mono ?_
    rintro t' ⟨E', hle, hlt, ht'⟩
    refine ⟨?_, ht'.within⟩
    rw [hedge, ht'.edge, tcpSeqLeq_place (by omega) (by omega)]
    exact decide_eq_true hle
  obtain ⟨R, cur, h⟩ := ht
  obtain ⟨⟨hnxt, -, hright, hsmall, hlo, hnear⟩, honward, hinside⟩ := h
  unfold tcpWnd at hsmall
  have hheader : t.pcb.headerWnd = t.pcb.rcvAnnWnd := by
    have hcast := u16_natCast (n := t.pcb.rcvAnnWnd) (by omega)
    exact hcast
  have hnew : t.pcb.announce.rcvAnnRightEdge = ((cur + t.pcb.rcvAnnWnd : ℤ) : Seq) := by
    show t.pcb.rcvNxt + t.pcb.rcvAnnWnd = ((cur + t.pcb.rcvAnnWnd : ℤ) : Seq)
    rw [hnxt, place_add]
  refine ⟨hheader, ?_, ?_, ?_, by omega, hnext⟩
  · rw [hheader]
    rfl
  · rw [hedge, hnew, tcpSeqLeq_place (by omega) (by omega)]
    exact decide_eq_true honward
  · rw [hnew, Rcv.rightEdge, hnxt, place_add, tcpSeqLeq_place (by omega) (by omega)]
    exact decide_eq_true (by omega)

/-- The advertised window never shrinks in a run whose window stays near the edge that was announced
last. -/
theorem window_advertised (h : (advertising α irs).Run StaysNear es t) : t.Advertised StaysNear := by
  obtain ⟨i, hirs, -⟩ := exists_place irs 0
  have hat : ∃ E, t.At E := by
    refine h.invariant (I := fun _ t => ∃ E, t.At E) (fun t ht => ?_) fun es t e t' _ ht hok hstep => ?_
    · obtain ⟨⟨-, hnxt, hwnd, -⟩, hann, hedge⟩ := ht
      refine ⟨i, i + tcpWnd, i, ⟨hnxt.trans hirs.symm, hedge.trans hirs.symm, by rw [hwnd], hwnd.le,
        ?_, ?_⟩, ?_, by rw [hann]⟩
      · rw [tcpWnd]
        omega
      · rw [tcpWnd]
        omega
      · omega
    · obtain ⟨E, ht⟩ := ht
      obtain ⟨E', -, -, ht'⟩ := (ht.exec hok).ok hstep
      exact ⟨E', ht'⟩
  obtain ⟨E, hat⟩ := hat
  exact hat.advertised

theorem window_advertised_read :
    ∃ es t, (advertising ℕ 7).Run StaysNear es t ∧ es.length = 3 ∧ t.given = [1] ∧
      t.Advertised StaysNear := by
  have hstart : (advertising ℕ 7).start (openSession 7) := ⟨openSession_fresh, rfl, rfl⟩
  obtain ⟨t, ht, hnear, t', ht', hgiven⟩ :
      ∃ t, ((openSession 7).exec .output >>= fun t => t.exec (bytesAt 7 0 [1] false (by decide))) =
        .ok t ∧ StaysNear t (.recved 1) ∧ ∃ t', t.exec (.recved 1) = .ok t' ∧ t'.given = [1] := by
    refine ⟨_, rfl, ?_, _, rfl, rfl⟩
    rw [StaysNear]
    decide
  obtain ⟨s, hs, ht⟩ := bind_ok ht
  have hrun : (advertising ℕ 7).Run StaysNear
      ([] ++ [.output] ++ [bytesAt 7 0 [1] false (by decide)] ++ [.recved 1]) t' :=
    .snoc (.snoc (.snoc (.start hstart) trivial hs) trivial ht) hnear ht'
  exact ⟨_, t', hrun, rfl, hgiven, window_advertised hrun⟩

/-! ### A window that is never announced -/

/-- Text that is next in sequence and fits in the window, when nothing waits on `ooseq`. -/
theorem tcpReceive_whole (hstate : pcb.state = .established) (hooseq : pcb.ooseq = [])
    (hs : inseg.seqno = pcb.rcvNxt) (hsyn : inseg.syn = false) (hfin : inseg.fin = false)
    (hpos : 0 < inseg.len) (hle : inseg.len ≤ pcb.rcvWnd) (hsmall : pcb.rcvWnd ≤ tcpWnd)
    (hupd : { pcb with
        rcvNxt := pcb.rcvNxt + inseg.len
        rcvWnd := pcb.rcvWnd - inseg.len }.tcpUpdateRcvAnnWnd = .ok (pcb', w)) :
    pcb.tcpReceive env inseg =
      .ok ({ pcb' with ooseq := [] }.tcpAck, { recvData := inseg.p, gotFin := false }) := by
  obtain ⟨cur, hcur, -⟩ := exists_place pcb.rcvNxt 0
  unfold tcpWnd at hsmall
  have hlen : inseg.tcplen = inseg.len := Seg.tcplen_plain hfin hsyn
  have hold : pcb.trimOld inseg = .ok (inseg, false) := by
    rw [Rcv.trimOld]
    rw [hs, ← hcur, place_add_one, tcpSeqBetween, tcpSeqGeq_place (by omega) (by omega),
      tcpSeqLt_place (by omega) (by omega), decide_eq_false (by omega), Bool.false_and,
      decide_eq_false (by omega)]
    rfl
  have hin : pcb.inWindow inseg.seqno = true := by
    rw [Rcv.inWindow, Rcv.rightEdge, hs, ← hcur, place_add, place_sub_one,
      tcpSeqBetween_place (by omega) (by omega) (by omega) (by omega)]
    exact decide_eq_true (by omega)
  have htrim : pcb.trimToRcvWnd inseg = .ok inseg := by
    rw [Rcv.trimToRcvWnd]
    rw [if_neg (by omega)]
  have hadjust : Rcv.adjustOoseq inseg pcb.ooseq = .ok (inseg, []) := by
    rw [Rcv.adjustOoseq]
    rw [hfin, hooseq]
    rfl
  rw [Rcv.tcpReceive]
  rw [hstate, hlen]
  show (if inseg.len > 0 && true then pcb.takeText env inseg else _) = _
  rw [if_pos (by simpa using hpos)]
  rw [Rcv.takeText]
  rw [hold]
  show pcb.takeTrimmed env inseg = _
  rw [Rcv.takeTrimmed]
  rw [if_pos hin, if_pos hs.symm]
  rw [Rcv.takeInSequence]
  rw [htrim]
  show (Rcv.adjustOoseq inseg pcb.ooseq >>= _) = _
  rw [hadjust]
  show (if pcb.rcvWnd < inseg.tcplen then _ else _) = _
  rw [if_neg (by omega), hs, hlen, hupd, hfin]
  rfl
/-- A segment without FIN in `ESTABLISHED`. -/
theorem exec_established {arr : Arrival α} (hstate : t.pcb.state = .established)
    (hsyn : arr.syn = false) (hmss : arr.mss = none)
    (h : t.pcb.tcpReceive env arr.inseg = .ok (pcb', r)) (hfin : r.gotFin = false) :
    t.exec (.segment arr env) = .ok (t.took pcb' r) := by
  have hproc : t.pcb.tcpProcess env arr = .ok (pcb', r) := by
    unfold Rcv.tcpProcess Rcv.setMss
    rw [hsyn, hmss]
    dsimp only
    rw [hstate, h]
    show (Except.ok (if r.gotFin then _ else pcb', r) : Except Fault _) = _
    rw [hfin]
    rfl
  show (t.pcb.tcpProcess env arr).map _ = _
  rw [hproc]
  rfl

/-- Text that fills the window. -/
def windowful : List ℕ := List.replicate 4096 0

theorem windowful_length : windowful.length = 4096 := by
  rw [windowful, List.length_replicate]

/-- A connection that has taken `n` windowfuls and given them back, and that could never send. -/
def unannounced (n : ℕ) (given : List ℕ) : Session ℕ where
  pcb :=
    { state := .established
      rcvNxt := ((4096 * n : ℤ) : Seq)
      rcvWnd := tcpWnd
      rcvAnnWnd := tcpWnd
      rcvAnnRightEdge := 0
      mss := tcpMss
      ackDelay := n % 2 == 1
      ackNow := decide (0 < n) }
  given := given

/-- The same connection with one windowful more. -/
def filled (n : ℕ) (given : List ℕ) : Session ℕ where
  pcb :=
    { state := .established
      rcvNxt := ((4096 * (n + 1) : ℤ) : Seq)
      rcvWnd := 0
      rcvAnnWnd := 0
      rcvAnnRightEdge := 0
      mss := tcpMss
      ackDelay := (n + 1) % 2 == 1
      ackNow := decide (0 < n) }
  given := given
  unread := 4096

/-- Windowfuls one after the other. -/
def nextWindowful (n : ℕ) : Event ℕ :=
  .segment { seqno := ((4096 * n : ℤ) : Seq), data := windowful
             data_length := by rw [windowful_length]; decide } {}

theorem unannounced_update {n : ℕ} (given : List ℕ) (hn : n < 524288) :
    ∃ w, { (unannounced n given).pcb with
        rcvNxt := ((4096 * (n + 1) : ℤ) : Seq), rcvWnd := 0 }.tcpUpdateRcvAnnWnd =
      .ok ({ (unannounced n given).pcb with
        rcvNxt := ((4096 * (n + 1) : ℤ) : Seq), rcvWnd := 0, rcvAnnWnd := 0 }, w) := by
  have hstep : (0 : Seq) + (min (tcpWnd / 2) tcpMss : ℕ) = ((1024 : ℤ) : Seq) := by decide
  have hedge : ((4096 * (n + 1) : ℤ) : Seq) + ((0 : ℕ) : Seq) = ((4096 * (n + 1) : ℤ) : Seq) :=
    add_zero _
  have hgeq : tcpSeqGeq (((4096 * (n + 1) : ℤ) : Seq) + ((0 : ℕ) : Seq))
      ((0 : Seq) + (min (tcpWnd / 2) tcpMss : ℕ)) = true := by
    rw [hstep, hedge, tcpSeqGeq_place (by omega) (by omega)]
    exact decide_eq_true (by omega)
  rw [Rcv.tcpUpdateRcvAnnWnd, Rcv.rightEdge, unannounced]
  dsimp only
  rw [if_pos hgeq]
  exact ⟨_, rfl⟩

theorem unannounced_fill {n : ℕ} {given : List ℕ} (hn : n < 524288) :
    (unannounced n given).exec (nextWindowful n) = .ok (filled n (given ++ windowful)) := by
  obtain ⟨w, hupd⟩ := unannounced_update given hn
  have hnxt : (unannounced n given).pcb.rcvNxt + (windowful.length : Seq) =
      ((4096 * (n + 1) : ℤ) : Seq) := by
    show ((4096 * n : ℤ) : Seq) + (windowful.length : Seq) = _
    rw [windowful_length, place_add]
    congr 1
  have hpos : 0 < windowful.length := by
    rw [windowful_length]
    decide
  have hwhole : { (unannounced n given).pcb with
      rcvNxt := (unannounced n given).pcb.rcvNxt + windowful.length
      rcvWnd := (unannounced n given).pcb.rcvWnd - windowful.length }.tcpUpdateRcvAnnWnd =
      .ok ({ (unannounced n given).pcb with
        rcvNxt := ((4096 * (n + 1) : ℤ) : Seq), rcvWnd := 0, rcvAnnWnd := 0 }, w) := by
    have hwnd : (unannounced n given).pcb.rcvWnd - 4096 = 0 := by
      show tcpWnd - 4096 = 0
      decide
    rw [hnxt, windowful_length, hwnd]
    exact hupd
  have hreceive : (unannounced n given).pcb.tcpReceive {}
      ⟨((4096 * n : ℤ) : Seq), windowful.length, windowful, false, false⟩ = _ :=
    tcpReceive_whole rfl rfl rfl rfl rfl hpos windowful_length.le le_rfl hwhole
  have hunread : (((4096 * (n + 1) : ℤ) : Seq) - ((4096 * n : ℤ) : Seq)).toNat = 4096 := by
    rw [toNat_sub_place (by omega) (by omega)]
    omega
  have hexec : (unannounced n given).exec (nextWindowful n) = .ok _ :=
    exec_established rfl rfl rfl hreceive rfl
  rw [hexec]
  refine congrArg Except.ok ?_
  have hack : Rcv.tcpAck { (unannounced n given).pcb with
      rcvNxt := ((4096 * (n + 1) : ℤ) : Seq), rcvWnd := 0, rcvAnnWnd := 0, ooseq := [] } =
      (filled n (given ++ windowful)).pcb := by
    rw [Rcv.tcpAck, filled, unannounced]
    rcases Nat.mod_two_eq_zero_or_one n with h | h
    · have hnext : (n + 1) % 2 = 1 := by omega
      simp only [h, hnext]
      rfl
    · have hnext : (n + 1) % 2 = 0 := by omega
      have hpos : 0 < n := by omega
      simp only [h, hnext, hpos]
      rfl
  rw [Session.took]
  rw [hack]
  rw [filled, unannounced]
  dsimp only
  rw [hunread]
  rfl

theorem unannounced_recved {n : ℕ} {given : List ℕ} (hn : n + 1 < 524288) :
    (filled n given).exec (.recved 4096) = .ok (unannounced (n + 1) given) := by
  have hstep : (0 : Seq) + (min (tcpWnd / 2) tcpMss : ℕ) = ((1024 : ℤ) : Seq) := by decide
  have hedge : ((4096 * (n + 1) : ℤ) : Seq) + (tcpWnd : Seq) = ((4096 * (n + 2) : ℤ) : Seq) := by
    rw [place_add]
    congr 1
  have hgeq : tcpSeqGeq (((4096 * (n + 1) : ℤ) : Seq) + (tcpWnd : Seq))
      ((0 : Seq) + (min (tcpWnd / 2) tcpMss : ℕ)) = true := by
    rw [hstep, hedge, tcpSeqGeq_place (by omega) (by omega)]
    exact decide_eq_true (by omega)
  have hinflation : ((((4096 * (n + 1) : ℤ) : Seq) + (tcpWnd : Seq)) - ((0 : ℤ) : Seq)).toNat =
      4096 * (n + 2) := by
    rw [hedge, toNat_sub_place (by omega) (by omega)]
    omega
  have hupd : { (filled n given).pcb with rcvWnd := tcpWnd }.tcpUpdateRcvAnnWnd =
      .ok ({ (filled n given).pcb with rcvWnd := tcpWnd, rcvAnnWnd := tcpWnd },
        4096 * (n + 2)) := by
    rw [Rcv.tcpUpdateRcvAnnWnd, Rcv.rightEdge, filled]
    dsimp only
    rw [if_pos hgeq]
    exact congrArg _ (congrArg _ hinflation)
  have hrecved : (filled n given).pcb.tcpRecved 4096 = .ok (unannounced (n + 1) given).pcb := by
    have hguard : 4096 ≤ 0xffff - (filled n given).pcb.rcvWnd := by
      show 4096 ≤ 0xffff - 0
      decide
    have hwnd : min ((filled n given).pcb.rcvWnd + 4096) tcpWnd = tcpWnd := by
      show min (0 + 4096) tcpWnd = tcpWnd
      decide
    rw [Rcv.tcpRecved]
    rw [if_pos hguard, hwnd, hupd]
    have hlarge : tcpWnd / 4 ≤ 4096 * (n + 2) := by
      rw [tcpWnd]
      omega
    show Except.ok (if tcpWnd / 4 ≤ 4096 * (n + 2) then _ else _) = _
    rw [if_pos hlarge]
    rw [filled, unannounced, Rcv.tcpAckNow]
    have hpos : 0 < n + 1 := Nat.succ_pos n
    rw [decide_eq_true hpos, Nat.cast_succ]
  have hunread : (filled n given).unread - 4096 = 0 := by
    show 4096 - 4096 = 0
    decide
  have hexec : (filled n given).exec (.recved 4096) =
      ((filled n given).pcb.tcpRecved 4096).map fun pcb =>
        { filled n given with pcb := pcb, unread := (filled n given).unread - 4096 } := rfl
  rw [hexec, hrecved, hunread]
  rfl

/-- Every multiple of the window up to half of the number space can be taken unannounced. -/
theorem unannounced_run {n : ℕ} (hn : n < 524288) :
    ∃ es given, (advertising ℕ 0).Run (fun _ _ => True) es (unannounced n given) := by
  induction n with
  | zero => exact ⟨[], [], .start ⟨openSession_fresh, rfl, rfl⟩⟩
  | succ n ih =>
    obtain ⟨es, given, hrun⟩ := ih (by omega)
    exact ⟨_, _, .snoc (.snoc hrun trivial (unannounced_fill (by omega))) trivial
      (unannounced_recved hn)⟩

theorem filled_fault {given : List ℕ} :
    (filled 524287 given).exec (.recved 4096) = .error .newRcvAnnWnd := by
  have hguard : 4096 ≤ 0xffff - (filled 524287 given).pcb.rcvWnd := by
    show 4096 ≤ 0xffff - 0
    decide
  have hwnd : min ((filled 524287 given).pcb.rcvWnd + 4096) tcpWnd = tcpWnd := by
    show min (0 + 4096) tcpWnd = tcpWnd
    decide
  have hupd : { (filled 524287 given).pcb with rcvWnd := tcpWnd }.tcpUpdateRcvAnnWnd =
      .error .newRcvAnnWnd := by
    rw [Rcv.tcpUpdateRcvAnnWnd, Rcv.rightEdge, filled]
    dsimp only
    rw [if_neg (by decide), if_neg (by decide), if_neg (by decide)]
  have hrecved : (filled 524287 given).pcb.tcpRecved 4096 = .error .newRcvAnnWnd := by
    rw [Rcv.tcpRecved]
    rw [if_pos hguard, hwnd, hupd]
    rfl
  have hexec : (filled 524287 given).exec (.recved 4096) =
      ((filled 524287 given).pcb.tcpRecved 4096).map fun pcb =>
        { filled 524287 given with pcb := pcb, unread := (filled 524287 given).unread - 4096 } := rfl
  rw [hexec, hrecved]
  rfl

/-- The assertion fails in a run in which nothing is sent. -/
theorem window_advertised_fails :
    ¬∀ (irs : Seq) (es : List (Event ℕ)) (t : Session ℕ),
      (advertising ℕ irs).Run (fun _ _ => True) es t → t.Advertised fun _ _ => True := by
  intro hall
  obtain ⟨es, given, hrun⟩ := unannounced_run (n := 524287) (by omega)
  have hfilled := Transition.System.Run.snoc hrun trivial (unannounced_fill (by omega))
  exact (hall 0 _ _ hfilled).not_fault trivial filled_fault rfl

end QuietLwip.Stream
