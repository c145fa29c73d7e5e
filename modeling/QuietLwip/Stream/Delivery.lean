import QuietLwip.Stream.OutOfOrder

/-!
# The stream that is handed up

The peer sends a stream of bytes, and its segments may arrive in any order, more than once and cut
anew. What the application gets is a front part of the stream, and the FIN comes with all of it.
-/

namespace QuietLwip.Stream

open Serial Word Tcp

variable {α : Type*} {S given : List α} {i p a : ℤ} {n m : ℕ} {s inseg cseg : Seg α}
  {pcb pcb' : Rcv α} {r r' : Received α} {q q' : List (Seg α)} {env : Answers}

/-- The segment at the place `p` carries the bytes of `S`, whose first byte has the place `i`. The
place is less than half of the number space behind the first `n` bytes. -/
def Holding (S : List α) (i : ℤ) (n : ℕ) (p : ℤ) (s : Seg α) : Prop :=
  ∃ pos : ℕ, p = i + pos ∧ pos + s.len ≤ S.length ∧ s.p = (S.drop pos).take s.len ∧
    (s.fin = true → pos + s.len = S.length) ∧ s.syn = false ∧ s.len ≤ 65535 ∧
    pos + s.len + 1 < n + 2147483648

namespace Holding

theorem mono (hle : n ≤ m) (h : Holding S i n p s) : Holding S i m p s := by
  obtain ⟨pos, hp, hlen, hdata, hfin, hsyn, hbound, hnear⟩ := h
  exact ⟨pos, hp, hlen, hdata, hfin, hsyn, hbound, by omega⟩

theorem unfin (h : Holding S i n p s) : Holding S i n p { s with fin := false } := by
  obtain ⟨pos, hp, hlen, hdata, -, hsyn, hbound, hnear⟩ := h
  exact ⟨pos, hp, hlen, hdata, nofun, hsyn, hbound, hnear⟩

theorem cut (h : Holding S i n p s) (hfin : s.fin = false) (hm : m ≤ s.len) :
    Holding S i n p (s.cut m) := by
  obtain ⟨pos, hp, hlen, hdata, -, hsyn, hbound, hnear⟩ := h
  refine ⟨pos, hp, ?_, ?_, fun h => ?_, hsyn, ?_, ?_⟩
  · rw [Seg.cut_len]
    omega
  · rw [Seg.cut_p, Seg.cut_len, hdata, List.take_take, min_eq_left hm]
  · rw [Seg.cut_fin, hfin] at h
    cases h
  · rw [Seg.cut_len]
    omega
  · rw [Seg.cut_len]
    omega

/-- The FIN of a segment that this one covers is at its own end too. -/
theorem takeFin (h : Holding S i n p s) {next : Seg α} {b : ℤ} (hnext : Holding S i n b next)
    (hfin : next.fin = true) (hle : b + next.len ≤ p + s.len) :
    Holding S i n p { s with fin := true } := by
  obtain ⟨pos, hp, hlen, hdata, -, hsyn, hbound, hnear⟩ := h
  obtain ⟨pos', hb, -, -, hend, -⟩ := hnext
  have hend := hend hfin
  have : pos + s.len = S.length := by omega
  exact ⟨pos, hp, hlen, hdata, fun _ => this, hsyn, hbound, hnear⟩

theorem syn (h : Holding S i n p s) : s.syn = false := by
  obtain ⟨pos, -, -, -, -, hsyn, -⟩ := h
  exact hsyn

theorem admits : Admits (Holding S i n) (i + n) where
  len := fun ⟨_, _, _, _, _, _, hbound, _⟩ => hbound
  near := fun ⟨pos, hp, _, _, _, _, _, hnear⟩ => by omega
  cut := fun h hfin hm => h.cut hfin hm

/-- The bytes of a segment that is next continue the stream. -/
theorem append (hgiven : given <+: S) (h : Holding S i n (i + given.length) s) :
    given ++ s.p <+: S ∧ (given ++ s.p).length = given.length + s.len ∧
      (s.fin = true → given ++ s.p = S) := by
  obtain ⟨pos, hp, hlen, hdata, hfin, -⟩ := h
  obtain rfl : pos = given.length := by omega
  have htake : given ++ s.p = S.take (given.length + s.len) := by
    rw [List.take_add, ← List.prefix_iff_eq_take.mp hgiven, ← hdata]
  refine ⟨htake ▸ List.take_prefix _ _, ?_, fun h => ?_⟩
  · rw [htake, List.length_take]
    omega
  · rw [htake, hfin h, List.take_length]

end Holding

/-- What has been handed up of the stream, and what waits on `ooseq`. -/
structure Delivered (S : List α) (i : ℤ) (pcb : Rcv α) (given : List α) (gotFin : Bool) :
    Prop where
  bytes : given <+: S
  rcvNxt : pcb.rcvNxt = ((i + given.length + gotFin.toNat : ℤ) : Seq)
  fin : gotFin = true → given = S
  wnd : pcb.rcvWnd ≤ tcpWnd
  queue : gotFin = false → Laid (Holding S i given.length) (i + given.length) pcb.ooseq

theorem Delivered.congr {gotFin : Bool} (hd : Delivered S i pcb given gotFin)
    (hnxt : pcb'.rcvNxt = pcb.rcvNxt) (hwnd : pcb'.rcvWnd ≤ tcpWnd)
    (hooseq : pcb'.ooseq = pcb.ooseq) : Delivered S i pcb' given gotFin :=
  ⟨hd.bytes, hnxt.trans hd.rcvNxt, hd.fin, hwnd, hooseq ▸ hd.queue⟩

theorem Delivered.alike {gotFin : Bool} (hd : Delivered S i pcb given gotFin)
    (h : Rcv.Alike pcb' pcb) : Delivered S i pcb' given gotFin :=
  hd.congr h.rcvNxt (h.rcvWnd ▸ hd.wnd) h.ooseq

/-! ### Text in sequence -/

/-- `dequeue` hands up what follows. -/
theorem dequeue_delivered
    (hd : Delivered S i { pcb with ooseq := q } (given ++ r.recvData) r.gotFin)
    (hq : r.gotFin = true → q = []) (h : pcb.dequeue r q = .ok (pcb', r')) :
    Delivered S i pcb' (given ++ r'.recvData) r'.gotFin := by
  induction q generalizing pcb r with
  | nil =>
    cases h
    exact hd
  | cons cseg rest ih =>
    have hfin : r.gotFin = false := Bool.eq_false_iff.mpr fun htrue => by cases hq htrue
    obtain ⟨p, hp, hlo, hPp, hlast, hrest⟩ := hd.queue hfin
    unfold Rcv.dequeue at h
    split at h
    · next hnext =>
      split at h
      · cases h
      · next hwnd =>
        obtain ⟨⟨upd, w⟩, hupd, h⟩ := bind_ok h
        have halike := Rcv.tcpUpdateRcvAnnWnd_alike hupd
        have hrcv : pcb.rcvNxt = ((i + (given ++ r.recvData).length : ℤ) : Seq) := by
          simpa [hfin] using hd.rcvNxt
        have hnear := Holding.admits.near hPp
        rw [hp, hrcv, place_inj (by omega) (by omega)] at hnext
        subst hnext
        obtain ⟨hbytes, hlen, hall⟩ := Holding.append hd.bytes hPp
        have hsyn := hPp.syn
        rw [List.append_assoc] at hbytes hlen hall
        have hnxt : pcb.rcvNxt + cseg.tcplen =
            ((i + (given ++ (r.recvData ++ cseg.p)).length + cseg.fin.toNat : ℤ) : Seq) := by
          rw [hrcv, place_add, hlen, Seg.tcplen, hsyn, Bool.or_false]
          congr 1
          push_cast
          ring
        have hdone : Delivered S i { pcb with
            rcvNxt := pcb.rcvNxt + cseg.tcplen, rcvWnd := pcb.rcvWnd - cseg.tcplen, ooseq := rest }
            (given ++ (r.recvData ++ cseg.p)) (r.gotFin || cseg.fin) := by
          rw [hfin, Bool.false_or]
          refine ⟨hbytes, hnxt, hall, (Nat.sub_le _ _).trans hd.wnd, fun _ => ?_⟩
          refine (hrest.mono ?_).imp fun p s hs => hs.mono (by omega)
          omega
        refine ih (hdone.congr ?_ ?_ ?_) ?_ h
        · split
          · exact halike.rcvNxt
          · exact halike.rcvNxt
        · split
          · exact halike.rcvWnd ▸ hdone.wnd
          · exact halike.rcvWnd ▸ hdone.wnd
        · rfl
        · intro h
          rw [hfin, Bool.false_or] at h
          exact hlast h
    · next hnext =>
      cases h
      exact hd

theorem trimToRcvWnd_holding (h : Holding S i n p inseg) (hwnd : pcb.rcvWnd ≤ tcpWnd)
    (htrim : pcb.trimToRcvWnd inseg = .ok cseg) : Holding S i n p cseg := by
  unfold Rcv.trimToRcvWnd at htrim
  split at htrim
  · next hover =>
    dsimp only at htrim
    split at htrim
    · cases htrim
      refine h.unfin.cut rfl ?_
      have hsyn := h.syn
      have hle := inseg.tcplen_le
      unfold tcpWnd at hwnd
      rw [hsyn, Bool.toNat_false, Nat.cast_zero, sub_zero, u16_natCast (by omega)]
      dsimp only
      omega
    · cases htrim
  · cases htrim
    exact h

/-- Text that is next in sequence. -/
theorem takeInSequence_delivered (hd : Delivered S i pcb given false)
    (hs : inseg.seqno = pcb.rcvNxt) (hseg : Holding S i given.length (i + given.length) inseg)
    (h : pcb.takeInSequence inseg = .ok (pcb', r)) :
    Delivered S i pcb' (given ++ r.recvData) r.gotFin := by
  have hrcv : pcb.rcvNxt = ((i + given.length : ℤ) : Seq) := by simpa using hd.rcvNxt
  unfold Rcv.takeInSequence at h
  obtain ⟨trimmed, htrim, h⟩ := bind_ok h
  have htrimmed := trimToRcvWnd_holding hseg hd.wnd htrim
  have hplace : trimmed.seqno = ((i + given.length : ℤ) : Seq) := by
    rw [Rcv.trimToRcvWnd_seqno htrim, hs, hrcv]
  obtain ⟨⟨cseg, q⟩, hadjust, h⟩ := bind_ok h
  have hsyn := htrimmed.syn
  have hnear := Holding.admits.near htrimmed
  obtain ⟨hlaid, hempty, hcases⟩ := adjustOoseq_spec Holding.admits hplace le_rfl (by omega) le_rfl
    (Holding.admits.len htrimmed) hnear (fun h => by rw [hsyn] at h; cases h) (hd.queue rfl) hadjust
  have hcseg : Holding S i given.length (i + given.length) cseg := by
    rcases hcases with rfl | ⟨hfin, rfl, next, -, b, -, -, hb, hnext, hle⟩ | ⟨hfin, m, hm, rfl⟩
    · exact htrimmed
    · exact htrimmed.takeFin hb hnext hle
    · exact htrimmed.cut hfin hm
  have hseqno : cseg.seqno = ((i + given.length : ℤ) : Seq) := by
    rcases hcases with rfl | ⟨-, rfl, -⟩ | ⟨-, m, -, rfl⟩ <;> exact hplace
  dsimp only at h
  split at h
  · cases h
  · obtain ⟨⟨upd, w⟩, hupd, h⟩ := bind_ok h
    have halike := Rcv.tcpUpdateRcvAnnWnd_alike hupd
    obtain ⟨⟨done, r⟩, hdeq, h⟩ := bind_ok h
    cases h
    obtain ⟨hbytes, hlen, hall⟩ := Holding.append hd.bytes hcseg
    have hnxt : cseg.seqno + cseg.tcplen =
        ((i + (given ++ cseg.p).length + cseg.fin.toNat : ℤ) : Seq) := by
      rw [hseqno, place_add, hlen, Seg.tcplen, hcseg.syn, Bool.or_false]
      congr 1
      push_cast
      ring
    refine (dequeue_delivered ?_ hempty hdeq).alike Rcv.tcpAck_alike
    refine ⟨hbytes, halike.rcvNxt.trans hnxt, hall, ?_, fun hfin => ?_⟩
    · exact halike.rcvWnd ▸ (Nat.sub_le _ _).trans hd.wnd
    · rw [Seg.tcplen_plain hfin hcseg.syn] at hlaid
      refine (hlaid.mono ?_).imp fun p s hs => hs.mono ?_
      · dsimp only
        omega
      · dsimp only
        omega

/-! ### Text out of sequence -/

/-- The segment comes behind the last one of the queue and ends in the window, but the comparison
of `tcp_receive`, made without regard to the wrap-around, takes it for one that overruns it. -/
def Misjudged (pcb : Rcv α) (inseg : Seg α) (env : Answers) : Prop :=
  env.copied = true ∧ ∃ last ∈ pcb.ooseq.getLast?,
    tcpSeqGt inseg.seqno last.seqno = true ∧ last.fin = false ∧ pcb.overruns inseg = true ∧
      tcpSeqLeq (inseg.seqno + inseg.tcplen) pcb.rightEdge = true

theorem rightEdge_place (h : pcb.rcvNxt = ((a : ℤ) : Seq)) :
    pcb.rightEdge = ((a + pcb.rcvWnd : ℤ) : Seq) := by
  rw [Rcv.rightEdge, h, place_add]

theorem inWindow_place {b : ℤ} (h : pcb.rcvNxt = ((b : ℤ) : Seq)) (hwnd : pcb.rcvWnd ≤ tcpWnd)
    (lo : b < a + 2147483648) (hi : a + 1 < b + 2147483648) :
    pcb.inWindow (a : Seq) = decide (b ≤ a ∧ a < b + pcb.rcvWnd) := by
  unfold tcpWnd at hwnd
  rw [Rcv.inWindow, tcpSeqBetween, rightEdge_place h, place_sub_one, h,
    tcpSeqGeq_place (by omega) (by omega)]
  by_cases hba : b ≤ a
  · rw [tcpSeqLeq_place (by omega) (by omega), ← Bool.decide_and]
    exact decide_eq_decide.mpr (by omega)
  · rw [decide_eq_false hba, Bool.false_and]
    exact (decide_eq_false (by omega)).symm

/-- The copy that comes last. -/
theorem lastCopy_holding {b : ℤ} (hnxt : pcb.rcvNxt = ((b : ℤ) : Seq)) (hwnd : pcb.rcvWnd ≤ tcpWnd)
    (hs : inseg.seqno = (a : Seq)) (hba : b < a) (hab : a < b + pcb.rcvWnd)
    (hseg : Holding S i n a inseg)
    (hjudged : ¬(pcb.overruns inseg = true ∧
      tcpSeqLeq (inseg.seqno + inseg.tcplen) pcb.rightEdge = true))
    (h : pcb.lastCopy inseg = .ok cseg) : cseg.seqno = (a : Seq) ∧ Holding S i n a cseg := by
  have hle := inseg.tcplen_le
  have hlen := Holding.admits.len hseg
  unfold tcpWnd at hwnd
  unfold Rcv.lastCopy at h
  split at h
  · next hover =>
    have hend : b + pcb.rcvWnd < a + inseg.tcplen := by
      by_contra hend
      refine hjudged ⟨hover, ?_⟩
      rw [hs, place_add, rightEdge_place hnxt, tcpSeqLeq_place (by omega) (by omega)]
      exact decide_eq_true (by omega)
    have hcut : u16 (pcb.rightEdge - inseg.seqno).toNat = (b + pcb.rcvWnd - a).toNat := by
      rw [hs, rightEdge_place hnxt, toNat_sub_place (by omega) (by omega), u16_natCast (by omega)]
    rw [hcut] at h
    dsimp only at h
    split at h
    · cases h
      refine ⟨hs, hseg.unfin.cut rfl ?_⟩
      dsimp only
      omega
    · cases h
  · cases h
    exact ⟨hs, hseg⟩

/-- Text that waits for what comes before it. -/
theorem takeOutOfSequence_delivered (hd : Delivered S i pcb given false)
    (hs : inseg.seqno = (a : Seq)) (hseg : Holding S i given.length a inseg)
    (hlo : i + given.length < a) (hhi : a < i + given.length + pcb.rcvWnd)
    (hjudged : ¬Misjudged pcb inseg env)
    (h : pcb.takeOutOfSequence env inseg = .ok pcb') : Delivered S i pcb' given false := by
  have hnear := Holding.admits.near hseg
  have halike : Rcv.Alike (pcb.tcpSendEmptyAck env) pcb := Rcv.tcpSendEmptyAck_alike
  have hd' := hd.alike halike
  have hnxt : (pcb.tcpSendEmptyAck env).rcvNxt = ((i + given.length : ℤ) : Seq) := by
    simpa using hd'.rcvNxt
  have hqueue := hd'.queue rfl
  -- what is kept when only the queue changes
  have hkeep : ∀ q, Laid (Holding S i given.length) (i + given.length) q →
      Delivered S i { pcb.tcpSendEmptyAck env with ooseq := q } given false :=
    fun q hq => ⟨hd'.bytes, hd'.rcvNxt, nofun, hd'.wnd, fun _ => hq⟩
  unfold Rcv.takeOutOfSequence at h
  dsimp only at h
  split at h
  · next hnil =>
    cases h
    refine hkeep _ ?_
    split
    · exact .single hs hlo.le hseg
    · trivial
  · obtain ⟨q, hq, rfl⟩ := map_ok h
    refine hkeep _ ?_
    have hlaid : Laid (Holding S i given.length) (i + given.length)
        ((none : Option (Seg α)).toList ++ (pcb.tcpSendEmptyAck env).ooseq) := hqueue
    refine queueOoseq_laid Holding.admits hs le_rfl hlo.le (by omega) (fun hcopied _ => ?_)
      (fun s hs => by cases hs) hlaid hq
    refine ⟨fun _ _ => hseg, fun _ _ next _ b _ _ hb hfin hle => hseg.takeFin hb hfin hle, ?_⟩
    intro last hlast hgt hfin cseg hcseg
    refine lastCopy_holding hnxt hd'.wnd hs hlo (halike.rcvWnd ▸ hhi) hseg ?_ hcseg
    rintro ⟨hover, hleq⟩
    refine hjudged ⟨hcopied, last, halike.ooseq ▸ hlast, hgt, hfin, ?_, ?_⟩
    · rwa [Rcv.overruns, Rcv.rightEdge, halike.rcvNxt, halike.rcvWnd] at hover
    · rwa [Rcv.rightEdge, halike.rcvNxt, halike.rcvWnd] at hleq

/-! ### A segment -/

/-- A segment that begins in front of `rcv_nxt` and reaches behind it loses its first edge, every
other one is left alone. -/
theorem trimOld_holding {dup : Bool} (hnxt : pcb.rcvNxt = ((i + n : ℤ) : Seq))
    (hs : inseg.seqno = (a : Seq)) (hlo : i + n < a + 2147483648) (hseg : Holding S i n a inseg)
    (hpos : 0 < inseg.tcplen) (h : pcb.trimOld inseg = .ok (cseg, dup)) :
    cseg = inseg ∨ cseg.seqno = ((i + n : ℤ) : Seq) ∧ Holding S i n (i + n) cseg := by
  have hle := inseg.tcplen_le
  have hnear := Holding.admits.near hseg
  unfold Rcv.trimOld at h
  rw [hnxt, hs, place_add, place_add_one, place_sub_one,
    tcpSeqBetween_place (by omega) (by omega) (by omega) (by omega)] at h
  split at h
  · next hbetween =>
    have hbetween := of_decide_eq_true hbetween
    obtain ⟨seg, htrim, heq⟩ := map_ok h
    obtain rfl : seg = cseg := congrArg Prod.fst heq
    unfold Rcv.trimFirstEdge at htrim
    dsimp only at htrim
    split at htrim
    · split at htrim
      · cases htrim
      · cases htrim
        refine .inr ⟨rfl, ?_⟩
        obtain ⟨pos, hp, hlen, hdata, hfin, hsyn, hbound, -⟩ := hseg
        rw [hs, toNat_sub_place (by omega) (by omega), dist_place (by omega) (by omega)]
        have hoff : (i + n - a).toNat = n - pos := by omega
        have hn : pos < n ∧ n - pos ≤ inseg.len := by omega
        have hcut : u16 (inseg.len - u16 (n - pos : ℕ)) = inseg.len - (n - pos) := by
          rw [u16_natCast (n := n - pos) (by omega), ← Nat.cast_sub (by omega)]
          exact u16_natCast (by omega)
        rw [hoff, hcut]
        refine ⟨n, rfl, by dsimp only; omega, ?_, fun h => ?_, hsyn, by dsimp only; omega,
          by dsimp only; omega⟩
        · rw [hdata, List.drop_take, List.drop_drop, Nat.add_sub_cancel' hn.1.le]
        · have := hfin h
          dsimp only
          omega
    · cases htrim
  · cases h
    exact .inl rfl

/-- `tcp_receive` for a segment with text. -/
theorem takeText_delivered (hd : Delivered S i pcb given false) (hs : inseg.seqno = (a : Seq))
    (hlo : i + given.length < a + 2147483648) (hseg : Holding S i given.length a inseg)
    (hpos : 0 < inseg.tcplen) (hjudged : pcb.inWindow inseg.seqno = true → ¬Misjudged pcb inseg env)
    (h : pcb.takeText env inseg = .ok (pcb', r)) :
    Delivered S i pcb' (given ++ r.recvData) r.gotFin := by
  have hrcv : pcb.rcvNxt = ((i + given.length : ℤ) : Seq) := by simpa using hd.rcvNxt
  unfold Rcv.takeText at h
  obtain ⟨⟨cseg, dup⟩, htrim, h⟩ := bind_ok h
  have hcases := trimOld_holding hrcv hs hlo hseg hpos htrim
  have halike : Rcv.Alike (pcb.answerOld dup) pcb := Rcv.answerOld_alike
  have hd' := hd.alike halike
  have hrcv' := halike.rcvNxt.trans hrcv
  have hnear := Holding.admits.near hseg
  dsimp only at h
  unfold Rcv.takeTrimmed at h
  split at h
  · next hwindow =>
    split at h
    · next hnext =>
      refine takeInSequence_delivered hd' hnext.symm ?_ h
      rcases hcases with rfl | ⟨-, hcseg⟩
      · rw [hrcv', hs, place_inj (by omega) (by omega)] at hnext
        exact hnext ▸ hseg
      · exact hcseg
    · next hnext =>
      obtain ⟨done, hdone, heq⟩ := map_ok h
      cases heq
      obtain rfl : cseg = inseg := by
        rcases hcases with rfl | ⟨hcseg, -⟩
        · rfl
        · exact absurd (hrcv'.trans hcseg.symm) hnext
      have hin : pcb.inWindow cseg.seqno = true := by
        rwa [Rcv.inWindow, Rcv.rightEdge, halike.rcvNxt, halike.rcvWnd] at hwindow
      rw [hs, inWindow_place hrcv' hd'.wnd (by omega) (by omega)] at hwindow
      rw [hrcv', hs, place_inj (by omega) (by omega)] at hnext
      have hwindow := of_decide_eq_true hwindow
      rw [List.append_nil]
      refine takeOutOfSequence_delivered hd' hs hseg (by omega) hwindow.2 ?_ hdone
      rintro ⟨hcopied, last, hlast, hgt, hfin, hover, hleq⟩
      refine hjudged hin ⟨hcopied, last, halike.ooseq ▸ hlast, hgt, hfin, ?_, ?_⟩
      · rwa [Rcv.overruns, Rcv.rightEdge, halike.rcvNxt, halike.rcvWnd] at hover
      · rwa [Rcv.rightEdge, halike.rcvNxt, halike.rcvWnd] at hleq
  · cases h
    rw [List.append_nil]
    exact hd'.alike Rcv.tcpSendEmptyAck_alike

/-- The states in which no text is taken any more. -/
def Deaf (st : TcpState) : Prop := beforeCloseWait st = false ∨ st = .closed

theorem eq_false_of_not_deaf {gotFin : Bool} {st : TcpState} (h : gotFin = true → Deaf st)
    (hbefore : beforeCloseWait st = true) (hopen : st ≠ .closed) : gotFin = false := by
  refine Bool.eq_false_iff.mpr fun htrue => ?_
  rcases h htrue with hst | hst
  · rw [hbefore] at hst
    cases hst
  · exact hopen hst

/-- The segment carries bytes of `S` at its sequence number, from the position `pos` on, when `irs`
is the sequence number of the first byte. -/
def Carries (S : List α) (irs : Seq) (pos : ℕ) (a : Arrival α) : Prop :=
  a.seqno = irs + pos ∧ pos + a.data.length ≤ S.length ∧
    a.data = (S.drop pos).take a.data.length ∧ (a.fin = true → pos + a.data.length = S.length) ∧
    a.syn = false

instance [DecidableEq α] {irs : Seq} {pos : ℕ} {a : Arrival α} :
    Decidable (Carries S irs pos a) :=
  inferInstanceAs (Decidable (_ ∧ _))

/-- The segment takes no sequence number. -/
def Arrival.Empty (a : Arrival α) : Prop := a.data = [] ∧ a.fin = false ∧ a.syn = false

/-- The segments of a peer that sends `S`. -/
def FromStream (S : List α) (irs : Seq) : Event α → Prop
  | .segment a _ => a.Empty ∨ ∃ pos, Carries S irs pos a
  | _ => True

/-- The segment lies less than half of the sequence numbers from the next byte, and is not
misjudged. -/
def WellJudged (S : List α) (irs : Seq) (t : Session α) : Event α → Prop
  | .segment a env => a.Empty ∨
      (∃ pos, Carries S irs pos a ∧ t.given.length < pos + 2147483648 ∧
        pos + a.data.length + 1 < t.given.length + 2147483648) ∧
      (t.pcb.inWindow a.seqno = true → ¬Misjudged t.pcb a.inseg env)
  | _ => True

theorem Arrival.Empty.tcplen {a : Arrival α} (h : a.Empty) : a.inseg.tcplen = 0 := by
  obtain ⟨hdata, hfin, hsyn⟩ := h
  rw [Seg.tcplen, Arrival.inseg]
  dsimp only
  rw [hdata, hfin, hsyn]
  rfl

/-- What a segment has to be for a connection in the state of `pcb`. -/
structure Acceptable (S : List α) (i : ℤ) (n : ℕ) (pcb : Rcv α) (env : Answers) (inseg : Seg α) :
    Prop where
  holding : 0 < inseg.tcplen → ∃ a : ℤ, inseg.seqno = a ∧ i + n < a + 2147483648 ∧
    Holding S i n a inseg
  judged : 0 < inseg.tcplen → pcb.inWindow inseg.seqno = true → ¬Misjudged pcb inseg env

/-- No text is taken once the FIN has come. -/
theorem tcpReceive_deaf (hdeaf : beforeCloseWait pcb.state = false)
    (h : pcb.tcpReceive env inseg = .ok (pcb', r)) : r = {} ∧ Rcv.Alike pcb' pcb := by
  unfold Rcv.tcpReceive at h
  rw [hdeaf, Bool.and_false, if_neg Bool.false_ne_true] at h
  split at h
  · split at h
    · cases h
      exact ⟨rfl, rfl, rfl, rfl, rfl⟩
    · cases h
      exact ⟨rfl, Rcv.tcpAckNow_alike⟩
  · cases h

theorem tcpReceive_delivered {gotFin : Bool} (hd : Delivered S i pcb given gotFin)
    (hdeaf : gotFin = true → Deaf pcb.state)
    (hacc : Acceptable S i given.length pcb env inseg)
    (h : pcb.tcpReceive env inseg = .ok (pcb', r)) :
    Delivered S i pcb' (given ++ r.recvData) (gotFin || r.gotFin) ∧
      (gotFin = true → r.gotFin = false ∧ pcb'.state = pcb.state) := by
  unfold Rcv.tcpReceive at h
  split at h
  · next hpast =>
    split at h
    · next htext =>
      obtain ⟨hpos, hbefore⟩ : 0 < inseg.tcplen ∧ beforeCloseWait pcb.state = true := by
        simpa using htext
      have hfin : gotFin = false := by
        refine Bool.eq_false_iff.mpr fun htrue => ?_
        rcases hdeaf htrue with hstate | hstate
        · rw [hstate] at hbefore
          cases hbefore
        · rw [hstate] at hpast
          cases hpast
      subst hfin
      obtain ⟨a, hs, hlo, hseg⟩ := hacc.holding hpos
      exact ⟨takeText_delivered hd hs hlo hseg hpos (hacc.judged hpos) h, nofun⟩
    · have hrest : r = {} ∧ Rcv.Alike pcb' pcb := by
        split at h
        · cases h
          exact ⟨rfl, rfl, rfl, rfl, rfl⟩
        · cases h
          exact ⟨rfl, Rcv.tcpAckNow_alike⟩
      obtain ⟨rfl, halike⟩ := hrest
      rw [List.append_nil, Bool.or_false]
      exact ⟨hd.alike halike, fun _ => ⟨rfl, halike.state⟩⟩
  · cases h

theorem Acceptable.congr (hacc : Acceptable S i n pcb env inseg)
    (hnxt : pcb'.rcvNxt = pcb.rcvNxt) (hwnd : pcb'.rcvWnd = pcb.rcvWnd)
    (hooseq : pcb'.ooseq = pcb.ooseq) : Acceptable S i n pcb' env inseg := by
  refine ⟨hacc.holding, fun hpos hin hjudged => hacc.judged hpos ?_ ?_⟩
  · rwa [Rcv.inWindow, Rcv.rightEdge, hnxt, hwnd] at hin
  · rwa [Misjudged, Rcv.overruns, Rcv.rightEdge, hnxt, hwnd, hooseq] at hjudged

theorem Delivered.leave {gotFin : Bool} {st : TcpState} (hd : Delivered S i pcb given gotFin) :
    Delivered S i (pcb.leave st) given gotFin :=
  ⟨hd.bytes, hd.rcvNxt, hd.fin, hd.wnd, fun _ => trivial⟩

/-- `tcp_process` may change the state after `tcp_receive`, and free what waits on `ooseq`. -/
theorem afterReceive_delivered {gotFin : Bool} {done : Rcv α}
    (hd : Delivered S i pcb given gotFin) (hdeaf : gotFin = true → Deaf pcb.state)
    (hacc : Acceptable S i given.length pcb env inseg)
    (hrec : pcb.tcpReceive env inseg = .ok (done, r)) (hnxt : pcb'.rcvNxt = done.rcvNxt)
    (hwnd : pcb'.rcvWnd = done.rcvWnd) (hooseq : pcb'.ooseq = done.ooseq ∨ pcb'.ooseq = [])
    (hfin : r.gotFin = true → Deaf pcb'.state)
    (hstay : gotFin = true → r.gotFin = false → done.state = pcb.state → Deaf pcb'.state) :
    Delivered S i pcb' (given ++ r.recvData) (gotFin || r.gotFin) ∧
      ((gotFin || r.gotFin) = true → Deaf pcb'.state) := by
  obtain ⟨hdone, hkeep⟩ := tcpReceive_delivered hd hdeaf hacc hrec
  constructor
  · rcases hooseq with hooseq | hooseq
    · exact hdone.congr hnxt (hwnd ▸ hdone.wnd) hooseq
    · refine ⟨hdone.bytes, hnxt.trans hdone.rcvNxt, hdone.fin, hwnd ▸ hdone.wnd, fun _ => ?_⟩
      rw [hooseq]
      trivial
  · intro hall
    rcases Bool.or_eq_true_iff.mp hall with hgot | hgot
    · obtain ⟨hr, hstate⟩ := hkeep hgot
      exact hstay hgot hr hstate
    · exact hfin hgot

theorem tcpProcess_delivered {gotFin : Bool} {a : Arrival α}
    (hd : Delivered S i pcb given gotFin) (hdeaf : gotFin = true → Deaf pcb.state)
    (hacc : Acceptable S i given.length pcb env a.inseg)
    (h : pcb.tcpProcess env a = .ok (pcb', r)) :
    Delivered S i pcb' (given ++ r.recvData) (gotFin || r.gotFin) ∧
      ((gotFin || r.gotFin) = true → Deaf pcb'.state) := by
  unfold Rcv.tcpProcess at h
  split at h
  · cases h
    rw [List.append_nil, Bool.or_false]
    exact ⟨hd.alike Rcv.tcpAckNow_alike, hdeaf⟩
  have halike : Rcv.Alike (pcb.setMss a.mss) pcb := Rcv.setMss_alike
  dsimp only at h
  revert h
  generalize pcb.setMss a.mss = pcb at halike ⊢
  intro h
  replace hd := hd.alike halike
  rw [← halike.state] at hdeaf
  replace hacc := hacc.congr halike.rcvNxt halike.rcvWnd halike.ooseq
  -- nothing is handed up
  have hnone : ∀ pcb : Rcv α, Delivered S i pcb given gotFin →
      (gotFin = true → Deaf pcb.state) →
      Delivered S i pcb (given ++ []) (gotFin || false) ∧
        ((gotFin || false) = true → Deaf pcb.state) := by
    intro pcb hd hdeaf
    rw [List.append_nil, Bool.or_false]
    exact ⟨hd, hdeaf⟩
  split at h
  · next hstate =>
    have hopen := eq_false_of_not_deaf hdeaf (by rw [hstate]; rfl) (by rw [hstate]; exact nofun)
    split at h
    · split at h
      · obtain ⟨⟨done, r'⟩, hrec, h⟩ := bind_ok h
        cases h
        subst hopen
        have hd' : Delivered S i { pcb with state := .established } given false :=
          hd.congr rfl hd.wnd rfl
        have hacc' : Acceptable S i given.length { pcb with state := .established } env a.inseg :=
          hacc.congr rfl rfl rfl
        refine afterReceive_delivered hd' nofun hacc' hrec ?_ ?_ (.inl ?_) (fun hgot => ?_) nofun
        · split <;> rfl
        · split <;> rfl
        · split <;> rfl
        · rw [if_pos hgot]
          exact .inl rfl
      · cases h
        exact hnone _ hd.leave fun _ => .inr rfl
    · cases h
      exact hnone _ hd hdeaf
  · next hstate =>
    have hopen := eq_false_of_not_deaf hdeaf (by rw [hstate]; rfl) (by rw [hstate]; exact nofun)
    obtain ⟨⟨done, r'⟩, hrec, h⟩ := bind_ok h
    cases h
    subst hopen
    refine afterReceive_delivered hd hdeaf hacc hrec ?_ ?_ (.inl ?_) (fun hgot => ?_) nofun
    · split <;> rfl
    · split <;> rfl
    · split <;> rfl
    · rw [if_pos hgot]
      exact .inl rfl
  · next hstate =>
    obtain ⟨⟨done, r'⟩, hrec, h⟩ := bind_ok h
    obtain ⟨rfl, hdone⟩ := tcpReceive_deaf (by rw [hstate]; rfl) hrec
    cases h
    exact hnone _ (hd.alike hdone) (hdone.state ▸ hdeaf)
  · next hstate =>
    have hopen := eq_false_of_not_deaf hdeaf (by rw [hstate]; rfl) (by rw [hstate]; exact nofun)
    obtain ⟨⟨done, r'⟩, hrec, h⟩ := bind_ok h
    subst hopen
    dsimp only at h
    split at h
    · split at h
      · cases h
        exact afterReceive_delivered hd hdeaf hacc hrec rfl rfl (.inr rfl) (fun _ => .inl rfl) nofun
      · cases h
        exact afterReceive_delivered hd hdeaf hacc hrec rfl rfl (.inl rfl) (fun _ => .inl rfl) nofun
    · next hgot =>
      split at h
      · cases h
        exact afterReceive_delivered hd hdeaf hacc hrec rfl rfl (.inl rfl)
          (fun h => absurd h hgot) nofun
      · cases h
        exact afterReceive_delivered hd hdeaf hacc hrec rfl rfl (.inl rfl)
          (fun h => absurd h hgot) nofun
  · next hstate =>
    have hopen := eq_false_of_not_deaf hdeaf (by rw [hstate]; rfl) (by rw [hstate]; exact nofun)
    obtain ⟨⟨done, r'⟩, hrec, h⟩ := bind_ok h
    cases h
    subst hopen
    refine afterReceive_delivered hd hdeaf hacc hrec ?_ ?_ ?_ (fun hgot => ?_) nofun
    · split <;> rfl
    · split <;> rfl
    · split
      · exact .inr rfl
      · exact .inl rfl
    · rw [if_pos hgot]
      exact .inl rfl
  · next hstate =>
    obtain ⟨⟨done, r'⟩, hrec, h⟩ := bind_ok h
    obtain ⟨rfl, hdone⟩ := tcpReceive_deaf (by rw [hstate]; rfl) hrec
    cases h
    split
    · exact hnone _ (hd.alike hdone).leave fun _ => .inl rfl
    · exact hnone _ (hd.alike hdone) (hdone.state ▸ hdeaf)
  · next hstate =>
    obtain ⟨⟨done, r'⟩, hrec, h⟩ := bind_ok h
    obtain ⟨rfl, hdone⟩ := tcpReceive_deaf (by rw [hstate]; rfl) hrec
    cases h
    split
    · exact hnone _ (hd.alike hdone).leave fun _ => .inr rfl
    · exact hnone _ (hd.alike hdone) (hdone.state ▸ hdeaf)
  · cases h
    exact hnone _ hd hdeaf

/-! ### Runs -/

variable {irs : Seq} {t t' : Session α} {e : Event α} {es : List (Event α)}

theorem WellJudged.acceptable {a : Arrival α} (hirs : (i : Seq) = irs)
    (h : WellJudged S irs t (.segment a env)) :
    Acceptable S i t.given.length t.pcb env a.inseg := by
  rcases h with hempty | ⟨⟨pos, ⟨hs, hlen, hdata, hfin, hsyn⟩, hlo, hhi⟩, hjudged⟩
  · have htcplen := hempty.tcplen
    exact ⟨fun hpos => by omega, fun hpos => by omega⟩
  · refine ⟨fun _ => ⟨i + pos, ?_, by omega, pos, rfl, hlen, hdata, hfin, hsyn, ?_, hhi⟩,
      fun _ => hjudged⟩
    · rw [Int.cast_add, hirs, Int.cast_natCast]
      exact hs
    · exact a.data_length.trans (by decide)

/-- What holds of a connection whose peer sends `S`. -/
structure Session.Sound (S : List α) (i : ℤ) (t : Session α) : Prop where
  delivered : Delivered S i t.pcb t.given t.gotFin
  deaf : t.gotFin = true → Deaf t.pcb.state

theorem Session.Fresh.sound (h : Session.Fresh irs t) (hirs : (i : Seq) = irs) : t.Sound S i := by
  obtain ⟨-, hnxt, hwnd, hooseq, hgiven, hfin, -⟩ := h
  refine ⟨⟨hgiven ▸ List.nil_prefix, ?_, ?_, hwnd.le, fun _ => hooseq ▸ trivial⟩, ?_⟩
  · rw [hgiven, hfin, hnxt, ← hirs]
    simp
  · rw [hfin]
    exact nofun
  · rw [hfin]
    exact nofun

theorem Session.Sound.exec (hirs : (i : Seq) = irs) (ht : t.Sound S i) (hok : WellJudged S irs t e)
    (h : t.exec e = .ok t') : t'.Sound S i := by
  cases e with
  | segment a env =>
    obtain ⟨⟨pcb, r⟩, hproc, rfl⟩ := map_ok h
    obtain ⟨hd, hdeaf⟩ := tcpProcess_delivered ht.delivered ht.deaf (hok.acceptable hirs) hproc
    exact ⟨hd, hdeaf⟩
  | recved len =>
    obtain ⟨pcb, hrec, rfl⟩ := map_ok h
    obtain ⟨hst, hnxt, hooseq, hwnd⟩ := Rcv.tcpRecved_spec hrec
    exact ⟨ht.delivered.congr hnxt (hwnd ▸ min_le_right _ _) hooseq, hst ▸ ht.deaf⟩
  | correctWnd =>
    cases h
    split
    · obtain ⟨hst, hnxt, hooseq, hwnd⟩ := Session.correctWnd_spec ht.delivered.wnd
      exact ⟨ht.delivered.congr hnxt (hwnd ▸ min_le_right _ _) hooseq, fun h => hst ▸ ht.deaf h⟩
    · exact ht
  | output =>
    cases h
    exact ⟨ht.delivered.alike Rcv.announce_alike, ht.deaf⟩
  | close =>
    cases h
    have hdelivered := ht.delivered
    have hdeaf := ht.deaf
    constructor
    · show Delivered S i (Session.closed t.pcb) t.given t.gotFin
      rw [Session.closed]
      split <;> exact hdelivered.congr rfl hdelivered.wnd rfl
    · show t.gotFin = true → Deaf (Session.closed t.pcb).state
      rw [Session.closed]
      split
      · next hstate =>
        rw [eq_false_of_not_deaf hdeaf (by rw [hstate]; rfl) (by rw [hstate]; exact nofun)]
        exact nofun
      · exact fun _ => .inl rfl
      · exact hdeaf

/-- What is handed up is a front part of the stream and ends at `rcv_nxt`, and the FIN comes with
all of it, in every run whose segments are all well judged. -/
theorem stream_safe (h : (receiving α irs).Run (WellJudged S irs) es t) :
    t.given <+: S ∧ t.pcb.rcvNxt = irs + (t.given.length : Seq) + (t.gotFin.toNat : Seq) ∧
      (t.gotFin = true → t.given = S) := by
  obtain ⟨i, hirs, -⟩ := exists_place irs 0
  have hsound : t.Sound S i := by
    refine h.invariant (I := fun _ t => t.Sound S i) (fun t ht => ?_)
      fun es t e t' _ ht hok hstep => ?_
    · exact Session.Fresh.sound ht hirs
    · exact ht.exec hirs hok hstep
  refine ⟨hsound.delivered.bytes, ?_, hsound.delivered.fin⟩
  rw [hsound.delivered.rcvNxt, Int.cast_add, Int.cast_add, hirs, Int.cast_natCast,
    Int.cast_natCast]

theorem stream_safe_swapped :
    ∃ es t, (receiving ℕ 7).Run (WellJudged [1, 2, 3] 7) es t ∧ t.gotFin = true ∧
      t.given <+: [1, 2, 3] ∧
      t.pcb.rcvNxt = 7 + (t.given.length : Seq) + (t.gotFin.toNat : Seq) ∧
      (t.gotFin = true → t.given = [1, 2, 3]) := by
  have hfirst : WellJudged [1, 2, 3] 7 (openSession 7) (bytesAt 7 1 [2, 3] true (by decide)) := by
    refine .inr ⟨⟨1, by decide, by decide, by decide⟩, fun _ => ?_⟩
    rintro ⟨-, last, hlast, -⟩
    cases hlast
  have hsecond : WellJudged [1, 2, 3] 7 swapped (bytesAt 7 0 [1] false (by decide)) := by
    refine .inr ⟨⟨0, by decide, by decide, by decide⟩, fun _ => ?_⟩
    rintro ⟨-, last, hlast, -, hfin, -⟩
    cases Option.mem_some.mp hlast
    cases hfin
  obtain ⟨t, ht, -, hgot⟩ := exec_swapped_first
  have hrun : (receiving ℕ 7).Run (WellJudged [1, 2, 3] 7)
      ([] ++ [bytesAt 7 1 [2, 3] true (by decide)] ++ [bytesAt 7 0 [1] false (by decide)]) t :=
    .snoc (.snoc (.start openSession_fresh) hfirst exec_swapped) hsecond ht
  exact ⟨_, t, hrun, hgot, stream_safe hrun⟩

/-- The stream is not safe: a segment behind the queue whose window wraps around claims bytes that
it does not have. -/
theorem stream_fails :
    ¬∀ (S : List ℕ) (irs : Seq) (es : List (Event ℕ)) (t : Session ℕ),
      (receiving ℕ irs).Run (fun _ => FromStream S irs) es t →
        t.given <+: S ∧ t.pcb.rcvNxt = irs + (t.given.length : Seq) + (t.gotFin.toNat : Seq) ∧
          (t.gotFin = true → t.given = S) := by
  intro hall
  have hrun : (receiving ℕ (-10)).Run (fun _ => FromStream [1, 2, 3] (-10))
      ([] ++ [bytesAt (-10) 1 [2] false (by decide), bytesAt (-10) 2 [3] false (by decide),
        bytesAt (-10) 0 [1] false (by decide)]) _ :=
    run_of_exec (.start openSession_fresh) ?_ rfl
  · obtain ⟨-, hnxt, -⟩ := hall _ _ _ _ hrun
    revert hnxt
    decide
  · intro e he
    simp only [List.mem_cons, List.not_mem_nil, or_false] at he
    rcases he with rfl | rfl | rfl
    · exact .inr ⟨1, by decide⟩
    · exact .inr ⟨2, by decide⟩
    · exact .inr ⟨0, by decide⟩

end QuietLwip.Stream
