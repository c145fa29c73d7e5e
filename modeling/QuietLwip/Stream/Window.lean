import QuietLwip.Stream.OutOfOrder

/-!
# The window that is left

`rcv_wnd` is the room for text that the application has not given back. The peer may send segments
that reach past the window: those in sequence and those behind the queue are trimmed to it, the
others are not, and neither is a segment that takes over a FIN.
-/

namespace QuietLwip.Stream

open Serial Word Tcp

variable {α β γ : Type*} {i p a b cur R R' lo : ℤ} {n m k : ℕ} {s inseg cseg : Seg α}
  {pcb pcb' : Rcv α} {r r' : Received α} {q q' : List (Seg α)} {env : Answers}

/-- The assertions that compare a length with the window. -/
def Fault.ofWindow : Fault → Bool
  | .notTrimmedToRcvWnd | .tcplenOverRcvWnd | .ooseqTcplenOverRcvWnd => true
  | _ => false

/-- No assertion about the window fails, and what comes out is as `Q` says. -/
def Passes (Q : β → Prop) : Except Fault β → Prop
  | .ok b => Q b
  | .error f => f.ofWindow = false

namespace Passes

variable {β γ : Type*} {Q : β → Prop} {Q' : γ → Prop} {x : Except Fault β}

theorem map {f : β → γ} (hx : Passes Q x) (hf : ∀ b, Q b → Q' (f b)) : Passes Q' (x.map f) := by
  cases x with
  | error f => exact hx
  | ok b => exact hf b hx

theorem mono {Q' : β → Prop} (hx : Passes Q x) (hle : ∀ b, Q b → Q' b) : Passes Q' x := by
  cases x with
  | error f => exact hx
  | ok b => exact hle b hx

theorem and {Q' : β → Prop} (hx : Passes Q x) (hok : ∀ b, x = .ok b → Q' b) :
    Passes (fun b => Q b ∧ Q' b) x := by
  cases x with
  | error f => exact hx
  | ok b => exact ⟨hx, hok b rfl⟩

theorem ok {c : β} (hx : Passes Q x) (h : x = .ok c) : Q c := by
  subst h
  exact hx

end Passes

universe u

theorem Passes.bind {β γ : Type u} {Q : β → Prop} {Q' : γ → Prop} {x : Except Fault β}
    {f : β → Except Fault γ} (hx : Passes Q x) (hf : ∀ b, Q b → Passes Q' (f b)) :
    Passes Q' (x >>= f) := by
  cases x with
  | error f => exact hx
  | ok b => exact hf b hx

/-- The segment at the place `p` holds as many bytes as its length says and ends in front of the
place `R`. -/
def Inside (R p : ℤ) (s : Seg α) : Prop :=
  s.p.length = s.len ∧ s.len ≤ 65535 ∧ p + s.tcplen ≤ R

namespace Inside

theorem mono (hle : R ≤ R') (h : Inside R p s) : Inside R' p s :=
  ⟨h.1, h.2.1, h.2.2.trans hle⟩

theorem cut (h : Inside R p s) (hn : n ≤ s.len) : Inside R p (s.cut n) := by
  obtain ⟨hp, hlen, hend⟩ := h
  refine ⟨?_, ?_, ?_⟩
  · rw [Seg.cut_p, Seg.cut_len, List.length_take]
    omega
  · rw [Seg.cut_len]
    omega
  · have hcut : (s.cut n).tcplen ≤ s.tcplen := Nat.add_le_add_right hn _
    omega

theorem admits (hR : R < b + 2147483647) : Admits (Inside (α := α) R) b where
  len := fun h => h.2.1
  near := fun {p s} h => by
    have hle := s.len_le_tcplen
    have hend := h.2.2
    omega
  cut := fun h _ hn => h.cut hn

end Inside

/-- The right edge of the window is `R`, the next byte is at `cur`, and what waits on `ooseq` ends
in the window. After a SYN that waits there the queue may begin in front of `cur`. -/
structure Windowed (R cur : ℤ) (pcb : Rcv α) : Prop where
  rcvNxt : pcb.rcvNxt = (cur : Seq)
  edge : cur + pcb.rcvWnd = R
  small : pcb.rcvWnd ≤ tcpWnd
  queue : Laid (Inside R) (cur - 1) pcb.ooseq

namespace Windowed

theorem congr (hw : Windowed R cur pcb) (hnxt : pcb'.rcvNxt = pcb.rcvNxt)
    (hwnd : pcb'.rcvWnd = pcb.rcvWnd) (hooseq : pcb'.ooseq = pcb.ooseq) : Windowed R cur pcb' :=
  ⟨hnxt.trans hw.rcvNxt, hwnd ▸ hw.edge, hwnd ▸ hw.small, hooseq ▸ hw.queue⟩

theorem alike (hw : Windowed R cur pcb) (h : Rcv.Alike pcb' pcb) : Windowed R cur pcb' :=
  hw.congr h.rcvNxt h.rcvWnd h.ooseq

theorem admits (hw : Windowed R cur pcb) : Admits (Inside (α := α) R) (cur - 1) := by
  refine Inside.admits ?_
  have hsmall := hw.small
  have hedge := hw.edge
  unfold tcpWnd at hsmall
  omega

end Windowed

theorem tcpUpdateRcvAnnWnd_window : Passes (fun x => Rcv.Alike x.1 pcb) pcb.tcpUpdateRcvAnnWnd := by
  cases h : pcb.tcpUpdateRcvAnnWnd with
  | ok x => exact Rcv.tcpUpdateRcvAnnWnd_alike h
  | error f =>
    unfold Rcv.tcpUpdateRcvAnnWnd at h
    dsimp only at h
    split at h
    · cases h
    · split at h
      · cases h
      · split at h
        · cases h
        · cases h
          rfl

/-! ### Text in sequence -/

/-- Each segment that follows fits in what is left of the window. -/
theorem dequeue_window (hw : Windowed R cur { pcb with ooseq := q }) :
    Passes (fun x => ∃ k : ℕ, Windowed R (cur + k) x.1 ∧
      x.2.recvData.length ≤ r.recvData.length + k) (pcb.dequeue r q) := by
  induction q generalizing pcb r cur with
  | nil => exact ⟨0, by simpa using hw, le_rfl⟩
  | cons cseg rest ih =>
    obtain ⟨p, hp, hlo, hin, hlast, hrest⟩ := hw.queue
    have hnear := hw.admits.near hin
    have hsmall := hw.small
    have hedge := hw.edge
    have hle := cseg.tcplen_le
    obtain ⟨hbytes, hlen, hend⟩ := hin
    unfold tcpWnd at hsmall
    dsimp only at hsmall hedge
    have hcur : pcb.rcvNxt = (cur : Seq) := hw.rcvNxt
    rw [Rcv.dequeue]
    split
    · next hnext =>
      rw [hp, hcur, place_inj (by omega) (by omega)] at hnext
      subst hnext
      rw [if_neg (by omega)]
      refine tcpUpdateRcvAnnWnd_window.bind fun x halike => ?_
      obtain ⟨upd, w⟩ := x
      have hnew : Windowed R (p + cseg.tcplen) { pcb with
          rcvNxt := pcb.rcvNxt + cseg.tcplen, rcvWnd := pcb.rcvWnd - cseg.tcplen, ooseq := rest } := by
        refine ⟨?_, ?_, ?_, hrest.mono (by omega)⟩
        · rw [← place_add, ← hcur]
        · dsimp only
          omega
        · dsimp only
          unfold tcpWnd
          omega
      refine (ih (hnew.congr ?_ ?_ ?_)).mono ?_
      · split
        · exact halike.rcvNxt
        · exact halike.rcvNxt
      · split
        · exact halike.rcvWnd
        · exact halike.rcvWnd
      · rfl
      · rintro ⟨done, r'⟩ ⟨k, hdone, hdata⟩
        refine ⟨cseg.tcplen + k, ?_, ?_⟩
        · rw [Nat.cast_add, ← add_assoc]
          exact hdone
        · rw [List.length_append] at hdata
          have := cseg.len_le_tcplen
          dsimp only at hdata ⊢
          omega
    · exact ⟨0, by simpa using hw, le_rfl⟩

/-- Text in sequence is trimmed to the window. -/
theorem trimToRcvWnd_window (hw : Windowed R cur pcb) (hs : inseg.seqno = (cur : Seq))
    (hwnd : 0 < pcb.rcvWnd) (hbytes : inseg.p.length = inseg.len) (hlen : inseg.len ≤ 65535) :
    Passes (fun seg => Inside R cur seg ∧ seg.seqno = inseg.seqno ∧ seg.syn = inseg.syn ∧
        (seg = inseg ∧ inseg.tcplen ≤ pcb.rcvWnd ∨
          seg.fin = false ∧ seg.tcplen = pcb.rcvWnd ∧ pcb.rcvWnd < inseg.tcplen))
      (pcb.trimToRcvWnd inseg) := by
  have hedge := hw.edge
  have hsmall := hw.small
  unfold tcpWnd at hsmall
  unfold Rcv.trimToRcvWnd
  split
  · next hover =>
    have hsyn := Bool.toNat_le inseg.syn
    have hfin := Bool.toNat_le (inseg.fin || inseg.syn)
    have hle : pcb.rcvWnd - inseg.syn.toNat ≤ inseg.len := by
      unfold Seg.tcplen at hover
      cases hs : inseg.syn
      · simp only [Bool.toNat_false]
        omega
      · simp only [Bool.toNat_true]
        omega
    have hcut : u16 ((pcb.rcvWnd : ℤ) - inseg.syn.toNat) = pcb.rcvWnd - inseg.syn.toNat := by
      rw [← Nat.cast_sub (by omega)]
      exact u16_natCast (by omega)
    have htcplen : ({ inseg with fin := false }.cut (pcb.rcvWnd - inseg.syn.toNat)).tcplen =
        pcb.rcvWnd := by
      unfold Seg.tcplen
      simp only [Seg.cut_len, Seg.cut_fin, Seg.cut_syn, Bool.false_or]
      omega
    dsimp only
    rw [hcut, htcplen, if_pos]
    · refine ⟨⟨?_, ?_, ?_⟩, rfl, rfl, .inr ⟨rfl, htcplen, hover⟩⟩
      · rw [Seg.cut_p, Seg.cut_len, List.length_take]
        dsimp only
        omega
      · rw [Seg.cut_len]
        omega
      · rw [htcplen]
        omega
    · rw [Seg.cut_seqno, Rcv.rightEdge, hw.rcvNxt, ← hs]
  · next hover =>
    exact ⟨⟨hbytes, hlen, by omega⟩, rfl, rfl, .inl ⟨rfl, by omega⟩⟩

/-- Text that is next in sequence. The hypothesis `hfin` is about the FIN of a queued segment that
the text covers. -/
theorem takeInSequence_window (hw : Windowed R cur pcb) (hs : inseg.seqno = (cur : Seq))
    (hwnd : 0 < pcb.rcvWnd) (hbytes : inseg.p.length = inseg.len) (hlen : inseg.len ≤ 65535)
    (hsyn : inseg.syn = true → pcb.ooseq = [])
    (hfin : ∀ next ∈ pcb.ooseq, ∀ p : ℤ, next.seqno = (p : Seq) → cur - 1 ≤ p →
      p + next.len ≤ R → next.fin = true → p + next.len ≤ cur + min inseg.tcplen pcb.rcvWnd →
      inseg.tcplen < pcb.rcvWnd ∨ inseg.fin = true ∧ inseg.tcplen ≤ pcb.rcvWnd) :
    Passes (fun x => ∃ k : ℕ, Windowed R (cur + k) x.1 ∧ x.2.recvData.length ≤ k)
      (pcb.takeInSequence inseg) := by
  have hedge := hw.edge
  have hsmall := hw.small
  unfold tcpWnd at hsmall
  rw [Rcv.takeInSequence]
  refine (trimToRcvWnd_window hw hs hwnd hbytes hlen).bind fun trimmed htrim => ?_
  obtain ⟨hin, hplace, hsyn', hcase⟩ := htrim
  have hplace := hplace.trans hs
  have hnear := hw.admits.near hin
  have hadjust : Passes (fun x => Inside R cur x.1 ∧ x.1.seqno = (cur : Seq) ∧
      Laid (Inside R) (cur + x.1.tcplen) x.2) (Rcv.adjustOoseq trimmed pcb.ooseq) := by
    cases hadjust : Rcv.adjustOoseq trimmed pcb.ooseq with
    | error f =>
      obtain rfl := Rcv.adjustOoseq_error hadjust
      rfl
    | ok x =>
      obtain ⟨cseg, q⟩ := x
      obtain ⟨hlaid, -, hcases⟩ := adjustOoseq_spec hw.admits hplace le_rfl le_rfl (by omega)
        hin.2.1 hnear (fun h => hsyn (hsyn'.symm.trans h)) hw.queue hadjust
      rcases hcases with rfl | ⟨hplain, rfl, next, hmem, b, hb, hlob, hinb, hbfin, hle⟩ | ⟨-, n, hn, rfl⟩
      · exact ⟨hin, hplace, hlaid⟩
      · refine ⟨⟨hin.1, hin.2.1, ?_⟩, hplace, hlaid⟩
        rw [Seg.tcplen_fin rfl]
        have hend := hinb.2.2
        have hnextlen := next.len_le_tcplen
        have htrimlen := trimmed.len_le_tcplen
        rcases hcase with ⟨rfl, hle'⟩ | ⟨-, heq, hover⟩
        · have hroom := hfin next hmem b hb hlob (by omega) hbfin (by omega)
          rw [hplain] at hroom
          simp only [Bool.false_eq_true, false_and, or_false] at hroom
          dsimp only
          omega
        · have hroom := hfin next hmem b hb hlob (by omega) hbfin (by omega)
          omega
      · exact ⟨hin.cut hn, hplace, hlaid⟩
  refine hadjust.bind fun x hx => ?_
  obtain ⟨cseg, q⟩ := x
  obtain ⟨hcin, hcplace, hlaid⟩ := hx
  dsimp only at hcin hcplace hlaid ⊢
  have hfits := hcin.2.2
  rw [if_neg (by omega)]
  refine tcpUpdateRcvAnnWnd_window.bind fun x halike => ?_
  obtain ⟨upd, w⟩ := x
  dsimp only at halike ⊢
  have hnew : Windowed R (cur + cseg.tcplen) { pcb with
      rcvNxt := cseg.seqno + cseg.tcplen, rcvWnd := pcb.rcvWnd - cseg.tcplen, ooseq := q } := by
    refine ⟨?_, ?_, ?_, hlaid.mono (by omega)⟩
    · rw [← place_add, ← hcplace]
    · dsimp only
      omega
    · dsimp only
      rw [tcpWnd]
      omega
  have hupd : Windowed R (cur + cseg.tcplen) { upd with ooseq := q } :=
    hnew.congr halike.rcvNxt halike.rcvWnd rfl
  refine (dequeue_window hupd).bind fun x hx => ?_
  obtain ⟨done, r⟩ := x
  obtain ⟨k, hdone, hdata⟩ := hx
  dsimp only at hdone hdata ⊢
  refine ⟨cseg.tcplen + k, ?_, ?_⟩
  · rw [Nat.cast_add, ← add_assoc]
    exact hdone.alike Rcv.tcpAck_alike
  · have hlen := cseg.len_le_tcplen
    rw [hcin.1] at hdata
    dsimp only
    omega

/-! ### Text out of sequence -/

/-- Without memory for a copy the queue stays as it is. -/
theorem queueOoseq_uncopied {prev : Option (Seg α)} (hcopied : env.copied = false) :
    pcb.queueOoseq env inseg prev q = .ok (prev.toList ++ q) := by
  induction q generalizing prev with
  | nil => simp [Rcv.queueOoseq]
  | cons next rest ih =>
    have hbehind : pcb.queueBehind env inseg prev next rest
        (pcb.queueOoseq env inseg (some next) rest) = .ok (prev.toList ++ next :: rest) := by
      rw [Rcv.queueBehind]
      split
      · next hend =>
        obtain ⟨hnil, -⟩ : rest = [] ∧ tcpSeqGt inseg.seqno next.seqno = true := by
          simpa using hend
        rw [if_pos (by simp [hcopied]), hnil]
      · rw [ih]
        rfl
    unfold Rcv.queueOoseq
    split
    · rw [if_neg (by simp [hcopied])]
    · cases prev with
      | none =>
        dsimp only
        split
        · rw [if_neg (by simp [hcopied])]
          rfl
        · exact hbehind
      | some prev =>
        dsimp only
        split
        · rw [if_neg (by simp [hcopied])]
          rfl
        · exact hbehind

/-- How many sequence numbers the segment begins, and ends, behind the next one. -/
def Rcv.offset (pcb : Rcv α) (inseg : Seg α) : ℕ := (inseg.seqno - pcb.rcvNxt).toNat

def Rcv.reach (pcb : Rcv α) (inseg : Seg α) : ℕ :=
  (inseg.seqno + inseg.tcplen - pcb.rcvNxt).toNat

/-- There is room in the window for the FIN of a queued segment that this one covers. -/
def FinFits (pcb : Rcv α) (inseg : Seg α) : Prop :=
  ∀ next ∈ pcb.ooseq, next.fin = true →
    tcpSeqGeq (pcb.rcvNxt + (min (pcb.reach inseg) pcb.rcvWnd : ℕ)) (next.seqno + next.len) = true →
    pcb.reach inseg < pcb.rcvWnd ∨ inseg.fin = true ∧ pcb.reach inseg ≤ pcb.rcvWnd

/-- The segment has the next byte in it. -/
def InSequence (pcb : Rcv α) (inseg : Seg α) : Prop :=
  inseg.seqno = pcb.rcvNxt ∨
    tcpSeqBetween pcb.rcvNxt (inseg.seqno + 1) (inseg.seqno + inseg.tcplen - 1) = true

/-- A segment that stays in the window where `tcp_receive` does not trim it: in sequence it has room
for a FIN that it takes over, behind the queue the comparison that decides whether to trim it is
right, and elsewhere it ends in the window. -/
structure StaysInside (pcb : Rcv α) (inseg : Seg α) (env : Answers) : Prop where
  next : InSequence pcb inseg → FinFits pcb inseg
  start : env.copied = true → pcb.inWindow inseg.seqno = true → ¬InSequence pcb inseg →
    pcb.offset inseg < pcb.rcvWnd
  behind : env.copied = true → pcb.inWindow inseg.seqno = true → ¬InSequence pcb inseg →
    ∀ last ∈ pcb.ooseq.getLast?, tcpSeqGt inseg.seqno last.seqno = true → last.fin = false →
    pcb.overruns inseg = decide (pcb.rcvWnd < pcb.reach inseg)
  before : env.copied = true → pcb.inWindow inseg.seqno = true → ¬InSequence pcb inseg →
    ¬ComesLast inseg pcb.ooseq → Longer inseg pcb.ooseq →
    pcb.reach inseg ≤ pcb.rcvWnd ∧ FinFits pcb inseg

theorem reach_place (hnxt : pcb.rcvNxt = (cur : Seq)) (hs : inseg.seqno = (a : Seq))
    (hlo : cur ≤ a + inseg.tcplen) (hhi : a + inseg.tcplen < cur + 4294967296) :
    (pcb.reach inseg : ℤ) = a + inseg.tcplen - cur := by
  rw [Rcv.reach, hs, hnxt, place_add, toNat_sub_place hlo (by omega)]
  omega

theorem offset_place (hnxt : pcb.rcvNxt = (cur : Seq)) (hs : inseg.seqno = (a : Seq))
    (hlo : cur ≤ a) (hhi : a < cur + 4294967296) : (pcb.offset inseg : ℤ) = a - cur := by
  rw [Rcv.offset, hs, hnxt, toNat_sub_place hlo (by omega)]
  omega

/-- A segment that ends in the window. -/
theorem inside_of_reach (hw : Windowed R cur pcb) (hs : inseg.seqno = (a : Seq))
    (hlo : cur ≤ a) (hhi : a + inseg.tcplen < cur + 4294967296)
    (hbytes : inseg.p.length = inseg.len) (hlen : inseg.len ≤ 65535)
    (hreach : pcb.reach inseg ≤ pcb.rcvWnd) : Inside R a inseg := by
  have hedge := hw.edge
  have heq := reach_place hw.rcvNxt hs (by omega) hhi
  exact ⟨hbytes, hlen, by omega⟩

/-- With a FIN taken over it still ends in the window. -/
theorem FinFits.inside (hfits : FinFits pcb inseg) (hw : Windowed R cur pcb)
    (hs : inseg.seqno = (a : Seq)) (hin : Inside R a inseg) (hlo : cur ≤ a)
    {next : Seg α} (hmem : next ∈ pcb.ooseq) (hp : next.seqno = (p : Seq)) (hfin : next.fin = true) (hle : p + next.len ≤ a + inseg.len) (hlop : cur - 1 ≤ p) :
    Inside R a { inseg with fin := true } := by
  have hedge := hw.edge
  have hsmall := hw.small
  unfold tcpWnd at hsmall
  obtain ⟨hbytes, hlen, hend⟩ := hin
  have hle' := inseg.len_le_tcplen
  have heq := reach_place hw.rcvNxt hs (by omega) (by omega)
  refine ⟨hbytes, hlen, ?_⟩
  rw [Seg.tcplen_fin rfl]
  dsimp only
  have hroom := hfits next hmem hfin (by
    rw [min_eq_left (by omega), hw.rcvNxt, hp, place_add, place_add,
      tcpSeqGeq_place (by omega) (by omega)]
    exact decide_eq_true (by omega))
  rcases hroom with hroom | ⟨hsfin, -⟩
  · omega
  · rw [Seg.tcplen_fin hsfin] at hend
    omega

/-- The copy behind the last segment is trimmed to the window. -/
theorem lastCopy_window (hw : Windowed R cur pcb) (hs : inseg.seqno = (a : Seq))
    (hlo : cur ≤ a) (hhi : a < R) (hbytes : inseg.p.length = inseg.len) (hlen : inseg.len ≤ 65535)
    (hsyn : inseg.syn = false) (hjudged : pcb.overruns inseg = decide (pcb.rcvWnd < pcb.reach inseg)) :
    Passes (fun cseg => cseg.seqno = (a : Seq) ∧ Inside R a cseg) (pcb.lastCopy inseg) := by
  have hedge := hw.edge
  have hsmall := hw.small
  unfold tcpWnd at hsmall
  have hle := inseg.tcplen_le
  have heq := reach_place hw.rcvNxt hs (by omega) (by omega)
  rw [Rcv.lastCopy]
  rw [hjudged]
  split
  · next hover =>
    have hover := of_decide_eq_true hover
    have hright : pcb.rightEdge = (R : Seq) := by
      rw [Rcv.rightEdge, hw.rcvNxt, place_add, hedge]
    have hcut : u16 (pcb.rightEdge - inseg.seqno).toNat = (R - a).toNat := by
      rw [hright, hs, toNat_sub_place hhi.le (by omega), u16_natCast (by omega)]
    have htcplen : ({ inseg with fin := false }.cut (R - a).toNat).tcplen = (R - a).toNat := by
      rw [Seg.tcplen]
      simp only [Seg.cut_len, Seg.cut_fin, Seg.cut_syn, hsyn, Bool.or_false, Bool.toNat_false,
        Nat.add_zero]
    dsimp only
    rw [hcut, htcplen, if_pos]
    · refine ⟨hs, ?_, ?_, ?_⟩
      · rw [Seg.cut_p, Seg.cut_len, List.length_take]
        dsimp only
        omega
      · rw [Seg.cut_len]
        omega
      · rw [htcplen]
        omega
    · rw [hs, hright, place_add]
      congr 1
      omega
  · next hover =>
    have hover : ¬pcb.rcvWnd < pcb.reach inseg := by simpa using hover
    exact ⟨hs, hbytes, hlen, by omega⟩

theorem StaysInside.congr (h : StaysInside pcb inseg env) (hnxt : pcb'.rcvNxt = pcb.rcvNxt)
    (hwnd : pcb'.rcvWnd = pcb.rcvWnd) (hooseq : pcb'.ooseq = pcb.ooseq) :
    StaysInside pcb' inseg env := by
  cases pcb
  cases pcb'
  dsimp only at hnxt hwnd hooseq
  subst hnxt hwnd hooseq
  exact ⟨h.next, h.start, h.behind, h.before⟩

/-- The queue after text out of sequence. -/
theorem queueOoseq_window (hw : Windowed R cur pcb) (hin : pcb.inWindow inseg.seqno = true)
    (hout : ¬InSequence pcb inseg) (hs : inseg.seqno = (a : Seq)) (hlo : cur ≤ a) (hhi : a < R)
    (hbytes : inseg.p.length = inseg.len) (hlen : inseg.len ≤ 65535) (hsyn : inseg.syn = false)
    (hcopied : env.copied = true) (hstays : StaysInside pcb inseg env) :
    Passes (Laid (Inside R) (cur - 1)) (pcb.queueOoseq env inseg none pcb.ooseq) := by
  have hedge := hw.edge
  have hsmall := hw.small
  unfold tcpWnd at hsmall
  have hle := inseg.tcplen_le
  cases hqueue : pcb.queueOoseq env inseg none pcb.ooseq with
  | error f =>
    obtain ⟨⟨last, hlast, hgt, hfin⟩, hcopy⟩ := queueOoseq_error hqueue
    have hpass := lastCopy_window hw hs hlo hhi hbytes hlen hsyn
      (hstays.behind hcopied hin hout last hlast hgt hfin)
    rwa [hcopy] at hpass
  | ok q =>
    have hlaid : Laid (Inside R) (cur - 1) ((none : Option (Seg α)).toList ++ pcb.ooseq) := hw.queue
    refine queueOoseq_laid hw.admits hs le_rfl (by omega) (by omega) (fun _ _ => ?_)
      (fun s hs => by cases hs) hlaid hqueue
    have hinside : pcb.reach inseg ≤ pcb.rcvWnd → Inside R a inseg :=
      inside_of_reach hw hs hlo (by omega) hbytes hlen
    constructor
    · intro hnot hlong
      exact hinside (hstays.before hcopied hin hout hnot hlong).1
    · intro hnot hlong next hmem p hp hlop _ hfin hle
      obtain ⟨hreach, hfits⟩ := hstays.before hcopied hin hout hnot hlong
      exact hfits.inside hw hs (hinside hreach) hlo hmem hp hfin hle hlop
    · intro last hlast hgt hfin cseg hcopy
      exact (lastCopy_window hw hs hlo hhi hbytes hlen hsyn
        (hstays.behind hcopied hin hout last hlast hgt hfin)).ok hcopy

/-- Text that waits for what comes before it. -/
theorem takeOutOfSequence_window (hw : Windowed R cur pcb) (hin : pcb.inWindow inseg.seqno = true)
    (hout : ¬InSequence pcb inseg) (hbytes : inseg.p.length = inseg.len)
    (hlen : inseg.len ≤ 65535) (hsyn : inseg.syn = true → pcb.ooseq = [])
    (hstays : StaysInside pcb inseg env) :
    Passes (fun pcb' => Windowed R cur pcb') (pcb.takeOutOfSequence env inseg) := by
  have halike : Rcv.Alike (pcb.tcpSendEmptyAck env) pcb := Rcv.tcpSendEmptyAck_alike
  unfold Rcv.takeOutOfSequence
  dsimp only
  revert halike
  generalize pcb.tcpSendEmptyAck env = pcb' 
  intro halike
  replace hw := hw.alike halike
  replace hin : pcb'.inWindow inseg.seqno = true := by
    rwa [Rcv.inWindow, Rcv.rightEdge, halike.rcvNxt, halike.rcvWnd]
  replace hout : ¬InSequence pcb' inseg := by
    rwa [InSequence, halike.rcvNxt]
  replace hstays := hstays.congr halike.rcvNxt halike.rcvWnd halike.ooseq
  rw [← halike.ooseq] at hsyn
  have hkeep : ∀ q : List (Seg α), Laid (Inside R) (cur - 1) q → Windowed R cur { pcb' with ooseq := q } :=
    fun q hq => ⟨hw.rcvNxt, hw.edge, hw.small, hq⟩
  obtain ⟨a, ha, hlo, hhi⟩ := exists_place inseg.seqno cur
  cases hcopied : env.copied with
  | false =>
    split
    · exact hkeep _ trivial
    · rw [queueOoseq_uncopied hcopied]
      exact hkeep _ hw.queue
  | true =>
    have hstart := hstays.start hcopied hin hout
    have hoffset := offset_place hw.rcvNxt ha.symm hlo hhi
    have hedge := hw.edge
    have hsmall := hw.small
    have hle := inseg.tcplen_le
    unfold tcpWnd at hsmall
    split
    · next hnil =>
      have hnot : ¬ComesLast inseg pcb'.ooseq := by
        rw [hnil]
        rintro ⟨last, hlast, -⟩
        cases hlast
      have hlong : Longer inseg pcb'.ooseq := by
        rw [hnil]
        exact fun s hs => by cases hs
      obtain ⟨hreach, -⟩ := hstays.before hcopied hin hout hnot hlong
      refine hkeep _ (.single ha.symm (by omega) ?_)
      exact inside_of_reach hw ha.symm hlo (by omega) hbytes hlen hreach
    · next hcons =>
      have hnosyn : inseg.syn = false := Bool.eq_false_iff.mpr fun htrue => hcons (hsyn htrue)
      exact (queueOoseq_window hw hin hout ha.symm hlo (by omega) hbytes hlen hnosyn hcopied
        hstays).map hkeep

/-! ### A segment -/

/-- What the trimming of the first edge leaves: the segment as it came, or one that is next in
sequence and reaches as far. -/
theorem trimOld_window (hw : Windowed R cur pcb) (hpos : 0 < inseg.tcplen)
    (hbytes : inseg.p.length = inseg.len) (hlen : inseg.len ≤ 65495) :
    Passes (fun x => x.1.p.length = x.1.len ∧ x.1.len ≤ 65535 ∧ x.1.syn = inseg.syn ∧
        x.1.fin = inseg.fin ∧
        (x.1 = inseg ∧ tcpSeqBetween pcb.rcvNxt (inseg.seqno + 1)
            (inseg.seqno + inseg.tcplen - 1) = false ∨
          x.1.seqno = pcb.rcvNxt ∧ InSequence pcb inseg ∧ x.1.tcplen ≤ pcb.reach inseg))
      (pcb.trimOld inseg) := by
  obtain ⟨a, ha, hlo, hhi⟩ := exists_place inseg.seqno (cur - 2147483648)
  have hle := inseg.tcplen_le
  have hle' := inseg.len_le_tcplen
  rw [Rcv.trimOld]
  split
  · next hbetween =>
    have hold : a < cur := by
      rw [hw.rcvNxt, ← ha, tcpSeqBetween, place_add_one, tcpSeqGeq_place (by omega) (by omega),
        Bool.and_eq_true, decide_eq_true_eq] at hbetween
      omega
    -- the bytes that are hidden
    have hoff : ∃ off, off < inseg.tcplen ∧ (dist pcb.rcvNxt inseg.seqno).toNat = off ∧
        u16 (pcb.rcvNxt - inseg.seqno).toNat = off ∧ inseg.tcplen - off ≤ pcb.reach inseg := by
      by_cases hhalf : a = cur - 2147483648 ∧ inseg.tcplen = 1
      · obtain ⟨rfl, hone⟩ := hhalf
        have hcur : pcb.rcvNxt = ((cur - 2147483648 + 2147483648 : ℤ) : Seq) := by
          rw [hw.rcvNxt, sub_add_cancel]
        have hturn := (place_turn (cur - 2147483648)).trans ha
        have hreach := reach_place hw.rcvNxt hturn.symm (by omega) (by omega)
        refine ⟨0, hpos, ?_, ?_, by omega⟩
        · rw [hcur, ← ha, dist_half]
          rfl
        · rw [hw.rcvNxt, ← ha, toNat_sub_place (by omega) (by omega), sub_sub_cancel]
          rfl
      · rw [hw.rcvNxt, ← ha, tcpSeqBetween, place_add, place_sub_one, Bool.and_eq_true,
          tcpSeqLeq_place (by omega) (by omega), decide_eq_true_eq] at hbetween
        have hreach := reach_place hw.rcvNxt ha.symm (by omega) (by omega)
        refine ⟨(cur - a).toNat, by omega, ?_, ?_, by omega⟩
        · rw [hw.rcvNxt, ← ha, dist_place (by omega) (by omega)]
        · rw [hw.rcvNxt, ← ha, toNat_sub_place (by omega) (by omega)]
          exact u16_natCast (by omega)
    obtain ⟨off, hlt, hdist, hsub, hreach⟩ := hoff
    unfold Rcv.trimFirstEdge
    dsimp only
    split
    · split
      · rfl
      · have hcut : u16 ((inseg.len : ℤ) - off) = inseg.len - off := by
          rw [← Nat.cast_sub (by omega)]
          exact u16_natCast (by omega)
        refine ⟨?_, ?_, rfl, rfl, .inr ⟨rfl, .inr hbetween, ?_⟩⟩
        · rw [hdist, hsub, hcut, List.length_drop, hbytes]
        · dsimp only
          rw [hsub, hcut]
          omega
        · unfold Seg.tcplen at hreach ⊢
          dsimp only
          rw [hsub, hcut]
          omega
    · rfl
  · next hbetween =>
    exact ⟨hbytes, by dsimp only; omega, rfl, rfl, .inl ⟨rfl, by simpa using hbetween⟩⟩

/-- `tcp_receive` for a segment with text. -/
theorem takeText_window (hw : Windowed R cur pcb) (hpos : 0 < inseg.tcplen)
    (hbytes : inseg.p.length = inseg.len) (hlen : inseg.len ≤ 65495)
    (hsyn : inseg.syn = true → pcb.ooseq = []) (hstays : StaysInside pcb inseg env) :
    Passes (fun x => ∃ k : ℕ, Windowed R (cur + k) x.1 ∧ x.2.recvData.length ≤ k)
      (pcb.takeText env inseg) := by
  rw [Rcv.takeText]
  refine (trimOld_window hw hpos hbytes hlen).bind fun x hx => ?_
  obtain ⟨cseg, dup⟩ := x
  obtain ⟨hcbytes, hclen, hcsyn, hcfin, hcase⟩ := hx
  dsimp only at hcbytes hclen hcsyn hcfin hcase ⊢
  have halike : Rcv.Alike (pcb.answerOld dup) pcb := Rcv.answerOld_alike
  revert halike
  generalize pcb.answerOld dup = pcb'
  intro halike
  replace hw := hw.alike halike
  have hedge := hw.edge
  have hsmall := hw.small
  unfold tcpWnd at hsmall
  have hstays := hstays.congr halike.rcvNxt halike.rcvWnd halike.ooseq
  have hreach : pcb'.reach inseg = pcb.reach inseg := by
    rw [Rcv.reach, Rcv.reach, halike.rcvNxt]
  rw [Rcv.takeTrimmed]
  split
  · next hin =>
    split
    · next hnext =>
      have hplace : cseg.seqno = (cur : Seq) := hnext.symm.trans hw.rcvNxt
      have hle := cseg.tcplen_le
      have hseq : InSequence pcb' inseg ∧ cseg.tcplen ≤ pcb'.reach inseg := by
        rcases hcase with ⟨rfl, -⟩ | ⟨-, hseq, hle⟩
        · have heq := reach_place hw.rcvNxt hplace (by omega) (by omega)
          exact ⟨.inl hnext.symm, by omega⟩
        · rw [hreach, InSequence, halike.rcvNxt]
          exact ⟨hseq, hle⟩
      refine takeInSequence_window hw hplace ?_ hcbytes hclen
        (fun h => halike.ooseq ▸ hsyn (hcsyn.symm.trans h)) ?_
      · rw [Rcv.inWindow, hplace, Rcv.rightEdge, hw.rcvNxt, place_add, place_sub_one,
          tcpSeqBetween_place (by omega) (by omega) (by omega) (by omega)] at hin
        have hin := of_decide_eq_true hin
        omega
      · intro next hmem p hp hlo hle hfin hcover
        have hroom := hstays.next hseq.1 next hmem hfin (by
          rw [hw.rcvNxt, hp, place_add, place_add, tcpSeqGeq_place (by omega) (by omega)]
          exact decide_eq_true (by omega))
        rw [hcfin]
        rcases hroom with hroom | ⟨hfin, hroom⟩
        · exact .inl (by omega)
        · exact .inr ⟨hfin, by omega⟩
    · next hnext =>
      have hsame : cseg = inseg ∧ ¬InSequence pcb' inseg := by
        rcases hcase with ⟨rfl, hbetween⟩ | ⟨hplace, -⟩
        · refine ⟨rfl, ?_⟩
          rw [InSequence, halike.rcvNxt, hbetween]
          rintro (h | h)
          · exact hnext (halike.rcvNxt.trans h.symm)
          · cases h
        · exact absurd (halike.rcvNxt.trans hplace.symm) hnext
      obtain ⟨rfl, hout⟩ := hsame
      refine (takeOutOfSequence_window hw hin hout hcbytes hclen
        (fun h => halike.ooseq ▸ hsyn h) hstays).map fun done hdone => ?_
      exact ⟨0, by simpa using hdone, le_rfl⟩
  · exact ⟨0, by simpa using hw.alike Rcv.tcpSendEmptyAck_alike, le_rfl⟩

/-- Only a dequeued FIN changes the state in `tcp_receive`. -/
theorem dequeue_state (h : pcb.dequeue r q = .ok (pcb', r')) :
    pcb'.state = pcb.state ∨ pcb'.state = .closeWait := by
  induction q generalizing pcb r with
  | nil =>
    cases h
    exact .inl rfl
  | cons cseg rest ih =>
    unfold Rcv.dequeue at h
    split at h
    · split at h
      · cases h
      · obtain ⟨⟨upd, w⟩, hupd, h⟩ := bind_ok h
        have halike := Rcv.tcpUpdateRcvAnnWnd_alike hupd
        rcases ih h with hstate | hstate
        · rw [hstate]
          split
          · exact .inr rfl
          · exact .inl halike.state
        · exact .inr hstate
    · cases h
      exact .inl rfl

theorem tcpReceive_state (h : pcb.tcpReceive env inseg = .ok (pcb', r)) :
    pcb'.state = pcb.state ∨ pcb'.state = .closeWait := by
  unfold Rcv.tcpReceive at h
  split at h
  · split at h
    · obtain ⟨⟨cseg, dup⟩, -, h⟩ := bind_ok h
      have hold : (pcb.answerOld dup).state = pcb.state := Rcv.answerOld_alike.state
      dsimp only at h
      unfold Rcv.takeTrimmed at h
      split at h
      · split at h
        · obtain ⟨trimmed, -, h⟩ := bind_ok h
          obtain ⟨⟨cseg, q⟩, -, h⟩ := bind_ok h
          dsimp only at h
          split at h
          · cases h
          · obtain ⟨⟨upd, w⟩, hupd, h⟩ := bind_ok h
            obtain ⟨⟨done, r⟩, hdeq, h⟩ := bind_ok h
            cases h
            have hstate := dequeue_state hdeq
            rwa [(Rcv.tcpUpdateRcvAnnWnd_alike hupd).state, hold, ← Rcv.tcpAck_alike.state] at hstate
        · obtain ⟨done, hdone, heq⟩ := map_ok h
          cases heq
          refine .inl (Eq.trans ?_ hold)
          have hack : ((pcb.answerOld dup).tcpSendEmptyAck env).state =
              (pcb.answerOld dup).state := Rcv.tcpSendEmptyAck_alike.state
          unfold Rcv.takeOutOfSequence at hdone
          dsimp only at hdone
          split at hdone
          · cases hdone
            exact hack
          · obtain ⟨q, -, rfl⟩ := map_ok hdone
            exact hack
      · cases h
        exact .inl (Rcv.tcpSendEmptyAck_alike.state.trans hold)
    · split at h
      · cases h
        exact .inl rfl
      · cases h
        exact .inl rfl
  · cases h

/-- What a segment does to the window: it takes `k` sequence numbers of it. -/
def Takes (R cur : ℤ) (x : Rcv α × Received α) : Prop :=
  ∃ k : ℕ, Windowed R (cur + k) x.1 ∧ x.2.recvData.length ≤ k

theorem takes_none (hw : Windowed R cur pcb) : Takes R cur (pcb, {}) :=
  ⟨0, by simpa using hw, le_rfl⟩

theorem tcpReceive_window (hw : Windowed R cur pcb) (hbytes : inseg.p.length = inseg.len)
    (hlen : inseg.len ≤ 65495) (hsyn : inseg.syn = true → pcb.ooseq = [])
    (hstays : 0 < inseg.tcplen → beforeCloseWait pcb.state = true → StaysInside pcb inseg env) :
    Passes (fun x => Takes R cur x ∧ (x.1.state = pcb.state ∨ x.1.state = .closeWait))
      (pcb.tcpReceive env inseg) := by
  refine Passes.and ?_ fun x hx => tcpReceive_state hx
  rw [Rcv.tcpReceive]
  split
  · split
    · next htext =>
      obtain ⟨hpos, hbefore⟩ : 0 < inseg.tcplen ∧ beforeCloseWait pcb.state = true := by
        simpa using htext
      exact takeText_window hw hpos hbytes hlen hsyn (hstays hpos hbefore)
    · split
      · exact takes_none hw
      · exact takes_none (hw.alike Rcv.tcpAckNow_alike)
  · rfl

theorem Takes.congr (h : Takes R cur (pcb, r)) (hnxt : pcb'.rcvNxt = pcb.rcvNxt)
    (hwnd : pcb'.rcvWnd = pcb.rcvWnd) (hooseq : pcb'.ooseq = pcb.ooseq ∨ pcb'.ooseq = []) :
    Takes R cur (pcb', r) := by
  obtain ⟨k, hw, hdata⟩ := h
  refine ⟨k, ?_, hdata⟩
  rcases hooseq with hooseq | hooseq
  · exact hw.congr hnxt hwnd hooseq
  · exact ⟨hnxt.trans hw.rcvNxt, hwnd ▸ hw.edge, hwnd ▸ hw.small, hooseq ▸ trivial⟩

/-- What `tcp_process` makes of the pcb after `tcp_receive`. -/
theorem Takes.after {x : Rcv α × Received α} {st : TcpState}
    (hx : Takes R cur x ∧ (x.1.state = st ∨ x.1.state = .closeWait)) (hst : st ≠ .synRcvd)
    (hnxt : pcb'.rcvNxt = x.1.rcvNxt) (hwnd : pcb'.rcvWnd = x.1.rcvWnd)
    (hooseq : pcb'.ooseq = x.1.ooseq ∨ pcb'.ooseq = [])
    (hstate : pcb'.state = x.1.state ∨ pcb'.state ≠ .synRcvd) :
    Takes R cur (pcb', x.2) ∧ (pcb'.state = .synRcvd → pcb'.ooseq = []) := by
  refine ⟨hx.1.congr hnxt hwnd hooseq, fun h => ?_⟩
  rcases hstate with hstate | hstate
  · rw [hstate] at h
    rcases hx.2 with hx | hx
    · exact absurd (hx.symm.trans h) hst
    · rw [hx] at h
      cases h
  · exact absurd h hstate

/-- `tcp_process`; before the handshake is over nothing waits on `ooseq`. -/
theorem tcpProcess_window {arr : Arrival α} (hw : Windowed R cur pcb)
    (hshake : pcb.state = .synRcvd → pcb.ooseq = [])
    (hstays : 0 < arr.inseg.tcplen → beforeCloseWait pcb.state = true →
      StaysInside pcb arr.inseg env) :
    Passes (fun x => Takes R cur x ∧ (x.1.state = .synRcvd → x.1.ooseq = []))
      (pcb.tcpProcess env arr) := by
  rw [Rcv.tcpProcess]
  split
  · exact ⟨takes_none (hw.alike Rcv.tcpAckNow_alike), hshake⟩
  next hreject =>
  have hsyn : arr.inseg.syn = true → pcb.ooseq = [] := fun htrue => hshake (by
    by_contra hstate
    have htrue : arr.syn = true := htrue
    exact hreject (by simp [htrue, hstate]))
  have halike : Rcv.Alike (pcb.setMss arr.mss) pcb := Rcv.setMss_alike
  dsimp only
  revert halike
  generalize pcb.setMss arr.mss = pcb'
  intro halike
  replace hw := hw.alike halike
  rw [← halike.ooseq] at hsyn
  rw [← halike.state, ← halike.ooseq] at hshake
  replace hstays : 0 < arr.inseg.tcplen → beforeCloseWait pcb'.state = true →
      StaysInside pcb' arr.inseg env := by
    rw [halike.state]
    exact fun hpos hbefore =>
      (hstays hpos hbefore).congr halike.rcvNxt halike.rcvWnd halike.ooseq
  have hlen : arr.inseg.len ≤ 65495 := arr.data_length
  have hrec := tcpReceive_window hw rfl hlen hsyn hstays
  -- the states in which a FIN leads to `CLOSE_WAIT`
  have hpassive : ∀ (done : Rcv α) (r : Received α) (st : TcpState), st ≠ .synRcvd →
      Takes R cur (done, r) ∧ (done.state = st ∨ done.state = .closeWait) →
      Takes R cur (if r.gotFin then { done.tcpAckNow with state := .closeWait } else done, r) ∧
        ((if r.gotFin then { done.tcpAckNow with state := .closeWait } else done).state = .synRcvd →
          (if r.gotFin then { done.tcpAckNow with state := .closeWait } else done).ooseq = []) := by
    intro done r st hst hx
    split
    · exact Takes.after hx hst rfl rfl (.inl rfl) (.inr nofun)
    · exact Takes.after hx hst rfl rfl (.inl rfl) (.inl rfl)
  split
  · next hstate =>
    split
    · split
      · have hw' : Windowed R cur { pcb' with state := .established } := hw.congr rfl rfl rfl
        have hstays' : 0 < arr.inseg.tcplen → beforeCloseWait .established = true →
            StaysInside { pcb' with state := .established } arr.inseg env :=
          fun hpos _ => (hstays hpos (by rw [hstate]; rfl)).congr rfl rfl rfl
        refine (tcpReceive_window hw' rfl hlen hsyn hstays').bind fun x hx => ?_
        exact hpassive x.1 x.2 .established nofun hx
      · exact ⟨(takes_none hw).congr rfl rfl (.inr rfl), nofun⟩
    · exact ⟨takes_none hw, hshake⟩
  · next hstate =>
    rw [hstate] at hrec
    exact hrec.bind fun x hx => hpassive x.1 x.2 .established nofun hx
  · next hstate =>
    rw [hstate] at hrec
    exact hrec.bind fun x hx => hpassive x.1 x.2 .closeWait nofun hx
  · next hstate =>
    rw [hstate] at hrec
    refine hrec.bind fun x hx => ?_
    obtain ⟨done, r⟩ := x
    dsimp only
    split
    · split
      · exact Takes.after hx nofun rfl rfl (.inr rfl) (.inr nofun)
      · exact Takes.after hx nofun rfl rfl (.inl rfl) (.inr nofun)
    · split
      · exact Takes.after hx nofun rfl rfl (.inl rfl) (.inr nofun)
      · exact Takes.after hx nofun rfl rfl (.inl rfl) (.inl rfl)
  · next hstate =>
    rw [hstate] at hrec
    refine hrec.bind fun x hx => ?_
    obtain ⟨done, r⟩ := x
    show Takes R cur (if r.gotFin then _ else _, r) ∧ _
    dsimp only
    split
    · exact Takes.after hx nofun rfl rfl (.inr rfl) (.inr nofun)
    · exact Takes.after hx nofun rfl rfl (.inl rfl) (.inl rfl)
  · next hstate =>
    rw [hstate] at hrec
    refine hrec.bind fun x hx => ?_
    obtain ⟨done, r⟩ := x
    show Takes R cur (if _ then _ else _, r) ∧ _
    dsimp only
    split
    · exact Takes.after hx nofun rfl rfl (.inr rfl) (.inr nofun)
    · exact Takes.after hx nofun rfl rfl (.inl rfl) (.inl rfl)
  · next hstate =>
    rw [hstate] at hrec
    refine hrec.bind fun x hx => ?_
    obtain ⟨done, r⟩ := x
    show Takes R cur (if _ then _ else _, r) ∧ _
    dsimp only
    split
    · exact Takes.after hx nofun rfl rfl (.inr rfl) (.inr nofun)
    · exact Takes.after hx nofun rfl rfl (.inl rfl) (.inl rfl)
  · exact ⟨takes_none hw, hshake⟩

/-! ### Runs -/

variable {irs : Seq} {t t' : Session α} {e : Event α} {es : List (Event α)}

/-- The segment, if it is one, stays in the window where `tcp_receive` does not trim it. -/
def KeepsWindow (t : Session α) : Event α → Prop
  | .segment arr env =>
    0 < arr.inseg.tcplen → beforeCloseWait t.pcb.state = true → StaysInside t.pcb arr.inseg env
  | _ => True

/-- What holds of a connection with the right edge of its window at `R`. -/
structure Session.Kept (R cur : ℤ) (t : Session α) : Prop where
  window : Windowed R cur t.pcb
  room : t.pcb.rcvWnd + t.unread = tcpWnd
  shake : t.pcb.state = .synRcvd → t.pcb.ooseq = []

/-- The window grows. -/
theorem Windowed.grow (hw : Windowed R cur pcb) (hnxt : pcb'.rcvNxt = pcb.rcvNxt)
    (hooseq : pcb'.ooseq = pcb.ooseq) (hle : pcb.rcvWnd ≤ pcb'.rcvWnd) (hsmall : pcb'.rcvWnd ≤ tcpWnd) :
    Windowed (cur + pcb'.rcvWnd) cur pcb' := by
  have hedge := hw.edge
  refine ⟨hnxt.trans hw.rcvNxt, rfl, hsmall, hooseq ▸ hw.queue.imp fun p s hs => hs.mono ?_⟩
  omega

theorem Session.Kept.segment {arr : Arrival α} (ht : t.Kept R cur)
    (hok : KeepsWindow t (.segment arr env)) :
    Passes (fun t' => ∃ k : ℕ, t'.Kept R (cur + k) ∧
      ∃ data, t'.given = t.given ++ data ∧ data.length ≤ k) (t.exec (.segment arr env)) := by
  refine (tcpProcess_window ht.window ht.shake hok).map fun x hx => ?_
  obtain ⟨pcb, r⟩ := x
  obtain ⟨⟨k, hw, hdata⟩, hshake⟩ := hx
  refine ⟨k, ⟨hw, ?_, hshake⟩, r.recvData, rfl, hdata⟩
  have hedge := ht.window.edge
  have hedge' : cur + k + pcb.rcvWnd = R := hw.edge
  have hsmall := ht.window.small
  have hroom := ht.room
  unfold tcpWnd at hsmall
  have htaken : (pcb.rcvNxt - t.pcb.rcvNxt).toNat = k := by
    rw [hw.rcvNxt, ht.window.rcvNxt, toNat_sub_place (by omega) (by omega)]
    omega
  show pcb.rcvWnd + (t.unread + (pcb.rcvNxt - t.pcb.rcvNxt).toNat) = tcpWnd
  rw [htaken]
  omega

theorem Session.Kept.exec (ht : t.Kept R cur) (hok : KeepsWindow t e) (h : t.exec e = .ok t') :
    ∃ R cur, t'.Kept R cur := by
  have hsmall := ht.window.small
  have hroom := ht.room
  cases e with
  | segment arr env =>
    obtain ⟨k, hkept, -⟩ := (ht.segment hok).ok h
    exact ⟨R, cur + k, hkept⟩
  | recved len =>
    obtain ⟨pcb, hrec, rfl⟩ := map_ok h
    obtain ⟨hst, hnxt, hooseq, hwnd⟩ := Rcv.tcpRecved_spec hrec
    refine ⟨cur + pcb.rcvWnd, cur, ht.window.grow hnxt hooseq (by omega) (by omega), ?_, ?_⟩
    · dsimp only
      omega
    · dsimp only
      rw [hst, hooseq]
      exact ht.shake
  | correctWnd =>
    cases h
    split
    · obtain ⟨hst, hnxt, hooseq, hwnd⟩ := Session.correctWnd_spec hsmall
      refine ⟨cur + t.correctWnd.pcb.rcvWnd, cur,
        ht.window.grow hnxt hooseq (by omega) (by omega), ?_, ?_⟩
      · show t.correctWnd.pcb.rcvWnd + (t.unread - 1) = tcpWnd
        omega
      · rw [hst, hooseq]
        exact ht.shake
    · exact ⟨R, cur, ht⟩
  | output =>
    cases h
    exact ⟨R, cur, ht.window.alike Rcv.announce_alike, hroom, ht.shake⟩
  | close =>
    cases h
    have hwindow := ht.window
    have hshake := ht.shake
    refine ⟨R, cur, ?_, ?_, ?_⟩
    · show Windowed R cur (Session.closed t.pcb)
      rw [Session.closed]
      split <;> exact hwindow.congr rfl rfl rfl
    · show (Session.closed t.pcb).rcvWnd + t.unread = tcpWnd
      rw [Session.closed]
      split <;> exact hroom
    · show (Session.closed t.pcb).state = .synRcvd → (Session.closed t.pcb).ooseq = []
      rw [Session.closed]
      split
      · exact nofun
      · exact nofun
      · exact hshake

/-- The window is the part of the receive buffer that is not filled yet. What waits on `ooseq` ends
in it, and so does what the next segment hands up, whose assertions about the window hold. -/
structure Session.Accounted (ok : Session α → Event α → Prop) (t : Session α) : Prop where
  room : t.pcb.rcvWnd + t.unread = tcpWnd
  queued : ∀ s ∈ t.pcb.ooseq, ∃ k : ℤ, s.seqno = t.pcb.rcvNxt + (k : Seq) ∧ -1 ≤ k ∧
    k + s.tcplen ≤ t.pcb.rcvWnd ∧ s.p.length = s.len
  next : ∀ arr env, ok t (.segment arr env) →
    Passes (fun t' => ∃ k ≤ t.pcb.rcvWnd, t'.pcb.rcvNxt = t.pcb.rcvNxt + (k : Seq) ∧
      t'.pcb.rcvWnd + k = t.pcb.rcvWnd ∧
        ∃ data, t'.given = t.given ++ data ∧ data.length ≤ k) (t.exec (.segment arr env))

theorem Session.Kept.accounted (ht : t.Kept R cur) : t.Accounted KeepsWindow := by
  have hedge := ht.window.edge
  refine ⟨ht.room, fun s hs => ?_, fun arr env hok => (ht.segment hok).mono ?_⟩
  · obtain ⟨p, hp, hlo, hbytes, -, hend⟩ := ht.window.queue.of_mem hs
    refine ⟨p - cur, ?_, by omega, by omega, hbytes⟩
    rw [hp, ht.window.rcvNxt, ← Int.cast_add, add_sub_cancel]
  · rintro t' ⟨k, hkept, hdata⟩
    have hedge' := hkept.window.edge
    refine ⟨k, by omega, ?_, by omega, hdata⟩
    rw [hkept.window.rcvNxt, ht.window.rcvNxt, place_add]

theorem Session.Accounted.not_fault {ok : Session α → Event α → Prop} {arr : Arrival α} {f : Fault}
    (ht : t.Accounted ok) (hok : ok t (.segment arr env))
    (h : t.exec (.segment arr env) = .error f) : f.ofWindow = false := by
  have hnext := ht.next arr env hok
  rwa [h] at hnext

/-- The window is accounted for in every run whose segments stay inside it where `tcp_receive` does
not trim them. -/
theorem window_kept (h : (receiving α irs).Run KeepsWindow es t) : t.Accounted KeepsWindow := by
  obtain ⟨i, hirs, -⟩ := exists_place irs 0
  have hkept : ∃ R cur, t.Kept R cur := by
    refine h.invariant (I := fun _ t => ∃ R cur, t.Kept R cur) (fun t ht => ?_)
      fun es t e t' _ ht hok hstep => ?_
    · obtain ⟨-, hnxt, hwnd, hooseq, -, -, -, hunread⟩ := ht
      refine ⟨i + tcpWnd, i, ⟨hnxt.trans hirs.symm, by rw [hwnd], hwnd.le, hooseq ▸ trivial⟩, ?_,
        fun _ => hooseq⟩
      rw [hwnd, hunread]
      rfl
    · obtain ⟨R, cur, ht⟩ := ht
      exact ht.exec hok hstep
  obtain ⟨R, cur, hkept⟩ := hkept
  exact hkept.accounted

theorem window_kept_swapped :
    ∃ es t, (receiving ℕ 7).Run KeepsWindow es t ∧ es.length = 2 ∧ t.given = [1, 2, 3] ∧
      t.Accounted KeepsWindow := by
  have hfirst : KeepsWindow (openSession 7) (bytesAt 7 1 [2, 3] true (by decide)) := by
    intro _ _
    have hnone : FinFits (openSession 7).pcb ⟨8, 2, [2, 3], false, true⟩ := by
      rintro next hnext
      cases hnext
    refine ⟨fun _ => hnone, fun _ _ _ => by decide, fun _ _ _ => ?_, fun _ _ _ _ _ => ⟨?_, hnone⟩⟩
    · rintro last hlast
      cases hlast
    · decide
  have hsecond : KeepsWindow swapped (bytesAt 7 0 [1] false (by decide)) := by
    intro _ _
    have hseq : InSequence swapped.pcb ⟨7, 1, [1], false, false⟩ := .inl rfl
    refine ⟨fun _ => ?_, fun _ _ hout => absurd hseq hout, fun _ _ hout => absurd hseq hout,
      fun _ _ hout => absurd hseq hout⟩
    intro next _ _ _
    exact .inl (by decide)
  obtain ⟨t, ht, hgiven, -⟩ := exec_swapped_first
  have hrun : (receiving ℕ 7).Run KeepsWindow
      ([] ++ [bytesAt 7 1 [2, 3] true (by decide)] ++ [bytesAt 7 0 [1] false (by decide)]) t :=
    .snoc (.snoc (.start openSession_fresh) hfirst exec_swapped) hsecond ht
  exact ⟨_, t, hrun, rfl, hgiven, window_kept hrun⟩

/-- A segment that reaches past the window waits on `ooseq` as it came. -/
def overrun : Session ℕ :=
  { openSession 7 with
    pcb :=
      { (openSession 7).pcb with
        rcvAnnRightEdge := 7 + 4096
        ooseq := [⟨7 + 4095, 2, [1, 2], false, false⟩] } }

/-- Text that fills the window up to its last byte. -/
def filling : List ℕ := List.replicate 4095 0

theorem filling_length : filling.length ≤ 65495 := by
  rw [filling, List.length_replicate]
  decide

theorem overrun_fault : overrun.exec (bytesAt 7 0 filling false filling_length) =
    .error .ooseqTcplenOverRcvWnd := by
  decide +kernel

/-- The window is not kept: two segments end the program. -/
theorem window_fails :
    ¬∀ (irs : Seq) (es : List (Event ℕ)) (t : Session ℕ),
      (receiving ℕ irs).Run (fun _ _ => True) es t → t.Accounted fun _ _ => True := by
  intro hall
  have hrun : (receiving ℕ 7).Run (fun _ _ => True)
      ([] ++ [bytesAt 7 4095 [1, 2] false (by decide)]) overrun :=
    .snoc (.start openSession_fresh) trivial rfl
  have hfault : Fault.ofWindow .ooseqTcplenOverRcvWnd = false :=
    (hall 7 _ overrun hrun).not_fault trivial overrun_fault
  cases hfault

end QuietLwip.Stream
