import QuietLwip.Sender.Contents
import QuietLwip.Stream.Delivery

/-!
# From one application to the other

The sending half of one host, the receiving half of another, and a network between them that loses,
repeats, delays, reorders and cuts segments. The acknowledgements that the sending half gets are
arbitrary ones. What comes out at one end is a front part of what was put in at the other.
-/

namespace QuietLwip.Sender

open Serial Word Tcp QuietLwip.Stream Transition

variable {α : Type*}

/-! ### What is in the network -/

/-- The segment is cut out of a queued one: the bytes from some place on, and the FIN if they are the
last ones. -/
def Piece (seg : OutSeg α) (s : Seg α) : Prop :=
  seg.syn = false ∧ s.syn = false ∧ ∃ off : ℕ, s.seqno = seg.seqno + (off : Seq) ∧
    off + s.len ≤ seg.len ∧ s.p = (seg.p.drop off).take s.len ∧
    (s.fin = true → seg.fin = true ∧ off + s.len = seg.len)

namespace Snd

/-- `tcp_zero_window_probe`: the FIN if there is nothing else, and otherwise the first byte that waits. -/
def tcpZeroWindowProbe (pcb : Snd α) : Option (Seg α) :=
  pcb.queued.head?.map fun seg =>
    let isFin := seg.fin && seg.len == 0
    { seqno := seg.seqno
      len := if isFin then 0 else 1
      p := if isFin then [] else seg.p.take 1
      fin := isFin }

/-- What the probe shows is part of what waits. -/
theorem tcpZeroWindowProbe_piece {pcb : Snd α} {seg : OutSeg α} {s : Seg α}
    (hprobe : pcb.tcpZeroWindowProbe = some s) (hfirst : pcb.queued.head? = some seg)
    (hsyn : seg.syn = false) (htext : seg.len = 0 → seg.fin = true) : Piece seg s := by
  rw [tcpZeroWindowProbe, hfirst] at hprobe
  cases hprobe
  refine ⟨hsyn, rfl, 0, (add_zero _).symm, ?_, ?_, fun hfin => ?_⟩
  · dsimp only
    split
    · omega
    · next hno =>
      have hlen : seg.len ≠ 0 := fun hlen => hno (by rw [htext hlen, hlen]; rfl)
      omega
  · dsimp only
    split <;> rfl
  · dsimp only at hfin ⊢
    rw [if_pos hfin]
    rw [Bool.and_eq_true, beq_iff_eq] at hfin
    exact ⟨hfin.1, hfin.2.symm⟩

end Snd

/-- The two hosts: what has been written at the one, every segment that has been on its queues, and
the other. -/
structure Link (α : Type*) where
  snd : Snd α
  written : List α := []
  wire : List (OutSeg α) := []
  rcv : Session α

inductive Act (α : Type*) where
  | send (e : Event α)
  | receive (e : Stream.Event α)

/-- What may arrive: an acknowledgement or a keep-alive, the SYN once more, or a piece of a segment. A
SYN with an ACK is for a connection that has left `SYN_SENT`. -/
def Carried (l : Link α) : Stream.Event α → Prop
  | .segment a _ => a.Empty ∨ a.syn = true ∧ (a.ack = false ∨ l.rcv.pcb.state ≠ .synRcvd) ∨
      ∃ seg ∈ l.wire, Piece seg a.inseg
  | _ => True

/-- A step of the sending half. -/
def Link.send (mtu : Option ℕ) (e : Event α) (l : Link α) : Link α :=
  { l with
    snd := l.snd.exec mtu e
    written := l.written ++ l.snd.added e
    wire := l.wire ++ (l.snd.exec mtu e).queued }

inductive Link.Step (mtu : Option ℕ) (l : Link α) : Act α → Link α → Prop
  | send (e : Event α) : Step mtu l (.send e) (l.send mtu e)
  | receive {e : Stream.Event α} {rcv : Session α} (hcarried : Carried l e)
      (hexec : l.rcv.exec e = .ok rcv) : Step mtu l (.receive e) { l with rcv := rcv }

/-- The receiving half waits for the byte that follows the SYN of the sending half. -/
def link (α : Type*) (mtu : Option ℕ) : System (Link α) (Act α) where
  start l := (sending α mtu).start l.snd ∧ l.written = [] ∧ l.wire = l.snd.queued ∧
    l.rcv.Fresh l.snd.sndLbb
  step := Link.Step mtu

/-- The bytes are told apart by their place in the stream, which no function looks at. Nothing is put
behind a segment that has been overtaken, no byte arrives that lies half of the sequence numbers
behind, the receiving half is not that far behind, and a segment is not misjudged. -/
def Tame (place : α → ℕ) (l : Link α) : Act α → Prop
  | .send e => l.snd.Orderly l.written e ∧
      ∀ k b, (l.snd.added e)[k]? = some b → place b = l.written.length + k
  | .receive (.segment a env) =>
      (∀ b ∈ a.data, l.rcv.given.length < place b + 2147483648) ∧
      l.written.length + 1 < l.rcv.given.length + 2147483648 ∧
      (l.rcv.pcb.inWindow a.seqno = true → ¬Misjudged l.rcv.pcb a.inseg env)
  | .receive _ => True

/-! ### The invariant -/

variable {mtu : Option ℕ} {place : α → ℕ} {first : Seq} {i : ℤ} {S W : List α} {l l' : Link α}
  {seg : OutSeg α} {a : Arrival α} {env : Answers}

/-- The receiving half agrees with every stream that the application may still make of what it has
written. -/
structure Link.Sound (place : α → ℕ) (first : Seq) (i : ℤ) (l : Link α) : Prop where
  sending : l.snd.Sending l.written first
  wire : ∀ seg ∈ l.wire, seg.Holds l.written first l.snd.finQueued
  places : ∀ k b, l.written[k]? = some b → place b = k
  receiving : ∀ W, l.written <+: W → (l.snd.finQueued = true → W = l.written) → l.rcv.Sound W i

/-- After the FIN nothing is written, and the FIN stays. -/
theorem exec_closed {pcb : Snd α} (hclosed : pcb.finQueued = true) (hstate : Snd.writable pcb.state = false)
    (e : Event α) : pcb.added e = [] ∧ (pcb.exec mtu e).finQueued = true := by
  cases e with
  | write args data =>
    have hconn : pcb.tcpWriteChecks data.length = some .conn := by
      rw [Snd.tcpWriteChecks, if_pos]
      refine ⟨?_, ?_, ?_, ?_⟩ <;> exact fun h => by rw [h] at hstate; cases hstate
    have hwrite : pcb.tcpWrite args data = (pcb, .conn) := by
      rw [Snd.tcpWrite, hconn]
    exact ⟨by rw [Snd.added, hwrite]; rfl, by rw [Snd.exec, hwrite]; exact hclosed⟩
  | close env rst =>
    refine ⟨rfl, ?_⟩
    rw [Snd.exec, Snd.tcpCloseShutdown]
    split
    · exact hclosed
    · split
      · exact hclosed
      · next h => rw [h] at hstate; cases hstate
      · next h => rw [h] at hstate; cases hstate
      · next h => rw [h] at hstate; cases hstate
      · exact hclosed
  | arrive seg =>
    refine ⟨rfl, ?_⟩
    rw [Snd.exec]
    split
    · rw [Snd.tcpProcess_moves.finQueued, hclosed]
    · exact hclosed
  | output acked => exact ⟨rfl, Snd.tcpOutput_moves.finQueued.trans hclosed⟩
  | slowtmr env expired remove =>
    refine ⟨rfl, ?_⟩
    rw [Snd.exec]
    split
    · rw [Snd.tcpSlowtmr_moves.finQueued, hclosed]
    · exact hclosed
  | ackNow => exact ⟨rfl, hclosed⟩

theorem Link.Sound.send (h : l.Sound place first i) {e : Event α} (hok : Tame place l (.send e)) :
    (l.send mtu e).Sound place first i := by
  have hsending := h.sending.exec mtu hok.1
  have hclosed : l.snd.finQueued = true →
      l.snd.added e = [] ∧ (l.snd.exec mtu e).finQueued = true := fun hfin =>
    exec_closed hfin (h.sending.finished hfin) e
  refine ⟨hsending, fun seg hseg => ?_, fun k b hk => ?_, fun W hW hfin => ?_⟩
  · rcases List.mem_append.mp hseg with hseg | hseg
    · have hold := h.wire seg hseg
      cases hopen : l.snd.finQueued with
      | false =>
        rw [hopen] at hold
        exact hold.append _
      | true =>
        obtain ⟨hadded, hstill⟩ := hclosed hopen
        rw [hopen] at hold
        rw [Link.send]
        dsimp only
        rwa [hadded, hstill, List.append_nil]
    · exact hsending.queued seg hseg
  · rw [Link.send, List.getElem?_append] at hk
    split at hk
    · exact h.places k b hk
    · have := hok.2 _ b hk
      omega
  · refine h.receiving W ((List.prefix_append _ _).trans hW) fun hopen => ?_
    obtain ⟨hadded, hstill⟩ := hclosed hopen
    have hall := hfin hstill
    rwa [Link.send, hadded, List.append_nil] at hall

/-- A piece of a queued segment carries bytes of every stream that may still be made. -/
theorem Piece.carries {closed : Bool} (hseg : seg.Holds S first closed) (hpiece : Piece seg a.inseg)
    (hW : S <+: W) (hclosed : closed = true → W = S) :
    ∃ pos, Carries W first pos a ∧ pos + a.data.length ≤ S.length := by
  obtain ⟨hsyn, hnosyn, off, hseqno, hle, hp, hfin⟩ := hpiece
  obtain ⟨pos, hplace, hwithin, hslice, hend⟩ := hseg.2 hsyn
  have hle : off + a.data.length ≤ seg.len := hle
  have hslice' : a.data = (S.drop (pos + off)).take a.data.length := by
    have hp : a.data = (seg.p.drop off).take a.data.length := hp
    rw [hslice, List.drop_take, List.drop_drop, List.take_take, min_eq_left (by omega)] at hp
    exact hp
  have hbound : pos + off + a.data.length ≤ S.length := by omega
  refine ⟨pos + off, ⟨?_, ?_, ?_, fun h => ?_, hnosyn⟩, hbound⟩
  · have hseqno : a.seqno = seg.seqno + (off : Seq) := hseqno
    rw [hseqno, hplace, Nat.cast_add, add_assoc]
  · exact hbound.trans hW.length_le
  · obtain ⟨rest, rfl⟩ := hW
    rw [slice_append hbound]
    exact hslice'
  · obtain ⟨hsegfin, hlast⟩ := hfin h
    obtain ⟨hc, hall⟩ := hend hsegfin
    rw [hclosed hc]
    have hlast : off + a.data.length = seg.len := hlast
    omega

/-- A SYN that comes again is answered or ignored. -/
theorem sound_synAgain {t t' : Session α} (ht : t.Sound S i) (hsyn : a.syn = true)
    (hagain : a.ack = false ∨ t.pcb.state ≠ .synRcvd) (h : t.exec (.segment a env) = .ok t') :
    t'.Sound S i := by
  obtain ⟨⟨pcb, r⟩, hproc, rfl⟩ := map_ok h
  suffices hr : r = {} ∧ Rcv.Alike pcb t.pcb by
    obtain ⟨rfl, halike⟩ := hr
    refine ⟨?_, fun hgot => ?_⟩
    · show Delivered S i pcb (t.given ++ []) (t.gotFin || false)
      rw [List.append_nil, Bool.or_false]
      exact ht.delivered.alike halike
    · replace hgot : (t.gotFin || false) = true := hgot
      rw [Bool.or_false] at hgot
      show Deaf pcb.state
      rw [halike.state]
      exact ht.deaf hgot
  rw [Rcv.tcpProcess] at hproc
  split at hproc
  · cases hproc
    exact ⟨rfl, Rcv.tcpAckNow_alike⟩
  · next hstate =>
    have hstate : t.pcb.state = .synRcvd := by
      rw [hsyn] at hstate
      simpa using hstate
    have hack := hagain.resolve_right (not_not.mpr hstate)
    have halike : Rcv.Alike (t.pcb.setMss a.mss) t.pcb := Rcv.setMss_alike
    dsimp only at hproc
    rw [halike.state, hstate, hack] at hproc
    cases hproc
    exact ⟨rfl, halike⟩

theorem Link.Sound.receive (hfirst : (i : Seq) = first) (h : l.Sound place first i) {e : Stream.Event α}
    (hcarried : Carried l e) (hok : Tame place l (.receive e)) {rcv : Session α}
    (hexec : l.rcv.exec e = .ok rcv) : Link.Sound place first i { l with rcv := rcv } := by
  refine ⟨h.sending, h.wire, h.places, fun W hW hclosed => ?_⟩
  have ht := h.receiving W hW hclosed
  suffices hall : (∃ a env, e = .segment a env ∧ a.syn = true ∧
      (a.ack = false ∨ l.rcv.pcb.state ≠ .synRcvd)) ∨ WellJudged W first l.rcv e by
    rcases hall with ⟨a, env, rfl, hsyn, hagain⟩ | hjudged
    · exact sound_synAgain ht hsyn hagain hexec
    · exact ht.exec hfirst hjudged hexec
  cases e with
  | recved _ | correctWnd | output | close => exact .inr trivial
  | segment a env =>
    obtain ⟨hrecent, hahead, hjudged⟩ := hok
    rcases hcarried with hempty | ⟨hsyn, hagain⟩ | ⟨seg, hseg, hpiece⟩
    · exact .inr (.inl hempty)
    · exact .inl ⟨a, env, rfl, hsyn, hagain⟩
    · obtain ⟨pos, hcarries, hbound⟩ := hpiece.carries (h.wire seg hseg) hW hclosed
      by_cases hnone : a.data = [] ∧ a.fin = false
      · exact .inr (.inl ⟨hnone.1, hnone.2, hpiece.2.1⟩)
      refine .inr (.inr ⟨⟨pos, hcarries, ?_, by omega⟩, hjudged⟩)
      cases hdata : a.data with
      | nil =>
        -- a FIN by itself comes behind all that has been written
        have hfin : a.fin = true := by
          rw [hdata] at hnone
          simpa using hnone
        have hend := hcarries.2.2.2.1 hfin
        have hgiven := ht.delivered.bytes.length_le
        rw [hdata, List.length_nil] at hend
        omega
      | cons b rest =>
        have hb : W[pos]? = some b := by
          have hslice := hcarries.2.2.1
          rw [hdata] at hslice
          have hhead := congrArg List.head? hslice
          rw [List.head?_take, if_neg (by simp), List.head?_drop] at hhead
          exact hhead.symm
        have hlen : pos < l.written.length := by
          rw [hdata, List.length_cons] at hbound
          omega
        have hplace : place b = pos := by
          refine h.places pos b ?_
          obtain ⟨more, rfl⟩ := hW
          rwa [List.getElem?_append_left hlen] at hb
        have := hrecent b (hdata ▸ List.mem_cons_self)
        omega

theorem Link.Sound.start (h : (link α mtu).start l) (hfirst : (i : Seq) = l.snd.sndLbb) :
    l.Sound place l.snd.sndLbb i := by
  obtain ⟨hsnd, hwritten, hwire, hrcv⟩ := h
  have hsending := Snd.sending_start hsnd
  refine ⟨?_, ?_, ?_, fun W _ _ => hrcv.sound hfirst⟩
  · rwa [hwritten]
  · rw [hwire, hwritten]
    exact hsending.queued
  · rw [hwritten]
    exact nofun

/-- The SYN has been sent, and the other side waits for what follows it. -/
def opening : Link ℕ where
  snd := .tcpConnect none 7 true
  wire := (Snd.tcpConnect (α := ℕ) none 7 true).queued
  rcv := openSession 7

/-- The answer to the SYN -/
def synAck : Incoming where
  seqno := 100
  ackno := 7
  wnd := 4096
  syn := true
  wnd_lt := tcpWnd_lt

/-- The connection is open, and three bytes and the FIN wait to be sent. -/
def threeWritten : Link ℕ :=
  opening.send none (.arrive synAck) |>.send none (.write { allocs := 2 } [1, 2, 3])
    |>.send none (.close {} false)

theorem threeWritten_wire :
    ({ seqno := 7, len := 3, p := [1, 2, 3], fin := true } : OutSeg ℕ) ∈ threeWritten.wire := by decide

/-- A run in which the end of the stream comes first. -/
theorem reachable_swapped : ∃ l : Link ℕ, (link ℕ none).ReachableWhile (Tame (· - 1)) l ∧
    l.rcv.gotFin = true ∧ l.written = [1, 2, 3] := by
  have hstart : (link ℕ none).start opening :=
    ⟨.inl ⟨7, true, rfl⟩, rfl, rfl, openSession_fresh⟩
  have hsent : ∃ as, (link ℕ none).Run (Tame (· - 1)) as threeWritten := by
    refine ⟨_, .snoc (.snoc (.snoc (.start hstart) ?_ (.send (.arrive synAck))) ?_
      (.send (.write { allocs := 2 } [1, 2, 3]))) ?_ (.send (.close {} false))⟩
    · exact ⟨trivial, nofun⟩
    · refine ⟨nofun, fun k b hk => ?_⟩
      match k, hk with
      | 0, rfl => rfl
      | 1, rfl => rfl
      | 2, rfl => rfl
    · have htail : Snd.TailCurrent [1, 2, 3] (opening.send none (.arrive synAck) |>.send none
          (.write { allocs := 2 } [1, 2, 3])).snd := by decide
      exact ⟨htail, nofun⟩
  obtain ⟨as, hsent⟩ := hsent
  obtain ⟨t, ht, -, hgot⟩ := exec_swapped_first
  -- the end of the segment, and then its first byte
  have hend : Carried threeWritten (bytesAt 7 1 [2, 3] true (by decide)) :=
    .inr (.inr ⟨_, threeWritten_wire, rfl, rfl, 1, rfl, by decide, rfl, fun _ => ⟨rfl, rfl⟩⟩)
  have hfront : Carried { threeWritten with rcv := swapped } (bytesAt 7 0 [1] false (by decide)) :=
    .inr (.inr ⟨_, threeWritten_wire, rfl, rfl, 0, rfl, by decide, rfl, nofun⟩)
  have htame : Tame (· - 1) threeWritten (.receive (bytesAt 7 1 [2, 3] true (by decide))) := by
    refine ⟨by decide, by decide, fun _ => ?_⟩
    rintro ⟨-, last, hlast, -⟩
    cases hlast
  have htame' : Tame (· - 1) { threeWritten with rcv := swapped }
      (.receive (bytesAt 7 0 [1] false (by decide))) := by
    refine ⟨by decide, by decide, fun _ => ?_⟩
    rintro ⟨-, last, hlast, -, hfin, -⟩
    cases Option.mem_some.mp hlast
    cases hfin
  exact ⟨_, ⟨_, .snoc (.snoc hsent htame (.receive hend exec_swapped)) htame' (.receive hfront ht)⟩,
    hgot, rfl⟩

end QuietLwip.Sender
