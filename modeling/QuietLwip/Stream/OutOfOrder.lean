import QuietLwip.Stream.Receive

/-!
# The queue of text that is out of sequence

The segments on `ooseq` stand at increasing places of the stream without overlapping, and only the
last of them can carry a FIN. What else is true of every one of them at its place is a parameter.
-/

namespace QuietLwip.Stream

open Serial Word

variable {α : Type*} {P P' : ℤ → Seg α → Prop} {a lo lo' p : ℤ} {n : ℕ} {s inseg cseg : Seg α}
  {q q' rest : List (Seg α)}

/-- The segments of `q` stand one behind the other from the place `lo` on, each of them as `P`
says. -/
def Laid (P : ℤ → Seg α → Prop) : ℤ → List (Seg α) → Prop
  | _, [] => True
  | lo, s :: q => ∃ p : ℤ, s.seqno = p ∧ lo ≤ p ∧ P p s ∧ (s.fin = true → q = []) ∧
      Laid P (p + max s.len 1) q

namespace Laid

theorem mono (hle : lo' ≤ lo) (hq : Laid P lo q) : Laid P lo' q := by
  cases q with
  | nil => trivial
  | cons s q =>
    obtain ⟨p, hp, hlo, hq⟩ := hq
    exact ⟨p, hp, hle.trans hlo, hq⟩

theorem imp (himp : ∀ p s, P p s → P' p s) (hq : Laid P lo q) : Laid P' lo q := by
  induction q generalizing lo with
  | nil => trivial
  | cons s q ih =>
    obtain ⟨p, hp, hlo, hs, hfin, hq⟩ := hq
    exact ⟨p, hp, hlo, himp p s hs, hfin, ih hq⟩

theorem single (hs : s.seqno = (p : Seq)) (hlo : lo ≤ p) (hP : P p s) : Laid P lo [s] :=
  ⟨p, hs, hlo, hP, fun _ => rfl, trivial⟩

theorem of_mem (hq : Laid P lo q) (hs : s ∈ q) : ∃ p : ℤ, s.seqno = p ∧ lo ≤ p ∧ P p s := by
  induction q generalizing lo with
  | nil => cases hs
  | cons t q ih =>
    obtain ⟨p, hp, hlo, ht, -, hq⟩ := hq
    rcases List.mem_cons.mp hs with rfl | hs
    · exact ⟨p, hp, hlo, ht⟩
    · obtain ⟨r, hr, hle, hs⟩ := ih hq hs
      exact ⟨r, hr, by omega, hs⟩

/-- A rear part of the queue can be replaced. -/
theorem replace {front : List (Seg α)} (hq : Laid P lo (front ++ s :: rest)) :
    ∃ p : ℤ, s.seqno = p ∧ lo ≤ p ∧ P p s ∧ (s.fin = true → rest = []) ∧
      Laid P (p + max s.len 1) rest ∧ ∀ q, Laid P p q → Laid P lo (front ++ q) := by
  induction front generalizing lo with
  | nil =>
    obtain ⟨p, hp, hlo, hs, hfin, hq⟩ := hq
    exact ⟨p, hp, hlo, hs, hfin, hq, fun q hq => hq.mono hlo⟩
  | cons t front ih =>
    obtain ⟨r, hr, hlo, ht, hfin, hq⟩ := hq
    obtain ⟨p, hp, hle, hs, hlast, hrest, hput⟩ := ih hq
    refine ⟨p, hp, by omega, hs, hlast, hrest, fun q hq => ?_⟩
    exact ⟨r, hr, hlo, ht, fun htrue => by simpa using hfin htrue, hput q hq⟩

end Laid

/-- What `P` has to allow for: the places are less than half of the number space behind `B`, and a
segment without FIN can be cut. -/
structure Admits (P : ℤ → Seg α → Prop) (B : ℤ) : Prop where
  len : ∀ {p s}, P p s → s.len ≤ 65535
  near : ∀ {p s}, P p s → p + s.len < B + 2147483647
  cut : ∀ {p s n}, P p s → s.fin = false → n ≤ s.len → P p (s.cut n)

variable {B : ℤ}

/-- `coveredLoop` keeps a rear part of the queue. -/
theorem coveredLoop_spec (reach : Seg α → Seq) (takes : Seg α → Bool) (hq : Laid P lo q) :
    Laid P lo (Rcv.coveredLoop reach takes s q).2 ∧
      ((Rcv.coveredLoop reach takes s q).1 = s ∧
          (∀ next ∈ (Rcv.coveredLoop reach takes s q).2.head?,
            tcpSeqGeq (reach s) (next.seqno + next.len) = false) ∨
        (Rcv.coveredLoop reach takes s q).1 = { s with fin := true } ∧
          (Rcv.coveredLoop reach takes s q).2 = [] ∧
          ∃ next ∈ q, next.fin = true ∧ tcpSeqGeq (reach s) (next.seqno + next.len) = true) := by
  induction q generalizing lo with
  | nil => exact ⟨trivial, .inl ⟨rfl, by simp [Rcv.coveredLoop]⟩⟩
  | cons next rest ih =>
    rw [Rcv.coveredLoop]
    split
    · next hcovered =>
      obtain ⟨p, hp, hlo, -, hfin, hrest⟩ := hq
      by_cases htaken : next.fin = true ∧ takes s = true
      · have hnil := hfin htaken.1
        subst hnil
        rw [if_pos (by rw [htaken.1, htaken.2]; rfl)]
        exact ⟨trivial, .inr ⟨rfl, rfl, next, List.mem_cons_self, htaken.1, hcovered⟩⟩
      · rw [if_neg (by simpa using htaken)]
        obtain ⟨hlaid, hseg⟩ := ih hrest
        refine ⟨hlaid.mono (by omega), hseg.imp_right ?_⟩
        rintro ⟨heq, hnil, t, ht, hrest⟩
        exact ⟨heq, hnil, t, List.mem_cons_of_mem _ ht, hrest⟩
    · next hcovered =>
      refine ⟨hq, .inl ⟨rfl, ?_⟩⟩
      intro t ht
      cases Option.mem_some.mp ht
      simpa using hcovered

/-! ### Text in sequence -/

/-- What becomes of text that is next in sequence, at the place `a`: it is left alone, or takes
over the FIN of a segment that it covers, or is cut where the queue begins. -/
theorem adjustOoseq_spec (hP : Admits P B) (ha : inseg.seqno = (a : Seq)) (hB : B ≤ lo)
    (hlo : a - 1 ≤ lo) (hBa : B ≤ a) (hlen : inseg.len ≤ 65535)
    (hend : a + inseg.len < B + 2147483647) (hsyn : inseg.syn = true → q = [])
    (hq : Laid P lo q) (h : Rcv.adjustOoseq inseg q = .ok (cseg, q')) :
    Laid P (a + cseg.tcplen) q' ∧ (cseg.fin = true → q' = []) ∧
      (cseg = inseg ∨
        inseg.fin = false ∧ cseg = { inseg with fin := true } ∧
          (∃ next ∈ q, ∃ p : ℤ, next.seqno = p ∧ lo ≤ p ∧ P p next ∧ next.fin = true ∧
            p + next.len ≤ a + inseg.len) ∨
        inseg.fin = false ∧ ∃ n ≤ inseg.len, cseg = inseg.cut n) := by
  by_cases hnil : q = []
  · obtain ⟨rfl, rfl⟩ : inseg = cseg ∧ [] = q' := by
      rw [hnil] at h
      unfold Rcv.adjustOoseq Rcv.removeCovered Rcv.coveredLoop at h
      split at h
      · cases h
        exact ⟨rfl, rfl⟩
      · cases h
        exact ⟨rfl, rfl⟩
    exact ⟨trivial, fun _ => rfl, .inl rfl⟩
  have hnosyn : inseg.syn = false := Bool.eq_false_iff.mpr fun htrue => hnil (hsyn htrue)
  unfold Rcv.adjustOoseq at h
  by_cases hfin : inseg.fin = true
  · rw [if_pos hfin] at h
    cases h
    exact ⟨trivial, fun _ => rfl, .inl rfl⟩
  rw [if_neg hfin] at h
  have hfin : inseg.fin = false := by simpa using hfin
  have hplain : inseg.tcplen = inseg.len := Seg.tcplen_plain hfin hnosyn
  have hspec := coveredLoop_spec (s := inseg) (fun inseg => inseg.seqno + inseg.tcplen)
    (fun inseg => !inseg.syn) hq
  unfold Rcv.removeCovered at h
  revert h hspec
  generalize Rcv.coveredLoop _ _ inseg q = removed
  obtain ⟨seg, rest⟩ := removed
  rintro h ⟨hlaid, hseg⟩
  cases rest with
  | nil =>
    cases h
    refine ⟨trivial, fun _ => rfl, ?_⟩
    rcases hseg with ⟨rfl, -⟩ | ⟨rfl, -, next, hmem, hnext, hcovered⟩
    · exact .inl rfl
    · obtain ⟨p, hp, hlop, hPp⟩ := hq.of_mem hmem
      refine .inr (.inl ⟨hfin, rfl, next, hmem, p, hp, hlop, hPp, hnext, ?_⟩)
      have hnear := hP.near hPp
      rw [ha, hp, place_add, place_add, hplain, tcpSeqGeq_place (by omega) (by omega)] at hcovered
      exact of_decide_eq_true hcovered
  | cons next rest =>
    obtain rfl : seg = inseg := by
      rcases hseg with ⟨rfl, -⟩ | ⟨-, hnil, -⟩
      · rfl
      · cases hnil
    obtain ⟨p, hp, hlop, hPp, hfinp, hrest⟩ := hlaid
    have hnear := hP.near hPp
    simp only [hplain, ha, hp, place_add, hnosyn, Bool.toNat_false, Nat.cast_zero, sub_zero,
      tcpSeqGt_place (p := a + seg.len) (q := p) (by omega) (by omega), decide_eq_true_eq] at h
    split at h
    · next hgt =>
      generalize hn : u16 (u16 ((p : Seq) - (a : Seq)).toNat) = n at h
      rw [Seg.tcplen_plain (s := seg.cut n) hfin hnosyn, Seg.cut_len, Seg.cut_seqno, ha,
        place_add] at h
      split at h
      · next hasserted =>
        cases h
        have hbound := u16_lt n
        rw [place_inj (by omega) (by omega)] at hasserted
        have hap : a ≤ p := by omega
        rw [toNat_sub_place hap (by omega), u16_natCast (n := (p - a).toNat) (by omega),
          u16_natCast (by omega)] at hn
        refine ⟨⟨p, hp, ?_, hPp, hfinp, hrest⟩, fun h => absurd (hfin.symm.trans h) Bool.false_ne_true,
          .inr (.inr ⟨hfin, n, by omega, rfl⟩)⟩
        rw [Seg.tcplen_plain (s := seg.cut n) hfin hnosyn, Seg.cut_len]
        omega
      · cases h
    · next hgt =>
      cases h
      exact ⟨⟨p, hp, by omega, hPp, hfinp, hrest⟩, fun h => absurd (hfin.symm.trans h) Bool.false_ne_true,
        .inl rfl⟩

/-! ### Text out of sequence -/

/-- Inserting a segment, at the place `a`, in front of a queue that begins behind it. -/
theorem tcpOosInsertSegment_laid (hP : Admits P B) (ha : cseg.seqno = (a : Seq)) (hBa : B ≤ a)
    (hPa : P a cseg)
    (hfin : ∀ next ∈ q, ∀ p : ℤ, next.seqno = p → B ≤ p → P p next → next.fin = true →
      p + next.len ≤ a + cseg.len → P a { cseg with fin := true })
    (hq : Laid P (a + 1) q) : Laid P a (Rcv.tcpOosInsertSegment cseg q) := by
  have hnear := hP.near hPa
  rw [Rcv.tcpOosInsertSegment]
  by_cases hcfin : cseg.fin = true
  · rw [if_pos hcfin]
    exact .single ha le_rfl hPa
  rw [if_neg hcfin]
  have hspec := coveredLoop_spec (s := cseg) (fun cseg => cseg.seqno + cseg.len)
    (fun _ => true) hq
  rw [Rcv.freeCovered]
  revert hspec
  generalize Rcv.coveredLoop _ _ cseg q = freed
  obtain ⟨seg, rest⟩ := freed
  rintro ⟨hlaid, hseg⟩
  rcases hseg with ⟨heq, -⟩ | ⟨heq, hnil, next, hmem, hnext, hcovered⟩
  · obtain rfl : seg = cseg := heq
    cases rest with
    | nil => exact .single ha le_rfl hPa
    | cons next rest =>
      obtain ⟨p, hp, hlo, hPp, hlast, hrest⟩ := hlaid
      have hnearp := hP.near hPp
      have hlenc := hP.len hPa
      simp only [ha, hp, place_add, tcpSeqGt_place (p := a + seg.len) (q := p) (by omega) (by omega),
        decide_eq_true_eq]
      split
      · next hgt =>
        rw [toNat_sub_place (by omega) (by omega), u16_natCast (by omega)]
        refine ⟨a, ha, le_rfl, hP.cut hPa (by simpa using hcfin) (by omega),
          fun h => absurd h hcfin, p, hp, ?_, hPp, hlast, hrest⟩
        rw [Seg.cut_len]
        omega
      · next hgt =>
        exact ⟨a, ha, le_rfl, hPa, fun h => absurd h hcfin, p, hp, by omega, hPp, hlast, hrest⟩
  · obtain rfl : seg = { cseg with fin := true } := heq
    obtain rfl : rest = [] := hnil
    obtain ⟨p, hp, hlo, hPp⟩ := hq.of_mem hmem
    have hnearp := hP.near hPp
    rw [ha, hp, place_add, place_add, tcpSeqGeq_place (by omega) (by omega)] at hcovered
    exact .single ha le_rfl (hfin next hmem p hp (by omega) hPp hnext (of_decide_eq_true hcovered))

/-- A segment that reaches as far as one at the same place replaces it. -/
theorem tcpOosInsertSegment_same (hP : Admits P B) (ha : cseg.seqno = (a : Seq)) (hBa : B ≤ a)
    (hPa : P a cseg) (hs : s.seqno = (a : Seq)) (hle : s.len ≤ cseg.len)
    (hfin : ∀ next ∈ s :: rest, ∀ p : ℤ, next.seqno = p → B ≤ p → P p next → next.fin = true →
      p + next.len ≤ a + cseg.len → P a { cseg with fin := true })
    (hq : Laid P a (s :: rest)) : Laid P a (Rcv.tcpOosInsertSegment cseg (s :: rest)) := by
  obtain ⟨p, hp, hlo, hPs, hlast, hrest⟩ := hq
  have hnear := hP.near hPa
  have hnears := hP.near hPs
  obtain rfl : p = a := by
    rw [hs] at hp
    exact ((place_inj (by omega) (by omega)).mp hp).symm
  by_cases hcfin : cseg.fin = true
  · rw [Rcv.tcpOosInsertSegment, if_pos hcfin]
    exact .single ha le_rfl hPa
  have hcovered : tcpSeqGeq (cseg.seqno + cseg.len) (s.seqno + s.len) = true := by
    rw [ha, hs, place_add, place_add, tcpSeqGeq_place (by omega) (by omega)]
    exact decide_eq_true (by omega)
  by_cases hsfin : s.fin = true
  · obtain rfl := hlast hsfin
    have heq : Rcv.tcpOosInsertSegment cseg [s] = [{ cseg with fin := true }] := by
      rw [Rcv.tcpOosInsertSegment, if_neg hcfin, Rcv.freeCovered, Rcv.coveredLoop, if_pos hcovered,
        hsfin]
      rfl
    rw [heq]
    exact .single ha le_rfl (hfin s List.mem_cons_self p hs hBa hPs hsfin (by omega))
  · have heq : Rcv.tcpOosInsertSegment cseg (s :: rest) = Rcv.tcpOosInsertSegment cseg rest := by
      rw [Rcv.tcpOosInsertSegment, Rcv.tcpOosInsertSegment, if_neg hcfin, if_neg hcfin,
        Rcv.freeCovered, Rcv.freeCovered, Rcv.coveredLoop, if_pos hcovered,
        if_neg (by simpa using hsfin)]
    rw [heq]
    exact tcpOosInsertSegment_laid hP ha hBa hPa
      (fun next hmem => hfin next (List.mem_cons_of_mem _ hmem)) (hrest.mono (by omega))

/-- A segment at the place `p` is trimmed to end in front of the place `a`. -/
theorem trimSecondEdge_spec (hP : Admits P B) (hs : s.seqno = (p : Seq)) (hB : B ≤ p)
    (hpa : p < a) (haB : a < B + 2147483647) (hfin : s.fin = false) (hPs : P p s) :
    P p (Rcv.trimSecondEdge (a : Seq) s) ∧ (Rcv.trimSecondEdge (a : Seq) s).seqno = (p : Seq) ∧
      (Rcv.trimSecondEdge (a : Seq) s).fin = false ∧
      p + max (Rcv.trimSecondEdge (a : Seq) s).len 1 ≤ a := by
  have hnear := hP.near hPs
  have hlen := hP.len hPs
  rw [Rcv.trimSecondEdge]
  rw [hs, place_add, tcpSeqGt_place (by omega) (by omega)]
  split
  · next hgt =>
    have hgt := of_decide_eq_true hgt
    rw [toNat_sub_place (by omega) (by omega), u16_natCast (by omega)]
    refine ⟨hP.cut hPs hfin (by omega), hs, hfin, ?_⟩
    rw [Seg.cut_len]
    omega
  · next hgt =>
    simp only [decide_eq_true_eq] at hgt
    exact ⟨hPs, hs, hfin, by omega⟩

/-- The segment comes behind the last one of the queue. -/
def ComesLast (inseg : Seg α) (q : List (Seg α)) : Prop :=
  ∃ last ∈ q.getLast?, tcpSeqGt inseg.seqno last.seqno = true

/-- No queued segment makes `inseg` superfluous. -/
def Longer (inseg : Seg α) (q : List (Seg α)) : Prop :=
  ∀ s ∈ q, s.seqno = inseg.seqno → s.len < inseg.len

theorem not_comesLast (hP : Admits P B) (ha : inseg.seqno = (a : Seq)) (hBa : B ≤ a)
    (hq : Laid P a q) : ¬ComesLast inseg q := by
  rintro ⟨last, hlast, hgt⟩
  obtain ⟨p, hp, hle, hPp⟩ := hq.of_mem (List.mem_of_getLast? hlast)
  have hnear := hP.near hPp
  rw [ha, hp, tcpSeqGt_place (by omega) (by omega)] at hgt
  exact absurd (of_decide_eq_true hgt) (by omega)

theorem longer_of_laid (hP : Admits P B) (ha : inseg.seqno = (a : Seq)) (hBa : B ≤ a)
    (hq : Laid P (a + 1) q) : Longer inseg q := by
  intro s hs heq
  obtain ⟨p, hp, hle, hPp⟩ := hq.of_mem hs
  have hnear := hP.near hPp
  rw [ha, hp, place_inj (by omega) (by omega)] at heq
  omega

/-- What has to hold of `inseg`, at the place `a`, for the queue to stay laid out when it is
inserted. -/
structure Insertable (P : ℤ → Seg α → Prop) (B : ℤ) (pcb : Rcv α) (inseg : Seg α) (a : ℤ)
    (q : List (Seg α)) : Prop where
  here : ¬ComesLast inseg q → Longer inseg q → P a inseg
  fin : ¬ComesLast inseg q → Longer inseg q → ∀ next ∈ q, ∀ p : ℤ, next.seqno = p → B ≤ p →
    P p next → next.fin = true → p + next.len ≤ a + inseg.len → P a { inseg with fin := true }
  last : ∀ last ∈ q.getLast?, tcpSeqGt inseg.seqno last.seqno = true → last.fin = false →
    ∀ cseg, pcb.lastCopy inseg = .ok cseg → cseg.seqno = (a : Seq) ∧ P a cseg

theorem Insertable.tail {pcb : Rcv α} (hins : Insertable P B pcb inseg a (s :: q)) (hq : q ≠ [])
    (hs : s.seqno ≠ inseg.seqno) : Insertable P B pcb inseg a q := by
  have hgetLast : (s :: q).getLast? = q.getLast? := by
    rw [List.getLast?_cons, List.getLast?_eq_getLast_of_ne_nil hq]
    rfl
  have hcomes : ComesLast inseg (s :: q) ↔ ComesLast inseg q := by
    rw [ComesLast, hgetLast, ComesLast]
  have hlonger : Longer inseg q → Longer inseg (s :: q) := by
    intro h t ht heq
    rcases List.mem_cons.mp ht with rfl | ht
    · exact absurd heq hs
    · exact h t ht heq
  constructor
  · exact fun hnot hlong => hins.here (hcomes.not.mpr hnot) (hlonger hlong)
  · exact fun hnot hlong next hmem =>
      hins.fin (hcomes.not.mpr hnot) (hlonger hlong) next (List.mem_cons_of_mem _ hmem)
  · exact fun last hlast => hins.last last (hgetLast ▸ hlast)

/-- The end of the queue: `inseg` comes behind its last segment. -/
theorem queueLast_laid {env : Answers} {pcb : Rcv α} {front : List (Seg α)} (hP : Admits P B)
    (ha : inseg.seqno = (a : Seq)) (hB : B ≤ lo) (hlo : lo ≤ a) (haB : a < B + 2147483647)
    (hins : env.copied = true → Insertable P B pcb inseg a [s])
    (hgt : tcpSeqGt inseg.seqno s.seqno = true) (hq : Laid P lo (front ++ [s]))
    (h : (if s.fin || !env.copied then Except.ok (front ++ [s])
      else (pcb.lastCopy inseg).map fun cseg =>
        front ++ [Rcv.trimSecondEdge inseg.seqno s, cseg]) = .ok q') : Laid P lo q' := by
  split at h
  · cases h
    exact hq
  · next hcase =>
    obtain ⟨hfin, hcopied⟩ : s.fin = false ∧ env.copied = true := by simpa using hcase
    obtain ⟨p, hp, hlop, hPs, -, -, hput⟩ := hq.replace
    have hnear := hP.near hPs
    cases hlast : pcb.lastCopy inseg with
    | error f =>
      rw [hlast] at h
      cases h
    | ok cseg =>
      rw [hlast] at h
      cases h
      obtain ⟨hcseg, hPc⟩ := (hins hcopied).last s rfl hgt hfin cseg hlast
      rw [ha, hp, tcpSeqGt_place (by omega) (by omega)] at hgt
      obtain ⟨hPt, ht, htfin, hend⟩ :=
        trimSecondEdge_spec hP hp (by omega) (of_decide_eq_true hgt) haB hfin hPs
      rw [ha]
      refine hput _ ⟨p, ht, le_rfl, hPt, fun h => ?_, .single hcseg hend hPc⟩
      rw [htfin] at h
      cases h

/-- The walk over `ooseq` keeps it laid out. -/
theorem queueOoseq_laid {env : Answers} {pcb : Rcv α} {prev : Option (Seg α)} (hP : Admits P B)
    (ha : inseg.seqno = (a : Seq)) (hB : B ≤ lo) (hlo : lo ≤ a) (haB : a < B + 2147483647)
    (hins : env.copied = true → q ≠ [] → Insertable P B pcb inseg a q)
    (hprev : ∀ s ∈ prev, ∃ p : ℤ, s.seqno = p ∧ lo ≤ p ∧ p < a)
    (hq : Laid P lo (prev.toList ++ q)) (h : pcb.queueOoseq env inseg prev q = .ok q') :
    Laid P lo q' := by
  induction q generalizing prev lo q' with
  | nil =>
    cases h
    simpa using hq
  | cons next rest ih =>
    obtain ⟨p, hp, hle, hPn, hlast, hrest, hput⟩ := hq.replace
    have hnear := hP.near hPn
    have hnext : Laid P p (next :: rest) := ⟨p, hp, le_rfl, hPn, hlast, hrest⟩
    replace hins := fun hcopied => hins hcopied (List.cons_ne_nil _ _)
    -- the walk goes on when `inseg` lies behind `next`
    have hbehind : p < a → pcb.queueBehind env inseg prev next rest
        (pcb.queueOoseq env inseg (some next) rest) = .ok q' → Laid P lo q' := by
      intro hpa hb
      unfold Rcv.queueBehind at hb
      split at hb
      · next hend =>
        obtain ⟨hnil, hgt⟩ : rest = [] ∧ tcpSeqGt inseg.seqno next.seqno = true := by
          simpa using hend
        subst hnil
        exact queueLast_laid hP ha hB hlo haB hins hgt hq hb
      · cases hfurther : pcb.queueOoseq env inseg (some next) rest with
        | error f =>
          rw [hfurther] at hb
          cases hb
        | ok q'' =>
          have hnext' : Laid P p ((some next).toList ++ rest) := hnext
          rw [hfurther] at hb
          cases hb
          refine hput _ (ih (by omega) hpa.le (fun hcopied hnil => ?_) ?_ hnext' hfurther)
          · refine (hins hcopied).tail hnil fun heq => ?_
            rw [hp, ha, place_inj (by omega) (by omega)] at heq
            omega
          · intro s hs
            cases Option.mem_some.mp hs
            exact ⟨p, hp, le_rfl, hpa⟩
    unfold Rcv.queueOoseq at h
    split at h
    · next hsame =>
      cases h
      rw [ha, hp, place_inj (by omega) (by omega)] at hsame
      subst hsame
      split
      · next hlonger =>
        obtain ⟨hlen, hcopied⟩ : next.len < inseg.len ∧ env.copied = true := by
          simpa using hlonger
        have hnot := not_comesLast hP ha (hB.trans hlo) hnext
        have hlong : Longer inseg (next :: rest) := by
          intro s hs heq
          rcases List.mem_cons.mp hs with rfl | hs
          · exact hlen
          · exact longer_of_laid hP ha (hB.trans hlo) (hrest.mono (by omega)) s hs heq
        exact hput _ (tcpOosInsertSegment_same hP ha (hB.trans hlo)
          ((hins hcopied).here hnot hlong) hp hlen.le ((hins hcopied).fin hnot hlong) hnext)
      · exact hq
    · next hdiff =>
      have hne : p ≠ a := by
        rintro rfl
        exact hdiff (ha.trans hp.symm)
      -- in front of `next` nothing but the segments in front of `inseg` can be in its way
      have hinsert : a < p → env.copied = true →
          Laid P a (Rcv.tcpOosInsertSegment inseg (next :: rest)) := by
        intro hap hcopied
        have hlaid : Laid P (a + 1) (next :: rest) := hnext.mono (by omega)
        have hnot := not_comesLast hP ha (hB.trans hlo) (hlaid.mono (by omega))
        have hlong := longer_of_laid hP ha (hB.trans hlo) hlaid
        exact tcpOosInsertSegment_laid hP ha (hB.trans hlo) ((hins hcopied).here hnot hlong)
          ((hins hcopied).fin hnot hlong) hlaid
      cases prev with
      | none =>
        dsimp only at h
        rw [ha, hp, tcpSeqLt_place (by omega) (by omega)] at h
        split at h
        · next hlt =>
          cases h
          split
          · next hcopied => exact (hinsert (of_decide_eq_true hlt) hcopied).mono hlo
          · exact hq
        · next hlt =>
          refine hbehind ?_ h
          simp only [decide_eq_true_eq] at hlt
          omega
      | some prev =>
        dsimp only at h
        obtain ⟨r, hr, hlor, hra⟩ := hprev prev rfl
        have hlaid : Laid P lo (prev :: next :: rest) := hq
        obtain ⟨r', hr', hlor', hPr, hfinr, -⟩ := hlaid
        obtain rfl : r = r' := by
          have hnearr := hP.near hPr
          rw [hr, place_inj (by omega) (by omega)] at hr'
          exact hr'
        rw [ha, hp, hr, place_add_one, place_sub_one,
          tcpSeqBetween_place (by omega) (by omega) (by omega) (by omega)] at h
        split at h
        · next hbetween =>
          have hbetween := of_decide_eq_true hbetween
          cases h
          split
          · next hcopied =>
            have hprevfin : prev.fin = false :=
              Bool.eq_false_iff.mpr fun htrue => by simpa using hfinr htrue
            obtain ⟨hPt, ht, htfin, hend⟩ :=
              trimSecondEdge_spec hP hr (by omega) hra haB hprevfin hPr
            refine ⟨r, ht, hlor, hPt, fun h => ?_, (hinsert (by omega) hcopied).mono hend⟩
            rw [htfin] at h
            cases h
          · exact hq
        · next hbetween =>
          refine hbehind ?_ h
          simp only [decide_eq_true_eq] at hbetween
          omega

/-- The walk fails only where the copy behind the last segment does. -/
theorem queueOoseq_error {pcb : Rcv α} {env : Answers} {f : Fault} {prev : Option (Seg α)}
    (h : pcb.queueOoseq env inseg prev q = .error f) :
    (∃ last ∈ q.getLast?, tcpSeqGt inseg.seqno last.seqno = true ∧ last.fin = false) ∧
      pcb.lastCopy inseg = .error f := by
  induction q generalizing prev with
  | nil => cases h
  | cons next rest ih =>
    have hbehind : pcb.queueBehind env inseg prev next rest
        (pcb.queueOoseq env inseg (some next) rest) = .error f →
        (∃ last ∈ (next :: rest).getLast?, tcpSeqGt inseg.seqno last.seqno = true ∧
          last.fin = false) ∧ pcb.lastCopy inseg = .error f := by
      intro hb
      unfold Rcv.queueBehind at hb
      split at hb
      · next hend =>
        obtain ⟨hnil, hgt⟩ : rest = [] ∧ tcpSeqGt inseg.seqno next.seqno = true := by
          simpa using hend
        subst hnil
        split at hb
        · cases hb
        · next hcase =>
          obtain ⟨hfin, -⟩ : next.fin = false ∧ env.copied = true := by simpa using hcase
          refine ⟨⟨next, rfl, hgt, hfin⟩, ?_⟩
          cases hcopy : pcb.lastCopy inseg with
          | error f =>
            rw [hcopy] at hb
            cases hb
            rfl
          | ok cseg =>
            rw [hcopy] at hb
            cases hb
      · cases hfurther : pcb.queueOoseq env inseg (some next) rest with
        | ok q' =>
          rw [hfurther] at hb
          cases hb
        | error f =>
          rw [hfurther] at hb
          cases hb
          obtain ⟨⟨last, hlast, hgt, hfin⟩, hcopy⟩ := ih hfurther
          refine ⟨⟨last, ?_, hgt, hfin⟩, hcopy⟩
          rw [List.getLast?_cons]
          cases hrest : rest.getLast? with
          | none =>
            rw [hrest] at hlast
            cases hlast
          | some l =>
            rw [hrest] at hlast
            exact hlast
    unfold Rcv.queueOoseq at h
    split at h
    · cases h
    · cases prev with
      | none =>
        dsimp only at h
        split at h
        · cases h
        · exact hbehind h
      | some prev =>
        dsimp only at h
        split at h
        · cases h
        · exact hbehind h

theorem lastCopy_error {pcb : Rcv α} {f : Fault}
    (h : pcb.lastCopy inseg = .error f) : f = .notTrimmedToRcvWnd := by
  unfold Rcv.lastCopy at h
  split at h
  · dsimp only at h
    split at h
    · cases h
    · cases h
      rfl
  · cases h

end QuietLwip.Stream
