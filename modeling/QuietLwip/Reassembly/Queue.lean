import QuietLwip.Reassembly.Fragments

/-!
# The queue of a datagram

The queue is sorted by the offsets. The walks of
`ip_reass_chain_frag_into_datagram_and_validate` compare all neighbours but one pair: a
fragment that is put between two others is not compared with the one in front of it.
-/

namespace QuietLwip.Reassembly

open QuietLwip.Word QuietLwip.Buffers

/-! ### The data of a fragment -/

namespace Fragment

variable (f : Fragment)

def start : ℕ := f.hdr.offset * 8
def dataLen : ℕ := f.hdr.len - IP_HLEN
def stop : ℕ := f.start + f.dataLen

end Fragment

/-- The helper struct of a fragment that reaches at most to the end of the largest
datagram has the fragment's own bounds. -/
theorem helperOf_exact {f : Fragment} (hf : f.FromInput) (hhl : f.hdr.hl * 4 = IP_HLEN)
    (hle : (helperOf f).start ≤ (helperOf f).stop) (hstop : (helperOf f).stop ≤ 65515) :
    IP_HLEN ≤ f.hdr.len ∧ (helperOf f).stop = f.stop := by
  have hlen := hf.len_lt
  have hoff := hf.offset_lt
  have hhl' : (f.hdr.hl : ℤ) * 4 = 20 := by
    unfold IP_HLEN at hhl
    omega
  simp only [helperOf, u16, wrapU, hhl'] at hle hstop ⊢
  unfold Fragment.stop Fragment.start Fragment.dataLen IP_HLEN
  omega

theorem helperOf_start {f : Fragment} (hf : f.FromInput) : (helperOf f).start = f.start := by
  have hoff := hf.offset_lt
  simp only [helperOf, u16, wrapU, Fragment.start]
  omega

/-- The same for a fragment with a whole header, from its own bounds. -/
theorem helperOf_stop {f : Fragment} (hf : f.FromInput) (hhl : f.hdr.hl * 4 = IP_HLEN)
    (hlen : IP_HLEN ≤ f.hdr.len) (hstop : f.stop ≤ 65515) : (helperOf f).stop = f.stop := by
  have hlt := hf.len_lt
  have hoff := hf.offset_lt
  have hhl' : (f.hdr.hl : ℤ) * 4 = 20 := by
    unfold IP_HLEN at hhl
    omega
  unfold Fragment.stop Fragment.start Fragment.dataLen IP_HLEN at *
  simp only [helperOf, u16, wrapU, hhl']
  omega

/-! ### The walk to the place of the new fragment -/

def Sorted (p : List Helper) : Prop := p.Pairwise fun x y => x.start < y.start

/-- No holes and no overlaps. -/
def Gapless (p : List Helper) : Prop := p.IsChain fun x y => x.stop = y.start

/-- The new fragment lies behind `x`, within it or at its start. -/
def Covers (x new : Helper) : Prop :=
  x.start ≤ new.start ∧ (new.start = x.start ∨ new.start < x.stop)

/-- What the walk finds out. -/
inductive Placed (new : Helper) (p : List Helper) : Chained → Prop
  | dropped (h : (∃ x ∈ p, Covers x new) ∨ new.start ≤ new.stop) : Placed new p .dropped
  | queued (valid : Bool) (front back : List Helper) (hp : p = front ++ back)
      (hfront : ∀ x ∈ front, x.start < new.start) (hback : ∀ x ∈ back, new.start < x.start)
      (hvalid : valid = true → Gapless front)
      (hlast : valid = true → back = [] → ∀ prev, front.getLast? = some prev →
        prev.stop = new.start)
      (hmid : ∀ prev tmp rest, front.getLast? = some prev → back = tmp :: rest →
        prev.stop ≤ new.start) : Placed new p (.queued valid front back)

theorem gapless_snoc {front : List Helper} {tmp : Helper} (h : Gapless front)
    (hprev : ∀ prev, front.getLast? = some prev → prev.stop = tmp.start) :
    Gapless (front ++ [tmp]) := by
  refine List.isChain_append.mpr ⟨h, List.isChain_singleton tmp, ?_⟩
  intro x hx y hy
  simp only [List.head?_cons, Option.mem_def, Option.some.injEq] at hy
  rw [← hy]
  exact hprev x hx

/-- The induction is on what is still to be walked over. -/
theorem chainLoop_spec {new : Helper} {c : Chained} {rest : List Helper} :
    ∀ {valid : Bool} {front : List Helper}, Sorted (front ++ rest) →
      (∀ x ∈ front, x.start < new.start) → (valid = true → Gapless front) →
      chainLoop new valid front rest = some c → Placed new (front ++ rest) c := by
  induction rest with
  | nil =>
    intro valid front hsorted hfront hvalid h
    rw [chainLoop] at h
    cases hlast : front.getLast? with
    | none =>
      rw [hlast] at h
      cases h
      exact .queued valid front [] rfl hfront nofun hvalid (fun _ _ prev hprev => by
        rw [hlast] at hprev
        cases hprev) nofun
    | some prev =>
      simp only [hlast] at h
      split at h
      · cases h
        refine .queued _ front [] rfl hfront nofun ?_ ?_ nofun
        · intro hv
          exact hvalid (Bool.and_eq_true_iff.mp hv).1
        · intro hv _ prev' hprev'
          rw [hlast] at hprev'
          cases hprev'
          exact of_decide_eq_true (Bool.and_eq_true_iff.mp hv).2
      · cases h
  | cons tmp rest ih =>
    intro valid front hsorted hfront hvalid h
    have hmem : tmp ∈ front ++ tmp :: rest := by simp
    have hbehind : ∀ x ∈ rest, tmp.start < x.start :=
      (List.pairwise_cons.mp (List.pairwise_append.mp hsorted).2.1).1
    rw [chainLoop] at h
    by_cases hlt : new.start < tmp.start
    · -- the place is in front of `tmp`
      rw [if_pos hlt] at h
      have hback : ∀ x ∈ tmp :: rest, new.start < x.start := by
        intro x hx
        rcases List.mem_cons.mp hx with hx | hx
        · rw [hx]
          exact hlt
        · exact hlt.trans (hbehind x hx)
      cases hlast : front.getLast? with
      | none =>
        rw [hlast] at h
        cases h
        refine .queued valid front _ rfl hfront hback hvalid nofun ?_
        intro prev _ _ hprev
        rw [hlast] at hprev
        cases hprev
      | some prev =>
        simp only [hlast] at h
        have hprev : prev ∈ front := List.mem_of_getLast? hlast
        by_cases hover : new.start < prev.stop ∨ new.stop > tmp.start
        · rw [if_pos hover] at h
          cases h
          refine .dropped ?_
          rcases hover with hover | hover
          · exact Or.inl ⟨prev, List.mem_append_left _ hprev, (hfront prev hprev).le, Or.inr hover⟩
          · exact Or.inr (hlt.trans hover).le
        · rw [if_neg hover] at h
          cases h
          refine .queued valid front _ rfl hfront hback hvalid nofun ?_
          intro prev' _ _ hprev' _
          rw [hlast] at hprev'
          cases hprev'
          omega
    · rw [if_neg hlt] at h
      by_cases heq : new.start = tmp.start
      · rw [if_pos heq] at h
        cases h
        exact .dropped (Or.inl ⟨tmp, hmem, heq.ge, Or.inl heq⟩)
      · rw [if_neg heq] at h
        by_cases hover : new.start < tmp.stop
        · rw [if_pos hover] at h
          cases h
          exact .dropped (Or.inl ⟨tmp, hmem, by omega, Or.inr hover⟩)
        · rw [if_neg hover] at h
          rw [List.append_cons front tmp rest] at hsorted ⊢
          refine ih hsorted ?_ ?_ h
          · intro x hx
            rcases List.mem_append.mp hx with hx | hx
            · exact hfront x hx
            · rw [List.mem_singleton.mp hx]
              omega
          · intro hv
            cases hlast : front.getLast? with
            | none =>
              rw [List.getLast?_eq_none_iff.mp hlast]
              exact List.isChain_singleton tmp
            | some prev =>
              simp only [hlast] at hv
              obtain ⟨hv, hprev⟩ := Bool.and_eq_true_iff.mp hv
              refine gapless_snoc (hvalid hv) ?_
              intro prev' hprev'
              rw [hlast] at hprev'
              cases hprev'
              exact of_decide_eq_true hprev

/-! ### The validation -/

theorem restLoop_spec {rest : List Helper} :
    ∀ {new last : Helper}, restLoop new rest = some last →
      Gapless (new :: rest) ∧ (new :: rest).getLast? = some last := by
  induction rest with
  | nil =>
    intro new last h
    cases h
    exact ⟨List.isChain_singleton new, rfl⟩
  | cons q qs ih =>
    intro new last h
    rw [restLoop] at h
    split at h
    · next hstop =>
      obtain ⟨hgap, hlast⟩ := ih h
      refine ⟨List.isChain_cons_cons.mpr ⟨hstop, hgap⟩, ?_⟩
      rw [List.getLast?_cons_cons]
      exact hlast
    · cases h

/-- The fragments with the new one in its place begin at 0, end where a last fragment
ended, and have no holes; whether there is one in front of the new fragment is left open. -/
structure OtherwiseComplete (ipr : Reassdata) (new : Helper) (front back : List Helper) : Prop where
  lastFrag : ipr.lastFrag = true
  first : (front ++ new :: back).head?.map Helper.start = some 0
  gaplessFront : Gapless front
  gaplessBack : Gapless (new :: back)
  last : (new :: back).getLast?.map Helper.stop = some ipr.datagramLen
  several : front ++ back ≠ []

theorem validate_spec {ipr : Reassdata} {valid : Bool} {new : Helper} {front back : List Helper}
    (hvalid : valid = true → Gapless front) (h : validate ipr valid new front back = some true) :
    valid = true ∧ OtherwiseComplete ipr new front back := by
  rw [validate] at h
  split at h
  · next hcond =>
    obtain ⟨hlastFrag, hv⟩ := hcond
    cases hp : front ++ new :: back with
    | nil => simp at hp
    | cons first rest =>
      rw [hp] at h
      simp only at h
      by_cases hstart : first.start = 0
      · rw [if_neg (not_not.mpr hstart)] at h
        cases hrest : restLoop new back with
        | none =>
          rw [hrest] at h
          cases h
        | some last =>
          simp only [hrest] at h
          obtain ⟨hgap, hlast⟩ := restLoop_spec hrest
          split at h
          · next hcheck =>
            refine ⟨hv, hlastFrag, ?_, hvalid hv, hgap, ?_, hcheck.1⟩
            · rw [hp]
              simp [hstart]
            · rw [hlast]
              simp [hcheck.2]
          · cases h
      · rw [if_pos hstart] at h
        cases h
  · cases h

/-- What the walk has seen of the fragment in front of the new one. -/
def WalkedPast (new : Helper) (front back : List Helper) : Prop :=
  ∀ prev, front.getLast? = some prev →
    prev.stop ≤ new.start ∧ (back = [] → prev.stop = new.start)

/-- The step at which the code goes right: when the datagram is complete but for what
may be missing in front of the new fragment, then the fragment starts where the one in front of
it ends, and the datagram is not larger than an IP packet can be. -/
def Seamless (ipr : Reassdata) (new : Helper) : Prop :=
  ∀ front back, ipr.p = front ++ back → (∀ x ∈ front, x.start < new.start) →
    (∀ x ∈ back, new.start < x.start) → WalkedPast new front back →
    OtherwiseComplete ipr new front back →
    (∀ prev, front.getLast? = some prev → prev.stop = new.start) ∧
      ∀ last, (new :: back).getLast? = some last → last.frag.stop ≤ 65515

/-- In a sorted queue without holes no fragment reaches behind the last one. -/
theorem gapless_bounds {last : Helper} {p : List Helper} (hgap : Gapless p) (hsorted : Sorted p)
    (hlast : p.getLast? = some last) (hle : last.start ≤ last.stop) :
    ∀ x ∈ p, x.start ≤ x.stop ∧ x.stop ≤ last.stop := by
  induction p with
  | nil => nofun
  | cons a p ih =>
    cases p with
    | nil =>
      intro x hx
      obtain rfl : a = last := Option.some.inj hlast
      rw [List.mem_singleton.mp hx]
      exact ⟨hle, le_rfl⟩
    | cons b p =>
      obtain ⟨hab, hgap'⟩ := List.isChain_cons_cons.mp hgap
      obtain ⟨hless, hsorted'⟩ := List.pairwise_cons.mp hsorted
      rw [List.getLast?_cons_cons] at hlast
      have hih := ih hgap' hsorted' hlast
      have hb := hih b (List.mem_cons_self ..)
      have hlt := hless b (List.mem_cons_self ..)
      intro x hx
      rcases List.mem_cons.mp hx with hx | hx
      · rw [hx]
        omega
      · exact hih x hx

end QuietLwip.Reassembly
