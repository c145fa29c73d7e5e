import QuietLwip.Buffers.References
import QuietLwip.Foundation.Transition

/-!
# The owners of pbufs

Each function of `pbuf.c` moves references as its comment says: `pbuf_cat` takes over that of the
caller, `pbuf_chain` adds one, and `pbuf_dechain`, `pbuf_realloc` and a failing `pbuf_alloc` drop
the ones they have taken from a chain.
-/

namespace QuietLwip.Buffers

open Word Links Transition

variable {m m' m₁ : Memory} {p q r t x k : ℕ} {l front back : List ℕ} {node : PbufNode}
  {owned : ℕ → ℤ}

/-- The function comes to an end, unless an assertion on lengths fails. -/
def Ends {α : Type} (run : Except Fault α) (post : α → Prop) : Prop :=
  match run with
  | .ok a => post a
  | .error fault => fault = .assertion

theorem Ends.bind {α β : Type} {run : Except Fault α} {f : α → Except Fault β} {mid : α → Prop}
    {post : β → Prop} (h : Ends run mid) (hf : ∀ a, mid a → Ends (f a) post) :
    Ends (run >>= f) post := by
  cases run with
  | ok a => exact hf a h
  | error fault => exact h

theorem Ends.mono {α : Type} {run : Except Fault α} {post post' : α → Prop} (h : Ends run post)
    (himp : ∀ a, post a → post' a) : Ends run post' := by
  cases run with
  | ok a => exact himp a h
  | error fault => exact h

namespace Memory

theorem ends_read {β : Type} {f : PbufNode → Except Fault β} {post : β → Prop}
    (hp : (m.taken p).isSome) (h : Ends (f (m.pbuf p)) post) : Ends (m.read p >>= f) post := by
  rw [read_of_taken hp]
  exact h

theorem ends_assertAlone (hp : (m.taken p).isSome) : Ends (m.assertAlone p) fun _ => True := by
  refine ends_read hp ?_
  split
  · trivial
  · rfl

/-! ### `pbuf_alloc` -/

theorem malloc_eq {answer : Option ℕ} (h : m.malloc answer = some q) :
    q < m.room ∧ m.taken q = none := by
  have hq := (Option.filter_eq_some_iff.mp h).2
  simp only [Bool.and_eq_true, decide_eq_true_eq, Option.isNone_iff_eq_none] at hq
  exact hq

/-- A pbuf is allocated behind `r`. -/
theorem Counts.extend (h : m.Counts owned) (node : PbufNode) (hr : (m.taken r).isSome)
    (hnext : m.next r = none) (hq : m.taken q = none) (hroom : q < m.room)
    (hlast : node.next = none) (href : node.ref = 1) :
    ((m.take q node).setNext r (some q)).Counts owned ∧
      (((m.take q node).setNext r (some q)).taken q).isSome ∧
      ((m.take q node).setNext r (some q)).next q = none := by
  have hrq : r ≠ q := by
    rintro rfl
    rw [hq] at hr
    cases hr
  have hnextq : (m.take q node).next q = none := by
    rw [next, take_pbuf_self]
    exact hlast
  have htaken : ((m.take q node).taken q).isSome := by
    rw [take_taken_self]
    rfl
  have hlink := (h.take hq hroom hlast href).link (x := r) (by rwa [take_taken_of_ne hrq])
    (by rwa [next, take_pbuf_of_ne hrq]) htaken (l := [q]) ⟨rfl, hnextq⟩ (by simpa using hrq)
  rw [gain_gain, Int.add_right_neg, gain_zero] at hlink
  refine ⟨hlink, htaken, ?_⟩
  rw [setNext_next, Function.update_of_ne (Ne.symm hrq)]
  exact hnextq

theorem gain_nonneg (hnonneg : ∀ x, 0 ≤ owned x) (p x : ℕ) : 0 ≤ gain owned p 1 x := by
  have hx := hnonneg x
  rw [gain_apply]
  split <;> omega

theorem gain_pos (hnonneg : ∀ x, 0 ≤ owned x) (p : ℕ) : 0 < gain owned p 1 p := by
  have hp := hnonneg p
  rw [gain_self]
  omega

/-- Who owns what after `pbuf_alloc`. -/
def Allocated (owned : ℕ → ℤ) (r : Memory × Option ℕ) : Prop :=
  match r.2 with
  | none => r.1.Counts owned
  | some p => r.1.Counts (gain owned p 1)

theorem allocTail_spec {answers : ℕ → Option ℕ} {fuel remLen : ℕ} (hnonneg : ∀ x, 0 ≤ owned x)
    (h : m.Counts (gain owned p 1)) (hr : (m.taken r).isSome) (hnext : m.next r = none)
    (hfuel : remLen ≤ fuel) : Ends (allocTail answers p fuel k r remLen m) (Allocated owned) := by
  induction fuel generalizing m k r remLen with
  | zero =>
    obtain rfl : remLen = 0 := Nat.le_zero.mp hfuel
    exact h
  | succ fuel ih =>
    rw [allocTail]
    split
    · exact h
    rename_i hrem
    split
    · obtain ⟨m', front, back, _, hfree, _, hcounts⟩ :=
        pbufFree_spec h (gain_nonneg hnonneg p) (gain_pos hnonneg p)
      rw [gain_gain, Int.add_right_neg, gain_zero] at hcounts
      rw [hfree]
      exact hcounts
    · rename_i q hq
      obtain ⟨hroom, htaken⟩ := malloc_eq hq
      obtain ⟨hcounts, hq, hlast⟩ :=
        h.extend ⟨none, remLen, min remLen PBUF_POOL_BUFSIZE_ALIGNED, .pool, 1⟩ hr hnext htaken
          hroom rfl rfl
      have hbuf : 0 < PBUF_POOL_BUFSIZE_ALIGNED := by decide
      exact ih hcounts hq hlast (by omega)

theorem pbufAlloc_spec {answers : ℕ → Option ℕ} {layer : PbufLayer} {length : ℕ} {type : PbufType}
    (h : m.Counts owned) (hnonneg : ∀ x, 0 ≤ owned x) :
    Ends (m.pbufAlloc answers layer length type) (Allocated owned) := by
  rw [pbufAlloc]
  split
  · exact h
  · rename_i p hp
    obtain ⟨hroom, htaken⟩ := malloc_eq hp
    split
    · refine allocTail_spec hnonneg (h.take htaken hroom rfl rfl) ?_ ?_ le_rfl
      · rw [take_taken_self]
        rfl
      · rw [next, take_pbuf_self]
    · exact h.take htaken hroom rfl rfl

/-! ### `pbuf_ref`, `pbuf_cat`, `pbuf_chain` -/

theorem pbufRef_spec (h : m.Counts owned) (hp : (m.taken p).isSome)
    (hlt : (m.pbuf p).ref < 2 ^ 16 - 1) : Ends (m.pbufRef p) fun m' => m'.Counts (gain owned p 1) :=
  ends_read hp (h.setRef hp rfl (by omega) (by omega))

theorem catWalk_spec {fuel : ℕ} (h : m.Counts owned) (hp : (m.taken p).isSome)
    (hl : ListAt m.next (some p) l) (hfuel : l.length ≤ fuel) :
    Ends (catWalk t fuel p m) fun r => SameRefs m r.1 ∧ ∃ front, l = front ++ [r.2] := by
  induction l generalizing m p fuel with
  | nil => cases hl
  | cons y l ih =>
    obtain ⟨heq, hl⟩ := hl
    obtain rfl : p = y := Option.some.inj heq
    obtain ⟨fuel, rfl⟩ : ∃ k, fuel = k + 1 := Nat.exists_eq_add_one.mpr (by simp at hfuel; omega)
    rw [catWalk]
    refine ends_read hp ?_
    split
    · rename_i hnext
      rw [next, hnext] at hl
      obtain rfl : l = [] := List.head?_eq_none_iff.mp hl.head
      exact ⟨⟨.refl m, fun _ => rfl⟩, [], rfl⟩
    · rename_i q hnext
      have hsame := SameRefs.setTotLen m p ((m.pbuf p).totLen + (m.pbuf t).totLen)
      have hq := h.closed p q hp hnext
      rw [next, hnext, ← hsame.next] at hl
      refine (ih (h.sameRefs hsame) hq hl (by simpa using hfuel)).mono ?_
      rintro ⟨m', last⟩ ⟨hsame', front, rfl⟩
      exact ⟨hsame.trans hsame', p :: front, rfl⟩

/-- The chains of two pbufs have no pbuf in common. -/
def Apart (m : Memory) (h t : ℕ) : Prop :=
  ∀ l l', ListAt m.next (some h) l → ListAt m.next (some t) l' → l.Disjoint l'

theorem pbufCat_spec {h : ℕ} (hm : m.Counts owned) (hh : (m.taken h).isSome)
    (ht : (m.taken t).isSome) (hapart : m.Apart h t) :
    Ends (m.pbufCat h t) fun m' => m'.Counts (gain owned t (-1)) ∧
      (m'.taken t).isSome ∧ (m'.pbuf t).ref = (m.pbuf t).ref := by
  obtain ⟨l, hl⟩ := hm.acyclic h hh
  obtain ⟨k, hk⟩ := hm.acyclic t ht
  refine (catWalk_spec hm hh hl (hm.chain_length hh hl)).bind ?_
  rintro ⟨m₁, p⟩ ⟨hsame, front, rfl⟩
  have hm₁ := hm.sameRefs hsame
  have hp : (m₁.taken p).isSome := by
    rw [hsame.taken]
    exact hm.chain_taken hh hl p (by simp)
  have ht₁ : (m₁.taken t).isSome := by rwa [hsame.taken]
  refine ends_read hp (ends_read ht₁ ?_)
  split
  case isFalse => rfl
  have hlens := SameRefs.setTotLen m₁ p ((m₁.pbuf p).totLen + (m₁.pbuf t).totLen)
  have hlast : m₁.next p = none := by
    rw [hsame.next]
    exact hl.from
  have hk₁ : ListAt m₁.next (some t) k := by rwa [hsame.next]
  have hpk : p ∉ k := fun hpk => hapart _ _ hl hk (by simp) hpk
  refine ⟨(hm₁.sameRefs hlens).link hp (by rwa [hlens.next]) ht₁ (by rwa [hlens.next]) hpk, ht₁, ?_⟩
  rw [(setNext_ref _ p t _).1, hlens.ref, hsame.ref]

theorem pbufChain_spec {h : ℕ} (hm : m.Counts owned) (hh : (m.taken h).isSome)
    (ht : (m.taken t).isSome) (hapart : m.Apart h t) (hlt : (m.pbuf t).ref < 2 ^ 16 - 1) :
    Ends (m.pbufChain h t) fun m' => m'.Counts owned := by
  refine (pbufCat_spec hm hh ht hapart).bind ?_
  rintro m₁ ⟨hm₁, ht₁, href⟩
  rw [← href] at hlt
  have hspec := pbufRef_spec hm₁ ht₁ hlt
  rw [gain_gain, Int.add_left_neg, gain_zero] at hspec
  exact hspec

/-! ### `pbuf_dechain` and `pbuf_realloc` -/

/-- Freeing what was behind `p` leaves `p` alone. -/
theorem Counts.free_behind (h : m.Counts owned) (hnonneg : ∀ x, 0 ≤ owned x)
    (hp : (m.taken p).isSome) (hnext : m.next p = some q) (hs : SameRefs (m.setNext p none) m₁) :
    ∃ m' count l, m₁.pbufFree q = .ok (m', count) ∧ ListAt m.next (some p) (p :: l) ∧
      m'.Counts owned ∧ (m'.taken p).isSome := by
  have hcut := (h.cut hp hnext).sameRefs hs
  obtain ⟨m', front, back, hl, hfree, hfrees, hcounts⟩ :=
    pbufFree_spec hcut (gain_nonneg hnonneg q) (gain_pos hnonneg q)
  rw [gain_gain, Int.add_right_neg, gain_zero] at hcounts
  obtain ⟨k, hk⟩ := h.acyclic p hp
  obtain ⟨l, rfl⟩ := List.head?_eq_some_iff.mp hk.head
  have hpl : p ∉ l := (List.nodup_cons.mp hk.nodup).1
  have htail : ListAt m₁.next (some q) l := by
    rw [hs.next, setNext_next, ← hnext]
    exact hk.2.update hpl none
  obtain rfl := htail.unique hl
  refine ⟨m', _, _, hfree, hk, hcounts, ?_⟩
  rw [hfrees.taken, if_neg fun hmem => hpl (List.mem_append_left _ hmem), hs.taken]
  exact hp

theorem pbufDechain_spec (h : m.Counts owned) (hnonneg : ∀ x, 0 ≤ owned x)
    (hp : (m.taken p).isSome) : Ends (m.pbufDechain p) fun r => r.1.Counts owned := by
  rw [pbufDechain]
  refine ends_read hp ?_
  split
  · exact (ends_assertAlone hp).bind fun _ _ => h
  rename_i q hnext
  refine ends_read (h.closed p q hp hnext) ?_
  split
  case isFalse => rfl
  have hlens := SameRefs.setTotLen m q ((m.pbuf p).totLen - (m.pbuf p).len)
  obtain ⟨m', count, _, hfree, _, hcounts, hp'⟩ := (h.sameRefs hlens).free_behind hnonneg hp
    (by rwa [hlens.next]) (.setTotLen _ p (m.pbuf p).len)
  simp only [hfree]
  exact (ends_assertAlone hp').bind fun _ _ => hcounts

theorem modify_comm (m : Memory) (f g : PbufNode → PbufNode) (hpq : p ≠ q) :
    (m.modify q g).modify p f = (m.modify p f).modify q g := by
  show ({ m with
      pbuf := Function.update (m.modify q g).pbuf p (f ((m.modify q g).pbuf p)) } : Memory) =
    { m with pbuf := Function.update (m.modify p f).pbuf q (g ((m.modify p f).pbuf q)) }
  rw [modify_pbuf_of_ne g hpq, modify_pbuf_of_ne f hpq.symm, modify, modify,
    Function.update_comm hpq]

theorem setRef_setNext (m : Memory) (v : Option ℕ) (ref : ℤ) (hpq : p ≠ q) :
    (m.setNext q v).setRef p ref = (m.setRef p ref).setNext q v := modify_comm m _ _ hpq

theorem release_setNext (m : Memory) (v : Option ℕ) (place : Place) :
    (m.setNext q v).release place p = (m.release place p).map (setNext q v) := by
  unfold release
  rw [show (m.setNext q v).taken = m.taken from rfl]
  split <;> rfl

/-- `pbuf_free` of a chain does not look at a link outside of it. -/
theorem freeLoop_setNext {fuel count : ℕ} (v : Option ℕ) (hl : ListAt m.next (some p) l)
    (hq : q ∉ l) : freeLoop fuel count p (m.setNext q v) =
      (freeLoop fuel count p m).map fun r => (r.1.setNext q v, r.2) := by
  induction l generalizing m p fuel count with
  | nil => cases hl
  | cons y l ih =>
    obtain ⟨heq, hl⟩ := hl
    obtain rfl : p = y := Option.some.inj heq
    cases fuel with
    | zero => rfl
    | succ fuel =>
      have hpq : p ≠ q := fun heq => hq (heq ▸ List.mem_cons_self ..)
      have hpbuf : (m.setNext q v).pbuf p = m.pbuf p := modify_pbuf_of_ne _ hpq
      unfold freeLoop
      by_cases hp : (m.taken p).isSome
      case neg =>
        rw [read, read, if_neg hp, if_neg (show ¬((m.setNext q v).taken p).isSome from hp)]
        rfl
      rw [read_of_taken hp, read_of_taken (show ((m.setNext q v).taken p).isSome from hp), hpbuf]
      show (if (m.pbuf p).ref = 0 then _ else _) = Except.map _ (if (m.pbuf p).ref = 0 then _ else _)
      split
      · rfl
      rw [setRef_setNext m v _ hpq]
      have href : (((m.setRef p ((m.pbuf p).ref - 1)).setNext q v).pbuf p).ref =
          ((m.setRef p ((m.pbuf p).ref - 1)).pbuf p).ref := (setNext_ref _ q p v).1
      simp only [href]
      split
      case isFalse => rfl
      rw [release_setNext]
      cases hrel : (m.setRef p ((m.pbuf p).ref - 1)).release (m.pbuf p).type.place p with
      | error fault => rfl
      | ok m₁ =>
        show (match (m.pbuf p).next with | none => _ | some r => _) =
          Except.map _ (match (m.pbuf p).next with | none => _ | some r => _)
        cases hnext : (m.pbuf p).next with
        | none => rfl
        | some r =>
          have hm₁ : m₁.next = m.next := by
            unfold release at hrel
            split at hrel
            · cases hrel
              exact setRef_next m p _
            · cases hrel
          refine ih ?_ fun hmem => hq (List.mem_cons_of_mem _ hmem)
          rw [hm₁, ← hnext]
          exact hl

theorem freeRest_spec (h : m.Counts owned) (hnonneg : ∀ x, 0 ≤ owned x)
    (hq : (m.taken q).isSome) : Ends (m.freeRest q) fun m' => m'.Counts owned := by
  rw [freeRest]
  refine ends_read hq ?_
  split
  · exact h
  rename_i r hnext
  obtain ⟨m', count, l, hfree, hl, hcounts, hq'⟩ :=
    h.free_behind hnonneg hq hnext ⟨.refl (m.setNext q none), fun _ => rfl⟩
  have hql : q ∉ l := (List.nodup_cons.mp hl.nodup).1
  have hr : ListAt m.next (some r) l := by
    rw [← hnext]
    exact hl.2
  rw [pbufFree, show (m.setNext q none).room = m.room from rfl, freeLoop_setNext none hr hql]
    at hfree
  rw [pbufFree]
  cases hloop : freeLoop m.room 0 r m with
  | error fault =>
    rw [hloop] at hfree
    cases hfree
  | ok pair =>
    obtain ⟨m₂, count'⟩ := pair
    rw [hloop] at hfree
    obtain ⟨rfl, rfl⟩ := Prod.mk.inj (Except.ok.inj hfree)
    exact ends_read hq' hcounts

theorem reallocWalk_spec {grow : ℤ} {fuel remLen : ℕ} (h : m.Counts owned)
    (hp : (m.taken p).isSome) (hl : ListAt m.next (some p) l) (hfuel : l.length ≤ fuel) :
    Ends (reallocWalk grow fuel remLen p m) fun r => SameRefs m r.1 ∧ (m.taken r.2.1).isSome := by
  induction l generalizing m p fuel remLen with
  | nil => cases hl
  | cons y l ih =>
    obtain ⟨heq, hl⟩ := hl
    obtain rfl : p = y := Option.some.inj heq
    obtain ⟨fuel, rfl⟩ : ∃ k, fuel = k + 1 := Nat.exists_eq_add_one.mpr (by simp at hfuel; omega)
    rw [reallocWalk]
    refine ends_read hp ?_
    split
    case isFalse => exact ⟨⟨.refl m, fun _ => rfl⟩, hp⟩
    split
    · rfl
    · rename_i r hnext
      have hsame := SameRefs.setTotLen m p ((m.pbuf p).totLen + u16 grow)
      have hr := h.closed p r hp hnext
      rw [next, hnext, ← hsame.next] at hl
      refine (ih (h.sameRefs hsame) hr hl (by simpa using hfuel)).mono ?_
      rintro ⟨m', last, rest⟩ ⟨hsame', hlast⟩
      exact ⟨hsame.trans hsame', hlast⟩

theorem pbufRealloc_spec {newLen : ℕ} (h : m.Counts owned) (hnonneg : ∀ x, 0 ≤ owned x)
    (hp : (m.taken p).isSome) : Ends (m.pbufRealloc p newLen) fun m' => m'.Counts owned := by
  obtain ⟨l, hl⟩ := h.acyclic p hp
  rw [pbufRealloc]
  refine ends_read hp ?_
  split
  · exact h
  refine (reallocWalk_spec h hp hl (h.chain_length hp hl)).bind ?_
  rintro ⟨m₁, q, remLen⟩ ⟨hsame, hq⟩
  have hq₁ : (m₁.taken q).isSome := by rwa [hsame.taken]
  have hlens : SameRefs m₁ (m₁.modify q fun node => { node with len := remLen, totLen := remLen }) :=
    .modify m₁ rfl rfl rfl
  exact freeRest_spec ((h.sameRefs hsame).sameRefs hlens) hnonneg hq₁

end Memory

/-! ### Runs -/

/-- The memory counts the references of the clients. -/
def PbufState.Counts (s : PbufState) : Prop := s.mem.Counts fun p => s.owned p

/-- The clients put chains together only when these have no pbuf in common, and refer to a pbuf
less than 65536 times. -/
def Op.Sane (s : PbufState) : Op → Prop
  | .ref p => (s.mem.pbuf p).ref < 2 ^ 16 - 1
  | .chain h t => s.mem.Apart h t ∧ (s.mem.pbuf t).ref < 2 ^ 16 - 1
  | .cat h t => s.mem.Apart h t
  | _ => True

theorem own_eq (owned : ℕ → ℕ) (p : ℕ) :
    (fun x => (own owned p x : ℤ)) = gain (fun x => owned x) p 1 := by
  funext x
  rw [gain_apply]
  by_cases hx : x = p
  · subst hx
    rw [own, Function.update_self, if_pos rfl]
    rfl
  · rw [own, Function.update_of_ne hx, if_neg (Ne.symm hx), add_zero]

theorem disown_eq {owned : ℕ → ℕ} (hp : 0 < owned p) :
    (fun x => (disown owned p x : ℤ)) = gain (fun x => owned x) p (-1) := by
  funext x
  rw [gain_apply]
  by_cases hx : x = p
  · subst hx
    rw [disown, Function.update_self, if_pos rfl]
    omega
  · rw [disown, Function.update_of_ne hx, if_neg (Ne.symm hx), add_zero]

theorem Op.exec_spec {s : PbufState} {op : Op} (h : s.Counts) (hvalid : op.Valid s)
    (hsane : op.Sane s) : Ends (op.exec s) PbufState.Counts := by
  have hnonneg : ∀ x, 0 ≤ (fun x => (s.owned x : ℤ)) x := fun x => Int.natCast_nonneg _
  cases op with
  | alloc answers layer length type =>
    refine (Memory.pbufAlloc_spec h hnonneg).bind ?_
    rintro ⟨m, p⟩ hm
    cases p with
    | none => exact hm
    | some p =>
      show m.Counts fun x => (own s.owned p x : ℤ)
      rw [own_eq]
      exact hm
  | ref p =>
    refine (Memory.pbufRef_spec h hvalid hsane).bind fun m hm => ?_
    show m.Counts fun x => (own s.owned p x : ℤ)
    rw [own_eq]
    exact hm
  | chain h' t =>
    exact (Memory.pbufChain_spec h hvalid.1 hvalid.2 hsane.1 hsane.2).bind fun m hm => hm
  | cat h' t =>
    have ht := h.taken_of_owned (Int.natCast_pos.mpr hvalid.2)
    refine (Memory.pbufCat_spec h hvalid.1 ht hsane).bind fun m hm => ?_
    show m.Counts fun x => (disown s.owned t x : ℤ)
    rw [disown_eq hvalid.2]
    exact hm.1
  | dechain p => exact (Memory.pbufDechain_spec h hnonneg hvalid).bind fun r hm => hm
  | realloc p newLen => exact (Memory.pbufRealloc_spec h hnonneg hvalid.1).bind fun m hm => hm
  | free p =>
    obtain ⟨m', front, back, _, hfree, _, hcounts⟩ :=
      Memory.pbufFree_spec h hnonneg (Int.natCast_pos.mpr hvalid)
    show Ends (s.mem.pbufFree p >>= _) _
    rw [hfree]
    show m'.Counts fun x => (disown s.owned p x : ℤ)
    rw [disown_eq hvalid]
    exact hcounts

/-- Nothing is handed out, and nobody owns anything. -/
structure PbufState.Start (s : PbufState) : Prop where
  taken : ∀ p, s.mem.taken p = none
  owned : ∀ p, s.owned p = 0

theorem PbufState.Start.counts {s : PbufState} (h : s.Start) : s.Counts := by
  have hnone : ∀ {p}, ¬(s.mem.taken p).isSome := fun {p} hp => by
    rw [h.taken p] at hp
    cases hp
  refine ⟨fun p hp => absurd hp hnone, fun p hp => absurd hp hnone, fun p _ => ?_,
    fun q p hq _ => absurd hq hnone, fun p hp => absurd hp hnone, fun p place hp => ?_,
    fun p hp => absurd hp hnone⟩
  · show (s.owned p : ℤ) = 0
    rw [h.owned p]
    rfl
  · rw [h.taken p] at hp
    cases hp

/-- The clients use pbufs one operation after the other. -/
def pbufSystem : System PbufState Op where
  start := PbufState.Start
  step s op s' := op.Valid s ∧ op.exec s = .ok s'

/-- What holds of the references to pbufs in a state. -/
structure PbufState.Right (ok : PbufState → Op → Prop) (s : PbufState) : Prop where
  ref : ∀ p, (s.mem.taken p).isSome →
    (s.mem.pbuf p).ref = s.owned p + s.mem.preds p ∧ (s.mem.pbuf p).ref < 2 ^ 16
  acyclic : ∀ p, (s.mem.taken p).isSome → ∃ l, ListAt s.mem.next (some p) l
  -- what is referred to is handed out, by the allocator of its type, and nothing else is
  allocated : ∀ p, (s.mem.taken p).isSome ↔ 0 < s.owned p + s.mem.preds p
  place : ∀ p place, s.mem.taken p = some place → place = (s.mem.pbuf p).type.place
  closed : ∀ q p, (s.mem.taken q).isSome → s.mem.next q = some p → (s.mem.taken p).isSome
  -- no operation uses or frees a pbuf that is not handed out, and all come to an end
  ends : ∀ op, op.Valid s → ok s op → Ends (op.exec s) fun _ => True
  count : ∀ p, 0 < s.owned p → ∃ m count, s.mem.pbufFree p = .ok (m, count) ∧
    ((s.mem.deallocated m).card < 2 ^ 8 → count = (s.mem.deallocated m).card)

theorem PbufState.Counts.right {s : PbufState} (h : s.Counts) : s.Right fun s op => op.Sane s where
  ref p hp := by
    have href := h.ref p hp
    exact ⟨by exact_mod_cast href, (h.pos p hp).2⟩
  acyclic := h.acyclic
  allocated p := by
    constructor
    · intro hp
      have href : ((s.mem.pbuf p).ref : ℤ) = s.owned p + s.mem.preds p := h.ref p hp
      have hpos := (h.pos p hp).1
      omega
    · intro hpos
      cases htaken : s.mem.taken p with
      | none =>
        have hdead : (s.owned p : ℤ) = 0 := h.dead p htaken
        rw [h.preds_dead htaken] at hpos
        omega
      | some place => rfl
  place := h.place
  closed := h.closed
  ends op hvalid hsane := (op.exec_spec h hvalid hsane).mono fun _ _ => trivial
  count p hp := by
    have hp' : 0 < (fun x => (s.owned x : ℤ)) p := Int.natCast_pos.mpr hp
    obtain ⟨m, front, back, hl, hfree, hfrees, _⟩ :=
      Memory.pbufFree_spec h (fun x => Int.natCast_nonneg _) hp'
    refine ⟨m, _, hfree, ?_⟩
    rw [hfrees.card_deallocated h (h.taken_of_owned hp') hl]
    intro hlt
    exact wrapU_natCast hlt

/-- In every run in which chains that are put together have no pbuf in common and references stay
below 65536, references are counted right. -/
theorem references_counted {as : List Op} {s : PbufState}
    (hr : pbufSystem.Run (fun s op => op.Sane s) as s) : s.Right fun s op => op.Sane s := by
  have hcounts : s.Counts := by
    refine hr.invariant (I := fun _ s => s.Counts) (fun s h => PbufState.Start.counts h) ?_
    rintro _ s op s' _ hs hsane ⟨hvalid, hexec⟩
    have hspec := op.exec_spec hs hvalid hsane
    rw [hexec] at hspec
    exact hspec
  exact hcounts.right

/-! ### Runs of one client -/

def freshMemory : PbufState where
  mem := ⟨4, fun _ => ⟨none, 0, 0, .ram, 0⟩, fun _ => none⟩
  owned _ := 0

/-- An empty `PBUF_RAM` pbuf is allocated at `p`. -/
def allocAt (p : ℕ) : Op := .alloc (fun _ => some p) .raw 0 .ram

theorem run_fresh {ok : PbufState → Op → Prop} : pbufSystem.Run ok [] freshMemory :=
  .start ⟨fun _ => rfl, fun _ => rfl⟩

theorem run_op {ok : PbufState → Op → Prop} {as : List Op} {s s' : PbufState}
    (hr : pbufSystem.Run ok as s) (op : Op) (hok : ok s op) (hvalid : op.Valid s)
    (hexec : op.exec s = .ok s') : pbufSystem.Run ok (as ++ [op]) s' :=
  .snoc hr hok ⟨hvalid, hexec⟩

/-- Two pbufs are chained; the second one stays when its client frees it. -/
theorem references_counted_chain :
    ∃ s, pbufSystem.Run (fun s op => op.Sane s) [allocAt 0, allocAt 1, .chain 0 1, .free 1] s ∧
      s.mem.preds 1 = 1 ∧ (s.mem.taken 1).isSome ∧ s.Right fun s op => op.Sane s := by
  have hstart : pbufSystem.Run (fun s op => op.Sane s) [] freshMemory := run_fresh
  have hfirst := run_op hstart (allocAt 0) trivial (by decide : 0 < 2 ^ 16) rfl
  have hsecond := run_op hfirst (allocAt 1) trivial (by decide : 0 < 2 ^ 16) rfl
  have hchain := run_op hsecond (.chain 0 1) ⟨?_, by decide⟩ ⟨rfl, rfl⟩ rfl
  · have hfree := run_op hchain (.free 1) trivial Nat.one_pos rfl
    exact ⟨_, hfree, by decide, rfl, references_counted hfree⟩
  · intro l l' hl hl'
    obtain rfl : l = [0] := hl.unique ⟨rfl, rfl⟩
    obtain rfl : l' = [1] := hl'.unique ⟨rfl, rfl⟩
    simp

/-- A pbuf that is chained to itself. -/
theorem references_fail :
    ¬ ∀ (as : List Op) (s : PbufState), pbufSystem.Run (fun _ _ => True) as s →
      s.Right fun _ _ => True := by
  intro h
  have hstart : pbufSystem.Run (fun _ _ => True) [] freshMemory := run_fresh
  have hfirst := run_op hstart (allocAt 0) trivial (by decide : 0 < 2 ^ 16) rfl
  have hchain := run_op hfirst (.chain 0 0) trivial ⟨rfl, rfl⟩ rfl
  obtain ⟨l, hl⟩ := (h _ _ hchain).acyclic 0 rfl
  exact not_listAt_of_self (by rfl) hl

end QuietLwip.Buffers
