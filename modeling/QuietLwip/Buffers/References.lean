import QuietLwip.Buffers.Graph

/-!
# Counted references

Who refers to a pbuf: its clients, and the pbufs in front of it. Each of the primitive changes of
the memory moves references; the functions of `pbuf.c` are made of these. Between two primitive
changes of one function a count may be off, so the references of the clients are integers here.
-/

namespace QuietLwip.Buffers

open Word Links

variable {m m' : Memory} {p q r t x : ℕ} {l front back : List ℕ} {node : PbufNode}

/-- A reference to `p` more. -/
def gain (owned : ℕ → ℤ) (p : ℕ) (d : ℤ) : ℕ → ℤ := Function.update owned p (owned p + d)

@[simp] theorem gain_self (owned : ℕ → ℤ) (p : ℕ) (d : ℤ) : gain owned p d p = owned p + d :=
  Function.update_self ..

theorem gain_of_ne (owned : ℕ → ℤ) (d : ℤ) (h : x ≠ p) : gain owned p d x = owned x :=
  Function.update_of_ne h ..

theorem gain_apply (owned : ℕ → ℤ) (p : ℕ) (d : ℤ) (x : ℕ) :
    gain owned p d x = owned x + if p = x then d else 0 := by
  by_cases h : p = x
  · rw [← h, gain_self, if_pos rfl]
  · rw [gain_of_ne owned d (Ne.symm h), if_neg h, add_zero]

theorem gain_gain (owned : ℕ → ℤ) (p : ℕ) (d d' : ℤ) :
    gain (gain owned p d) p d' = gain owned p (d + d') := by
  funext x
  simp only [gain_apply]
  split <;> ring

theorem gain_zero (owned : ℕ → ℤ) (p : ℕ) : gain owned p 0 = owned := by
  funext x
  rw [gain_apply]
  split <;> ring

namespace Memory

/-- The link of a pbuf that is handed out. -/
def out (m : Memory) (q : ℕ) : Option ℕ := if (m.taken q).isSome then m.next q else none

/-- How many pbufs that are handed out point to `p`. -/
def preds (m : Memory) (p : ℕ) : ℕ := inDegree (Finset.range m.room) m.out p

/-- The memory counts the references, of which `owned` are those of the clients. -/
structure Counts (m : Memory) (owned : ℕ → ℤ) : Prop where
  ref : ∀ p, (m.taken p).isSome → ((m.pbuf p).ref : ℤ) = owned p + m.preds p
  pos : ∀ p, (m.taken p).isSome → 0 < (m.pbuf p).ref ∧ (m.pbuf p).ref < 2 ^ 16
  dead : ∀ p, m.taken p = none → owned p = 0
  closed : ∀ q p, (m.taken q).isSome → m.next q = some p → (m.taken p).isSome
  acyclic : ∀ p, (m.taken p).isSome → ∃ l, ListAt m.next (some p) l
  place : ∀ p place, m.taken p = some place → place = (m.pbuf p).type.place
  room : ∀ p, (m.taken p).isSome → p < m.room

variable {owned owned' : ℕ → ℤ}

theorem Counts.mem_range (h : m.Counts owned) (hp : (m.taken p).isSome) :
    p ∈ Finset.range m.room := Finset.mem_range.mpr (h.room p hp)

theorem out_of_taken (hp : (m.taken p).isSome) : m.out p = m.next p := if_pos hp

theorem Counts.taken_of_out (h : m.Counts owned) (hq : m.out q = some p) :
    (m.taken p).isSome := by
  unfold out at hq
  split at hq
  · rename_i htaken
    exact h.closed q p htaken hq
  · cases hq

theorem Counts.preds_dead (h : m.Counts owned) (hp : m.taken p = none) : m.preds p = 0 := by
  by_contra hne
  obtain ⟨q, _, hq⟩ := inDegree_pos_iff.mp (Nat.pos_of_ne_zero hne)
  have htaken := h.taken_of_out hq
  rw [hp] at htaken
  cases htaken

/-- A chain holds only pbufs that are handed out. -/
theorem Counts.chain_taken (h : m.Counts owned) (hp : (m.taken p).isSome)
    (hl : ListAt m.next (some p) l) : ∀ x ∈ l, (m.taken x).isSome := by
  induction l generalizing p with
  | nil => exact fun x hx => nomatch hx
  | cons y l ih =>
    obtain ⟨heq, hl⟩ := hl
    obtain rfl : p = y := Option.some.inj heq
    intro x hx
    cases hx with
    | head => exact hp
    | tail _ hx =>
      cases hnext : m.next p with
      | none =>
        rw [hnext] at hl
        cases l with
        | nil => cases hx
        | cons z l => cases hl.1
      | some q =>
        rw [hnext] at hl
        exact ih (h.closed p q hp hnext) hl x hx

theorem Counts.chain_length (h : m.Counts owned) (hp : (m.taken p).isSome)
    (hl : ListAt m.next (some p) l) : l.length ≤ m.room := by
  have hsub : l ⊆ List.range m.room := fun x hx =>
    List.mem_range.mpr (h.room x (h.chain_taken hp hl x hx))
  calc l.length ≤ (List.range m.room).length := (List.subperm_of_subset hl.nodup hsub).length_le
    _ = m.room := List.length_range

/-! ### The primitive changes -/

theorem modify_pbuf_self (m : Memory) (p : ℕ) (f : PbufNode → PbufNode) :
    (m.modify p f).pbuf p = f (m.pbuf p) := Function.update_self ..

theorem modify_pbuf_of_ne (f : PbufNode → PbufNode) (h : x ≠ p) :
    (m.modify p f).pbuf x = m.pbuf x := Function.update_of_ne h ..

/-- A change that does not touch the link. -/
theorem modify_next {f : PbufNode → PbufNode} (hf : (f (m.pbuf p)).next = (m.pbuf p).next) :
    (m.modify p f).next = m.next := by
  funext x
  by_cases hx : x = p
  · subst hx
    rw [next, modify_pbuf_self, hf, next]
  · rw [next, modify_pbuf_of_ne f hx, next]

theorem setNext_next (m : Memory) (p : ℕ) (q : Option ℕ) :
    (m.setNext p q).next = Function.update m.next p q := by
  funext x
  by_cases hx : x = p
  · subst hx
    rw [Function.update_self, next, setNext, modify_pbuf_self]
  · rw [Function.update_of_ne hx, next, setNext, modify_pbuf_of_ne _ hx, next]

/-- Two memories with the same chains. -/
structure SameLinks (m m' : Memory) : Prop where
  room : m'.room = m.room
  taken : m'.taken = m.taken
  next : m'.next = m.next
  type : ∀ p, (m'.pbuf p).type = (m.pbuf p).type

theorem SameLinks.refl (m : Memory) : SameLinks m m := ⟨rfl, rfl, rfl, fun _ => rfl⟩

theorem SameLinks.preds (h : SameLinks m m') (p : ℕ) : m'.preds p = m.preds p := by
  have hout : m'.out = m.out := by
    funext q
    rw [out, out, h.taken, h.next]
  rw [Memory.preds, Memory.preds, h.room, hout]

theorem Counts.congr (h : m.Counts owned) (hs : SameLinks m m')
    (href : ∀ p, (m.taken p).isSome → ((m'.pbuf p).ref : ℤ) = owned' p + m.preds p)
    (hpos : ∀ p, (m.taken p).isSome → 0 < (m'.pbuf p).ref ∧ (m'.pbuf p).ref < 2 ^ 16)
    (hdead : ∀ p, m.taken p = none → owned' p = 0) : m'.Counts owned' where
  ref p hp := by
    rw [hs.taken] at hp
    rw [hs.preds]
    exact href p hp
  pos p hp := by
    rw [hs.taken] at hp
    exact hpos p hp
  dead p hp := by
    rw [hs.taken] at hp
    exact hdead p hp
  closed q p hq hp := by
    rw [hs.taken] at *
    rw [hs.next] at hp
    exact h.closed q p hq hp
  acyclic p hp := by
    rw [hs.taken] at hp
    rw [hs.next]
    exact h.acyclic p hp
  place p place hp := by
    rw [hs.taken] at hp
    rw [hs.type]
    exact h.place p place hp
  room p hp := by
    rw [hs.taken] at hp
    rw [hs.room]
    exact h.room p hp

/-- Two memories that differ in lengths only. -/
structure SameRefs (m m' : Memory) : Prop extends SameLinks m m' where
  ref : ∀ p, (m'.pbuf p).ref = (m.pbuf p).ref

theorem SameRefs.trans {m₁ m₂ : Memory} (h : SameRefs m m₁) (h' : SameRefs m₁ m₂) :
    SameRefs m m₂ where
  room := h'.room.trans h.room
  taken := h'.taken.trans h.taken
  next := h'.next.trans h.next
  type p := (h'.type p).trans (h.type p)
  ref p := (h'.ref p).trans (h.ref p)

theorem SameRefs.modify (m : Memory) {f : PbufNode → PbufNode}
    (hnext : (f (m.pbuf p)).next = (m.pbuf p).next) (htype : (f (m.pbuf p)).type = (m.pbuf p).type)
    (href : (f (m.pbuf p)).ref = (m.pbuf p).ref) : SameRefs m (m.modify p f) := by
  have hsame : ∀ x, ((m.modify p f).pbuf x).type = (m.pbuf x).type ∧
      ((m.modify p f).pbuf x).ref = (m.pbuf x).ref := by
    intro x
    by_cases hx : x = p
    · subst hx
      rw [modify_pbuf_self]
      exact ⟨htype, href⟩
    · rw [modify_pbuf_of_ne f hx]
      exact ⟨rfl, rfl⟩
  exact ⟨⟨rfl, rfl, modify_next hnext, fun x => (hsame x).1⟩, fun x => (hsame x).2⟩

theorem SameRefs.setTotLen (m : Memory) (p : ℕ) (totLen : ℤ) : SameRefs m (m.setTotLen p totLen) :=
  .modify m rfl rfl rfl

theorem Counts.sameRefs (h : m.Counts owned) (hs : SameRefs m m') : m'.Counts owned := by
  refine h.congr hs.toSameLinks (fun x hx => ?_) (fun x hx => ?_) h.dead
  · rw [hs.ref]
    exact h.ref x hx
  · rw [hs.ref]
    exact h.pos x hx

/-- A reference of a client comes or goes. -/
theorem Counts.setRef (h : m.Counts owned) (hp : (m.taken p).isSome) {ref d : ℤ}
    (href : ref = (m.pbuf p).ref + d) (hpos : 0 < ref) (hlt : ref < 2 ^ 16) :
    (m.setRef p ref).Counts (gain owned p d) := by
  have hu : (u16 ref : ℤ) = (m.pbuf p).ref + d := by
    rw [← href]
    simp only [u16, wrapU]
    omega
  refine h.congr ⟨rfl, rfl, modify_next rfl, fun x => ?_⟩ (fun x hx => ?_) (fun x hx => ?_)
    (fun x hx => ?_)
  · by_cases hxp : x = p
    · subst hxp
      rw [Memory.setRef, modify_pbuf_self]
    · rw [Memory.setRef, modify_pbuf_of_ne _ hxp]
  · by_cases hxp : x = p
    · subst hxp
      rw [Memory.setRef, modify_pbuf_self, gain_self, hu, h.ref x hx]
      ring
    · rw [Memory.setRef, modify_pbuf_of_ne _ hxp, gain_of_ne _ _ hxp, h.ref x hx]
  · by_cases hxp : x = p
    · subst hxp
      rw [Memory.setRef, modify_pbuf_self]
      show 0 < u16 _ ∧ u16 _ < 2 ^ 16
      omega
    · rw [Memory.setRef, modify_pbuf_of_ne _ hxp]
      exact h.pos x hx
  · have hxp : x ≠ p := by
      rintro rfl
      rw [hx] at hp
      cases hp
    rw [gain_of_ne _ _ hxp]
    exact h.dead x hx

/-- What a link to `q` counts for `p`. -/
theorem preds_update (hx : x ∈ Finset.range m.room) (v : Option ℕ) (hroom : m'.room = m.room)
    (hout : m'.out = Function.update m.out x v) (p : ℕ) :
    (m'.preds p : ℤ) = m.preds p + (if v = some p then 1 else 0) -
      if m.out x = some p then 1 else 0 := by
  have hbalance : inDegree (Finset.range m.room) (Function.update m.out x v) p + _ = _ :=
    inDegree_update hx v p
  rw [preds, preds, hroom, hout]
  split at hbalance <;> split at hbalance <;> simp_all
  all_goals omega

theorem setNext_out (hx : (m.taken x).isSome) (v : Option ℕ) :
    (m.setNext x v).out = Function.update m.out x v := by
  funext y
  by_cases hy : y = x
  · subst hy
    rw [Function.update_self, out_of_taken (m := m.setNext y v) hx, setNext_next,
      Function.update_self]
  · rw [Function.update_of_ne hy, out, setNext_next, Function.update_of_ne hy]
    rfl

theorem Counts.setNext_preds (h : m.Counts owned) (hx : (m.taken x).isSome) (v : Option ℕ)
    (p : ℕ) : ((m.setNext x v).preds p : ℤ) = m.preds p + (if v = some p then 1 else 0) -
      if m.next x = some p then 1 else 0 := by
  rw [← out_of_taken hx]
  exact preds_update (h.mem_range hx) v (by rfl) (setNext_out hx v) p

theorem setNext_ref (m : Memory) (x p : ℕ) (v : Option ℕ) :
    ((m.setNext x v).pbuf p).ref = (m.pbuf p).ref ∧
      ((m.setNext x v).pbuf p).type = (m.pbuf p).type := by
  by_cases hp : p = x
  · subst hp
    rw [setNext, modify_pbuf_self]
    exact ⟨rfl, rfl⟩
  · rw [setNext, modify_pbuf_of_ne _ hp]
    exact ⟨rfl, rfl⟩

/-- The last pbuf of a chain takes over a reference to `t`. -/
theorem Counts.link (h : m.Counts owned) (hx : (m.taken x).isSome) (hnext : m.next x = none)
    (ht : (m.taken t).isSome) (hl : ListAt m.next (some t) l) (hxl : x ∉ l) :
    (m.setNext x (some t)).Counts (gain owned t (-1)) where
  ref p hp := by
    rw [(setNext_ref m x p _).1, gain_apply, h.ref p hp, h.setNext_preds hx, hnext]
    simp only [Option.some.injEq, reduceCtorEq, if_false]
    split <;> ring
  pos p hp := by
    rw [(setNext_ref m x p _).1]
    exact h.pos p hp
  dead p hp := by
    have hpt : p ≠ t := by
      rintro rfl
      rw [show m.taken p = none from hp] at ht
      cases ht
    rw [gain_of_ne _ _ hpt]
    exact h.dead p hp
  closed q p hq hp := by
    rw [setNext_next] at hp
    by_cases hqx : q = x
    · subst hqx
      rw [Function.update_self] at hp
      cases hp
      exact ht
    · rw [Function.update_of_ne hqx] at hp
      exact h.closed q p hq hp
  acyclic p hp := by
    obtain ⟨k, hk⟩ := h.acyclic p hp
    rw [setNext_next]
    by_cases hxk : x ∈ k
    · obtain ⟨front, back, rfl⟩ := List.append_of_mem hxk
      exact ⟨front ++ x :: l, hk.relink hl hxl⟩
    · exact ⟨k, hk.update hxk _⟩
  place p place hp := by
    rw [(setNext_ref m x p _).2]
    exact h.place p place hp
  room p hp := h.room p hp

/-- A chain is cut behind `x`. -/
theorem Counts.cut (h : m.Counts owned) (hx : (m.taken x).isSome) (hnext : m.next x = some q) :
    (m.setNext x none).Counts (gain owned q 1) where
  ref p hp := by
    rw [(setNext_ref m x p _).1, gain_apply, h.ref p hp, h.setNext_preds hx, hnext]
    simp only [Option.some.injEq, reduceCtorEq, if_false]
    split <;> ring
  pos p hp := by
    rw [(setNext_ref m x p _).1]
    exact h.pos p hp
  dead p hp := by
    have hq := h.closed x q hx hnext
    have hpq : p ≠ q := by
      rintro rfl
      rw [show m.taken p = none from hp] at hq
      cases hq
    rw [gain_of_ne _ _ hpq]
    exact h.dead p hp
  closed r p hr hp := by
    rw [setNext_next] at hp
    by_cases hrx : r = x
    · subst hrx
      rw [Function.update_self] at hp
      cases hp
    · rw [Function.update_of_ne hrx] at hp
      exact h.closed r p hr hp
  acyclic p hp := by
    obtain ⟨k, hk⟩ := h.acyclic p hp
    rw [setNext_next]
    by_cases hxk : x ∈ k
    · obtain ⟨front, back, rfl⟩ := List.append_of_mem hxk
      exact ⟨front ++ [x], hk.relink (rfl : ListAt m.next none []) List.not_mem_nil⟩
    · exact ⟨k, hk.update hxk _⟩
  place p place hp := by
    rw [(setNext_ref m x p _).2]
    exact h.place p place hp
  room p hp := h.room p hp

/-! ### Allocating and deallocating -/

theorem take_pbuf_of_ne (h : x ≠ p) : (m.take p node).pbuf x = m.pbuf x :=
  Function.update_of_ne h ..

theorem take_pbuf_self (m : Memory) (p : ℕ) (node : PbufNode) : (m.take p node).pbuf p = node :=
  Function.update_self ..

theorem take_taken_of_ne (h : x ≠ p) : (m.take p node).taken x = m.taken x :=
  Function.update_of_ne h ..

theorem take_taken_self (m : Memory) (p : ℕ) (node : PbufNode) :
    (m.take p node).taken p = some node.type.place := Function.update_self ..

/-- A new pbuf, which its client refers to. -/
theorem Counts.take (h : m.Counts owned) (hp : m.taken p = none) (hroom : p < m.room)
    (hnext : node.next = none) (href : node.ref = 1) :
    (m.take p node).Counts (gain owned p 1) := by
  have hother : ∀ {x}, (m.taken x).isSome → x ≠ p := by
    rintro x hx rfl
    rw [hp] at hx
    cases hx
  have hout : (m.take p node).out = m.out := by
    funext x
    by_cases hx : x = p
    · subst hx
      have hleft : (m.take x node).out x = node.next := by
        rw [out_of_taken (by rw [take_taken_self]; rfl), next, take_pbuf_self]
      have hright : m.out x = none := if_neg (by rw [hp]; nofun)
      rw [hleft, hnext, hright]
    · rw [out, out, take_taken_of_ne hx, next, take_pbuf_of_ne hx, next]
  have hpreds : ∀ x, (m.take p node).preds x = m.preds x := fun x => by
    rw [preds, hout]
    rfl
  have hnextAt : ∀ x, (m.taken x).isSome → (m.take p node).next x = m.next x := fun x hx => by
    rw [next, take_pbuf_of_ne (hother hx), next]
  refine ⟨fun x hx => ?_, fun x hx => ?_, fun x hx => ?_, fun y x hy hx => ?_, fun x hx => ?_,
    fun x place hx => ?_, fun x hx => ?_⟩ <;> by_cases hxp : x = p
  · subst hxp
    rw [take_pbuf_self, hpreds, gain_self, h.dead x hp, h.preds_dead hp, href]
    rfl
  · rw [take_taken_of_ne hxp] at hx
    rw [take_pbuf_of_ne hxp, hpreds, gain_of_ne _ _ hxp, h.ref x hx]
  · subst hxp
    rw [take_pbuf_self, href]
    decide
  · rw [take_taken_of_ne hxp] at hx
    rw [take_pbuf_of_ne hxp]
    exact h.pos x hx
  · subst hxp
    rw [take_taken_self] at hx
    cases hx
  · rw [take_taken_of_ne hxp] at hx
    rw [gain_of_ne _ _ hxp]
    exact h.dead x hx
  · subst hxp
    rw [take_taken_self]
    rfl
  · rw [take_taken_of_ne hxp]
    by_cases hyp : y = p
    · subst hyp
      rw [next, take_pbuf_self, hnext] at hx
      cases hx
    · rw [take_taken_of_ne hyp] at hy
      rw [hnextAt y hy] at hx
      exact h.closed y x hy hx
  · subst hxp
    refine ⟨[x], rfl, ?_⟩
    rw [next, take_pbuf_self]
    exact hnext
  · rw [take_taken_of_ne hxp] at hx
    obtain ⟨l, hl⟩ := h.acyclic x hx
    exact ⟨l, hl.congr fun y hy => hnextAt y (h.chain_taken hx hl y hy)⟩
  · subst hxp
    rw [take_taken_self] at hx
    rw [take_pbuf_self]
    exact (Option.some.inj hx).symm
  · rw [take_taken_of_ne hxp] at hx
    rw [take_pbuf_of_ne hxp]
    exact h.place x place hx
  · subst hxp
    exact hroom
  · rw [take_taken_of_ne hxp] at hx
    exact h.room x hx

/-- The memory after `p` has been given back. -/
def untake (p : ℕ) (m : Memory) : Memory := { m with taken := Function.update m.taken p none }

theorem untake_taken_of_ne (h : x ≠ p) : (m.untake p).taken x = m.taken x :=
  Function.update_of_ne h ..

theorem untake_taken_self (m : Memory) (p : ℕ) : (m.untake p).taken p = none :=
  Function.update_self ..

theorem setRef_next (m : Memory) (p : ℕ) (d : ℤ) : (m.setRef p d).next = m.next := modify_next rfl

theorem setRef_pbuf_of_ne (d : ℤ) (h : x ≠ p) : (m.setRef p d).pbuf x = m.pbuf x :=
  modify_pbuf_of_ne _ h

/-- What the clients own when the last reference to a pbuf is gone: they inherit its link. -/
def inherit (m : Memory) (owned : ℕ → ℤ) (p : ℕ) : ℕ → ℤ :=
  match m.next p with
  | none => gain owned p (-1)
  | some q => gain (gain owned p (-1)) q 1

theorem inherit_apply (m : Memory) (owned : ℕ → ℤ) (p x : ℕ) :
    m.inherit owned p x =
      owned x + (if p = x then -1 else 0) + if m.next p = some x then 1 else 0 := by
  unfold inherit
  cases m.next p with
  | none =>
    show gain owned p (-1) x = _
    rw [gain_apply]
    simp only [reduceCtorEq, if_false, add_zero]
  | some q =>
    show gain (gain owned p (-1)) q 1 x = _
    rw [gain_apply, gain_apply]
    simp only [Option.some.injEq]

/-- The last reference to `p` goes, and its link with it. -/
theorem Counts.untake (h : m.Counts owned) (hp : (m.taken p).isSome) (href : (m.pbuf p).ref = 1)
    (howned : 0 < owned p) : ((m.setRef p 0).untake p).Counts (m.inherit owned p) := by
  have hone : owned p = 1 ∧ m.preds p = 0 := by
    have hsum := h.ref p hp
    rw [href] at hsum
    omega
  have hfree : ∀ y, (m.taken y).isSome → m.next y ≠ some p := by
    intro y hy hnext
    have hpos : 0 < m.preds p :=
      inDegree_pos_iff.mpr ⟨y, h.mem_range hy, (out_of_taken hy).trans hnext⟩
    exact hpos.ne' hone.2
  have hnext : ((m.setRef p 0).untake p).next = m.next := setRef_next m p 0
  have hout : ((m.setRef p 0).untake p).out = Function.update m.out p none := by
    funext y
    by_cases hy : y = p
    · subst hy
      rw [Function.update_self, out, untake_taken_self]
      rfl
    · rw [Function.update_of_ne hy, out, hnext, untake_taken_of_ne hy]
      rfl
  have hpreds : ∀ x, (((m.setRef p 0).untake p).preds x : ℤ) =
      m.preds x - if m.next p = some x then 1 else 0 := by
    intro x
    have hupdate := preds_update (h.mem_range hp) none (by rfl) hout x
    rw [if_neg nofun, add_zero, out_of_taken hp] at hupdate
    exact hupdate
  have hpbuf : ∀ {x}, x ≠ p → ((m.setRef p 0).untake p).pbuf x = m.pbuf x :=
    fun hx => setRef_pbuf_of_ne 0 hx
  have hother : ∀ {x}, (((m.setRef p 0).untake p).taken x).isSome → x ≠ p ∧ (m.taken x).isSome := by
    intro x hx
    have hxp : x ≠ p := by
      rintro rfl
      rw [untake_taken_self] at hx
      cases hx
    rw [untake_taken_of_ne hxp] at hx
    exact ⟨hxp, hx⟩
  refine ⟨fun x hx => ?_, fun x hx => ?_, fun x hx => ?_, fun y x hy hx => ?_, fun x hx => ?_,
    fun x place hx => ?_, fun x hx => h.room x (hother hx).2⟩
  · obtain ⟨hxp, hx⟩ := hother hx
    rw [hpbuf hxp, hpreds, inherit_apply, if_neg (Ne.symm hxp), h.ref x hx]
    ring
  · obtain ⟨hxp, hx⟩ := hother hx
    rw [hpbuf hxp]
    exact h.pos x hx
  · rw [inherit_apply]
    by_cases hxp : x = p
    · subst hxp
      rw [if_pos rfl, if_neg (hfree x hp), hone.1]
      rfl
    · rw [untake_taken_of_ne hxp] at hx
      have hlink : m.next p ≠ some x := by
        intro hlink
        have htaken := h.closed p x hp hlink
        rw [show m.taken x = none from hx] at htaken
        cases htaken
      rw [if_neg (Ne.symm hxp), if_neg hlink, h.dead x hx]
      rfl
  · have hy' := (hother hy).2
    rw [hnext] at hx
    have hxp : x ≠ p := by
      rintro rfl
      exact hfree y hy' hx
    rw [untake_taken_of_ne hxp]
    exact h.closed y x hy' hx
  · obtain ⟨_, hx⟩ := hother hx
    rw [hnext]
    exact h.acyclic x hx
  · have hxp := (hother (by rw [hx]; rfl)).1
    rw [untake_taken_of_ne hxp] at hx
    rw [hpbuf hxp]
    exact h.place x place hx

/-! ### `pbuf_free` -/

theorem read_of_taken (hp : (m.taken p).isSome) : m.read p = .ok (m.pbuf p) := if_pos hp

/-- What `pbuf_free` does to a memory: the pbufs `front` are given back, the reference counts of
the others may change. -/
structure Frees (front : List ℕ) (m m' : Memory) : Prop where
  room : m'.room = m.room
  next : m'.next = m.next
  taken : ∀ x, m'.taken x = if x ∈ front then none else m.taken x

theorem Frees.refl (m : Memory) : Frees [] m m := ⟨rfl, rfl, fun _ => (if_neg List.not_mem_nil).symm⟩

theorem Frees.cons {m₁ : Memory} (h : Frees front m₁ m') (hnext : m₁.next = m.next)
    (hroom : m₁.room = m.room) (htaken : m₁.taken = Function.update m.taken p none) :
    Frees (p :: front) m m' := by
  refine ⟨h.room.trans hroom, h.next.trans hnext, fun x => ?_⟩
  rw [h.taken, htaken]
  by_cases hx : x = p
  · subst hx
    rw [Function.update_self, if_pos (List.mem_cons_self ..)]
    split <;> rfl
  · rw [Function.update_of_ne hx]
    simp only [List.mem_cons, hx, false_or]

/-- The last reference: the pbuf is deallocated. -/
theorem freeLoop_last {fuel count : ℕ} (h : m.Counts owned) (hp : (m.taken p).isSome)
    (href : (m.pbuf p).ref = 1) :
    freeLoop (fuel + 1) count p m =
      match m.next p with
      | none => .ok ((m.setRef p 0).untake p, u8 (count + 1))
      | some q => freeLoop fuel (u8 (count + 1)) q ((m.setRef p 0).untake p) := by
  obtain ⟨place, hplace⟩ := Option.isSome_iff_exists.mp hp
  have hrelease : (m.setRef p 0).release (m.pbuf p).type.place p =
      .ok ((m.setRef p 0).untake p) := by
    rw [← h.place p place hplace]
    exact if_pos hplace
  have hzero : ((m.setRef p 0).pbuf p).ref = 0 := by
    rw [setRef, modify_pbuf_self]
    rfl
  have hset : ((m.pbuf p).ref : ℤ) - 1 = 0 := by
    rw [href]
    rfl
  rw [freeLoop, read_of_taken hp]
  show (if (m.pbuf p).ref = 0 then _ else _) = _
  rw [if_neg (by rw [href]; decide)]
  simp only [hset]
  rw [if_pos hzero, hrelease]
  rfl

/-- There are references left. -/
theorem freeLoop_kept {fuel count : ℕ} (h : m.Counts owned) (hp : (m.taken p).isSome)
    (href : 1 < (m.pbuf p).ref) :
    freeLoop (fuel + 1) count p m = .ok (m.setRef p ((m.pbuf p).ref - 1), count) := by
  have hlt := (h.pos p hp).2
  have hpos : ((m.setRef p ((m.pbuf p).ref - 1)).pbuf p).ref ≠ 0 := by
    rw [setRef, modify_pbuf_self]
    show u16 _ ≠ 0
    simp only [u16, wrapU]
    omega
  rw [freeLoop, read_of_taken hp]
  show (if (m.pbuf p).ref = 0 then _ else _) = _
  rw [if_neg (by omega)]
  exact if_neg hpos

theorem inherit_of_none (hnext : m.next p = none) : m.inherit owned p = gain owned p (-1) := by
  rw [inherit, hnext]

theorem inherit_of_some (hnext : m.next p = some q) :
    m.inherit owned p = gain (gain owned p (-1)) q 1 := by
  rw [inherit, hnext]

theorem Counts.taken_of_owned (h : m.Counts owned) (hp : 0 < owned p) : (m.taken p).isSome := by
  cases htaken : m.taken p with
  | none => exact absurd (h.dead p htaken) hp.ne'
  | some place => rfl

theorem setRef_untake_frees (m : Memory) (p : ℕ) : Frees [p] m ((m.setRef p 0).untake p) :=
  (Frees.refl _).cons (setRef_next m p 0) rfl rfl

/-- The loop of `pbuf_free` over the chain `l`. -/
theorem freeLoop_spec {fuel count : ℕ} (h : m.Counts owned) (hnonneg : ∀ x, 0 ≤ owned x)
    (howned : 0 < owned p) (hl : ListAt m.next (some p) l) (hfuel : l.length ≤ fuel)
    (hcount : count < 2 ^ 8) :
    ∃ m' front back, l = front ++ back ∧
      freeLoop fuel count p m = .ok (m', u8 (count + front.length)) ∧
      Frees front m m' ∧ m'.Counts (gain owned p (-1)) := by
  induction l generalizing m owned p count fuel with
  | nil => cases hl
  | cons y l ih =>
    obtain ⟨heq, hl⟩ := hl
    obtain rfl : p = y := Option.some.inj heq
    obtain ⟨fuel, rfl⟩ : ∃ k, fuel = k + 1 := Nat.exists_eq_add_one.mpr (by simp at hfuel; omega)
    have hp := h.taken_of_owned howned
    have hkept : u8 ((count : ℤ) + (([] : List ℕ).length : ℤ)) = count := by
      simp only [u8, wrapU, List.length_nil]
      omega
    by_cases href : (m.pbuf p).ref = 1
    · have huntake := h.untake hp href howned
      rw [freeLoop_last h hp href]
      cases hnext : m.next p with
      | none =>
        rw [inherit_of_none hnext] at huntake
        rw [hnext] at hl
        obtain rfl : l = [] := List.head?_eq_none_iff.mp hl.head
        exact ⟨_, [p], [], rfl, rfl, setRef_untake_frees m p, huntake⟩
      | some q =>
        rw [inherit_of_some hnext] at huntake
        rw [hnext] at hl
        have hl' : ListAt ((m.setRef p 0).untake p).next (some q) l := by
          rw [show ((m.setRef p 0).untake p).next = m.next from setRef_next m p 0]
          exact hl
        have hgain : ∀ x, 0 ≤ gain owned p (-1) x := by
          intro x
          have hx := hnonneg x
          rw [gain_apply]
          split
          · rename_i heq
            subst heq
            omega
          · omega
        have hnonneg' : ∀ x, 0 ≤ gain (gain owned p (-1)) q 1 x := by
          intro x
          have hx := hgain x
          rw [gain_apply]
          split <;> omega
        have hq : 0 < gain (gain owned p (-1)) q 1 q := by
          rw [gain_self]
          have hx := hgain q
          omega
        obtain ⟨m', front, back, rfl, hfree, hfrees, hcounts⟩ :=
          ih huntake hnonneg' hq hl' (by simpa using hfuel) (wrapU_lt 8 _)
        refine ⟨m', p :: front, back, rfl, ?_, hfrees.cons (setRef_next m p 0) rfl rfl, ?_⟩
        · show freeLoop fuel (u8 (count + 1)) q _ = _
          rw [hfree]
          simp only [u8, wrapU, List.length_cons]
          congr 2
          push_cast
          omega
        · rw [gain_gain, Int.add_right_neg, gain_zero] at hcounts
          exact hcounts
    · have hone : 1 < (m.pbuf p).ref := by
        have hpos := (h.pos p hp).1
        omega
      have hlt := (h.pos p hp).2
      refine ⟨m.setRef p ((m.pbuf p).ref - 1), [], p :: l, rfl, ?_, ?_,
        h.setRef hp (Int.sub_eq_add_neg) (by omega) (by omega)⟩
      · rw [freeLoop_kept h hp hone, hkept]
      · exact ⟨rfl, setRef_next m p _, fun x => (if_neg List.not_mem_nil).symm⟩

/-- `pbuf_free(p)` for an owner of `p`: it gives back the first pbufs of the chain. -/
theorem pbufFree_spec (h : m.Counts owned) (hnonneg : ∀ x, 0 ≤ owned x) (howned : 0 < owned p) :
    ∃ m' front back, ListAt m.next (some p) (front ++ back) ∧
      m.pbufFree p = .ok (m', u8 front.length) ∧ Frees front m m' ∧
      m'.Counts (gain owned p (-1)) := by
  have hp := h.taken_of_owned howned
  obtain ⟨l, hl⟩ := h.acyclic p hp
  obtain ⟨m', front, back, rfl, hfree, hfrees, hcounts⟩ :=
    freeLoop_spec h hnonneg howned hl (h.chain_length hp hl) (by decide : 0 < 2 ^ 8)
  refine ⟨m', front, back, hl, ?_, hfrees, hcounts⟩
  rw [pbufFree, hfree]
  simp only [Nat.cast_zero, zero_add]

/-- The pbufs that one of two memories has handed out and the other has not. -/
def deallocated (m m' : Memory) : Finset ℕ :=
  (Finset.range m.room).filter fun x => (m.taken x).isSome ∧ m'.taken x = none

theorem Frees.card_deallocated (hfrees : Frees front m m') (h : m.Counts owned)
    (hp : (m.taken p).isSome) (hl : ListAt m.next (some p) (front ++ back)) :
    (m.deallocated m').card = front.length := by
  have htaken := h.chain_taken hp hl
  have heq : m.deallocated m' = front.toFinset := by
    ext x
    rw [deallocated, Finset.mem_filter, Finset.mem_range, List.mem_toFinset, hfrees.taken]
    constructor
    · rintro ⟨_, hx, hnone⟩
      by_contra hmem
      rw [if_neg hmem] at hnone
      rw [hnone] at hx
      cases hx
    · intro hx
      have hx' := htaken x (List.mem_append_left _ hx)
      exact ⟨h.room x hx', hx', if_pos hx⟩
  rw [heq, List.toFinset_card_of_nodup (List.Nodup.of_append_left hl.nodup)]

end Memory

end QuietLwip.Buffers
