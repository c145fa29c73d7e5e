import QuietLwip.Foundation.Reorder
import QuietLwip.Udp.Lists

/-!
# The pcb of a datagram

`udp_input` takes the first pcb of the list that matches fully, or else the first one that matches and is not
connected, and moves the former to the front.
-/

namespace QuietLwip.Udp.Stack

open Links Reorder

variable {t : Stack} {e : Endpoints} {l : List ℕ}

/-- The pcb `n` matches fully. -/
def full (t : Stack) (e : Endpoints) (n : ℕ) : Bool := fullMatch e (t.pcb n)

/-- The pcb `n` matches, and is not connected. -/
def unconnected (t : Stack) (e : Endpoints) (n : ℕ) : Bool := localMatch e (t.pcb n) && !(t.pcb n).connected

/-- The list of bound pcbs holds `l`, no more than the pool has. -/
structure Holds (t : Stack) (l : List ℕ) : Prop where
  list : ListAt t.next t.pcbs l
  pooled : l.length ≤ mempNumUdpPcb

theorem Listed.holds (h : t.Listed l) : t.Holds l := ⟨h.list, h.length_le⟩

theorem Holds.find (h : t.Holds l) (p : UdpPcb → Bool) :
    (t.find p).map (Option.map Prod.snd) = some (l.find? fun n => p (t.pcb n)) :=
  findFrom_find? h.list h.pooled

/-- The choice, and what is left of the list. -/
theorem Holds.demux (h : t.Holds l) (e : Endpoints) :
    ∃ t' l', t.demux e = some (t', firstOf (t.full e) (t.unconnected e) l) ∧ t'.Holds l' ∧ l'.Perm l ∧
      t'.pcb = t.pcb := by
  obtain ⟨found, hfound, hfull⟩ := Option.map_eq_some_iff.mp (h.find (fullMatch e))
  obtain ⟨found', hfound', huncon⟩ :=
    Option.map_eq_some_iff.mp (h.find fun pcb => localMatch e pcb && !pcb.connected)
  change found.map Prod.snd = l.find? (t.full e) at hfull
  change found'.map Prod.snd = l.find? (t.unconnected e) at huncon
  rw [firstOf, ← hfull, ← huncon, Stack.demux, hfound, Option.bind_some]
  cases found with
  | none =>
    dsimp only
    rw [hfound']
    exact ⟨t, l, rfl, h, .refl _, rfl⟩
  | some found =>
    obtain ⟨prev, n⟩ := found
    obtain ⟨front, back, rfl, hprev⟩ := h.list.of_findFrom hfound
    rw [Option.or_none] at hprev
    cases prev with
    | none => exact ⟨t, _, rfl, h, .refl _, rfl⟩
    | some m =>
      obtain ⟨front, rfl⟩ : ∃ front', front = front' ++ [m] :=
        ⟨front.dropLast, (List.dropLast_append_getLast? m hprev.symm).symm⟩
      have hlist := h.list
      rw [List.append_assoc] at hlist
      have hperm : (n :: (front ++ m :: back)).Perm (front ++ [m] ++ n :: back) := by
        rw [List.append_cons front m back]
        exact List.perm_middle.symm
      refine ⟨_, n :: (front ++ m :: back), rfl, ⟨hlist.toFront, ?_⟩, hperm, rfl⟩
      rw [hperm.length_eq]
      exact h.pooled

/-- The same pcbs in another order -/
structure Reordered (t t' : Stack) (l l' : List ℕ) : Prop where
  pcb : t'.pcb = t.pcb
  holds : t'.Holds l'
  perm : l'.Perm l

/-- The choice does not depend on the order of the list if and only if it is unambiguous. -/
theorem Holds.demux_order (h : t.Holds l) (e : Endpoints) :
    (∀ t' l', t.Reordered t' l l' → (t'.demux e).map Prod.snd = (t.demux e).map Prod.snd) ↔
      Unambiguous (t.full e) (t.unconnected e) l := by
  have hchoice : ∀ {t' : Stack} {l'}, t'.pcb = t.pcb → t'.Holds l' →
      (t'.demux e).map Prod.snd = some (firstOf (t.full e) (t.unconnected e) l') := by
    intro t' l' hpcb hholds
    obtain ⟨t₁, l₁, hdemux, -⟩ := hholds.demux e
    rw [hdemux]
    have hfull : t'.full e = t.full e := by
      funext n
      rw [full, full, hpcb]
    have huncon : t'.unconnected e = t.unconnected e := by
      funext n
      rw [unconnected, unconnected, hpcb]
    rw [hfull, huncon]
    rfl
  constructor
  · intro hsame
    refine unambiguous_of_perm fun l' hperm => ?_
    obtain ⟨next, hnext⟩ := exists_listAt (hperm.nodup_iff.mpr h.list.nodup)
    obtain ⟨t', hpcb, hholds⟩ : ∃ t' : Stack, t'.pcb = t.pcb ∧ t'.Holds l' :=
      ⟨{ t with next := next, pcbs := l'.head? }, rfl, hnext, hperm.length_eq.trans_le h.pooled⟩
    have heq := hsame t' l' ⟨hpcb, hholds, hperm⟩
    rw [hchoice hpcb hholds, hchoice rfl h] at heq
    exact Option.some.inj heq
  · rintro hunamb t' l' ⟨hpcb, hholds, hperm⟩
    rw [hchoice hpcb hholds, hchoice rfl h, hunamb.firstOf_perm hperm]

end QuietLwip.Udp.Stack
