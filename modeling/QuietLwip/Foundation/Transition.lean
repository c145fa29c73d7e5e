import Mathlib.Data.List.Basic
import Mathlib.Logic.Relation

/-!
# Labelled transition systems and their finite runs

A `System` says where a run may begin and what one labelled step may do. A `Run`
carries the labels of its steps in order, so a history of the execution is a
function of the label list and the state holds no history of its own. Runs are
taken under a side condition `ok` on the state before a step and its label: with
`fun _ _ => True` this is every run, with a stronger condition it is every run
all of whose steps meet that condition.
-/

namespace QuietLwip.Transition

/-- A labelled transition system. -/
structure System (σ : Type*) (α : Type*) where
  start : σ → Prop
  step : σ → α → σ → Prop

namespace System

variable {σ τ α β : Type*} {S : System σ α} {ok ok' : σ → α → Prop}

/-- Runs from a start state, all of whose steps meet `ok`. -/
inductive Run (S : System σ α) (ok : σ → α → Prop) : List α → σ → Prop
  | start {s : σ} (h : S.start s) : Run S ok [] s
  | snoc {as : List α} {s t : σ} {a : α} (hr : Run S ok as s) (hok : ok s a)
      (hs : S.step s a t) : Run S ok (as ++ [a]) t

/-- The state is reached by some run all of whose steps meet `ok`. -/
def ReachableWhile (S : System σ α) (ok : σ → α → Prop) (s : σ) : Prop :=
  ∃ as, S.Run ok as s

/-- The state is reached by some run. -/
def Reachable (S : System σ α) (s : σ) : Prop :=
  S.ReachableWhile (fun _ _ => True) s

/-- The invariant rule for a property of the labels so far and the state reached.
The step case may use that the state before the step is itself reached. -/
theorem Run.invariant {I : List α → σ → Prop}
    (hstart : ∀ s, S.start s → I [] s)
    (hstep : ∀ as s a t, S.Run ok as s → I as s → ok s a → S.step s a t → I (as ++ [a]) t)
    {as : List α} {s : σ} (h : S.Run ok as s) : I as s := by
  induction h with
  | start h => exact hstart _ h
  | snoc hr hok hs ih => exact hstep _ _ _ _ hr ih hok hs

/-- The invariant rule for a property of the state alone. -/
theorem ReachableWhile.invariant {I : σ → Prop}
    (hstart : ∀ s, S.start s → I s)
    (hstep : ∀ s a t, I s → ok s a → S.step s a t → I t)
    {s : σ} (h : S.ReachableWhile ok s) : I s := by
  obtain ⟨as, hr⟩ := h
  exact hr.invariant (I := fun _ s => I s) hstart (fun _ s a t _ => hstep s a t)

/-- The system that starts from one state. -/
def startAt (S : System σ α) (s : σ) : System σ α := { S with start := (· = s) }

/-- A run, taken apart at one of its steps. -/
theorem Run.split {bs cs : List α} {a : α} {s : σ} (h : S.Run ok (bs ++ a :: cs) s) :
    ∃ s₁ s₂, S.Run ok bs s₁ ∧ ok s₁ a ∧ S.step s₁ a s₂ ∧ (S.startAt s₂).Run ok cs s := by
  generalize has : bs ++ a :: cs = as at h
  induction h generalizing cs with
  | start h => simp at has
  | @snoc as s t b hr hok hs ih =>
    obtain rfl | ⟨ds, d, rfl⟩ := cs.eq_nil_or_concat
    · obtain ⟨rfl, hab⟩ := List.append_inj' has rfl
      obtain rfl : a = b := by simpa using hab
      exact ⟨s, t, hr, hok, hs, .start rfl⟩
    · have hcat : (bs ++ a :: ds) ++ [d] = as ++ [b] := by simpa using has
      obtain ⟨hds, hdb⟩ := List.append_inj' hcat rfl
      obtain rfl : d = b := by simpa using hdb
      obtain ⟨s₁, s₂, hbs, hoka, ha, hcs⟩ := ih hds
      exact ⟨s₁, s₂, hbs, hoka, ha, by simpa using hcs.snoc hok hs⟩

/-- A run goes on from the state that another one has reached. -/
theorem ReachableWhile.append {as : List α} {s t : σ} (h : S.ReachableWhile ok s)
    (hr : (S.startAt s).Run ok as t) : S.ReachableWhile ok t := by
  induction hr with
  | start heq =>
    obtain rfl := heq
    exact h
  | snoc _ hok hs ih =>
    obtain ⟨bs, hbs⟩ := ih
    exact ⟨_, hbs.snoc hok hs⟩

/-- Weakening the side condition keeps a run. -/
theorem Run.mono (hle : ∀ s a, ok s a → ok' s a) {as : List α} {s : σ}
    (h : S.Run ok as s) : S.Run ok' as s := by
  induction h with
  | start h => exact .start h
  | snoc _ hok hs ih => exact .snoc ih (hle _ _ hok) hs

theorem ReachableWhile.reachable {s : σ} (h : S.ReachableWhile ok s) : S.Reachable s := by
  obtain ⟨as, hr⟩ := h
  exact ⟨as, hr.mono (fun _ _ _ => trivial)⟩

theorem Reachable.of_start {s : σ} (h : S.start s) : S.Reachable s :=
  ⟨[], .start h⟩

theorem Reachable.step {s t : σ} {a : α} (h : S.Reachable s) (hs : S.step s a t) :
    S.Reachable t := by
  obtain ⟨as, hr⟩ := h
  exact ⟨as ++ [a], .snoc hr trivial hs⟩

end System

end QuietLwip.Transition
