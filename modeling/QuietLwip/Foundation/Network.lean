import QuietLwip.Foundation.Transition
import Mathlib.Logic.Function.Basic

/-!
# Parties with a network between them

The parties of a protocol take steps of their own; in a step a party may take a message, and it may
send some. The network remembers all that it was given: a message may be taken late, in any order,
more than once or never, and it is for the step of a party to say which messages it takes.
-/

namespace QuietLwip.Network

open Transition

/-- A party `i` in the state `s` may take the message, if there is one, in a step with the label `a`,
after which it is in the state `s'` and has sent the messages listed. -/
structure Protocol (ι σ μ α : Type*) where
  start : ι → σ → Prop
  step : ι → σ → Option μ → α → σ → List μ → Prop

/-- The states of the parties, and all that has been sent. -/
structure Net (ι σ μ : Type*) where
  party : ι → σ
  wire : List μ

structure Act (ι μ α : Type*) where
  who : ι
  taken : Option μ
  label : α

namespace Protocol

variable {ι σ μ α : Type*} [DecidableEq ι] {P : Protocol ι σ μ α} {net net' : Net ι σ μ}
  {act : Act ι μ α} {ok : Net ι σ μ → Act ι μ α → Prop}

/-- One step of one party. -/
inductive Step (P : Protocol ι σ μ α) (net : Net ι σ μ) (act : Act ι μ α) : Net ι σ μ → Prop
  | mk {s' : σ} {out : List μ} (hwire : ∀ m ∈ act.taken, m ∈ net.wire)
      (hstep : P.step act.who (net.party act.who) act.taken act.label s' out) :
      Step P net act ⟨Function.update net.party act.who s', net.wire ++ out⟩

/-- The parties together, with nothing sent. -/
def system (P : Protocol ι σ μ α) : System (Net ι σ μ) (Act ι μ α) where
  start net := (∀ i, P.start i (net.party i)) ∧ net.wire = []
  step := P.Step

/-- The network forgets nothing. -/
theorem Step.wire_subset (h : P.Step net act net') : net.wire ⊆ net'.wire := by
  cases h with
  | mk _ _ => exact List.subset_append_left _ _

/-- The other parties do not notice. -/
theorem Step.party_of_ne (h : P.Step net act net') {i : ι} (hi : i ≠ act.who) :
    net'.party i = net.party i := by
  cases h with
  | mk _ _ => exact Function.update_of_ne hi _ _

/-- What one party did. -/
theorem Step.party_self (h : P.Step net act net') :
    ∃ out, P.step act.who (net.party act.who) act.taken act.label (net'.party act.who) out ∧
      net'.wire = net.wire ++ out ∧ ∀ m ∈ act.taken, m ∈ net.wire := by
  cases h with
  | @mk s' out hwire hstep =>
    refine ⟨out, ?_, rfl, hwire⟩
    simpa using hstep

/-- The invariant rule: what holds of each party by itself and of each message by itself. A party may
rely on the messages that it takes, and answers for those that it sends. -/
theorem invariant {I : ι → σ → Prop} {H : μ → Prop}
    (hstart : ∀ i s, P.start i s → I i s)
    (hstep : ∀ net act s' out, I act.who (net.party act.who) → (∀ m ∈ act.taken, H m) →
      ok net act → P.step act.who (net.party act.who) act.taken act.label s' out →
        I act.who s' ∧ ∀ m ∈ out, H m)
    (h : P.system.ReachableWhile ok net) : (∀ i, I i (net.party i)) ∧ ∀ m ∈ net.wire, H m := by
  refine h.invariant (I := fun net => (∀ i, I i (net.party i)) ∧ ∀ m ∈ net.wire, H m) ?_ ?_
  · rintro net ⟨hparties, hwire⟩
    refine ⟨fun i => hstart i _ (hparties i), ?_⟩
    rw [hwire]
    exact fun m hm => absurd hm List.not_mem_nil
  · rintro net act net' ⟨hI, hH⟩ hok hs
    cases hs with
    | @mk s' out hwire hlocal =>
      obtain ⟨hI', hout⟩ := hstep net act s' out (hI act.who) (fun m hm => hH m (hwire m hm)) hok hlocal
      constructor
      · intro i
        obtain rfl | hi := eq_or_ne i act.who
        · simpa using hI'
        · simpa [Function.update_of_ne hi] using hI i
      · intro m hm
        obtain hm | hm := List.mem_append.mp hm
        · exact hH m hm
        · exact hout m hm

end Protocol

end QuietLwip.Network
