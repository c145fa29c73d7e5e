import QuietLwip.Foundation.Transition
import Mathlib.Tactic.Common

/-!
# Programs that may fail

Rules for a program in `Except`: what a sequence that succeeds was made of, and the invariant rule for a
loop over a list. Each step of the loop may have a side condition on the state in which it is taken.
-/

namespace QuietLwip.Fallible

universe u v

variable {ε : Type u}

section bind

variable {β γ : Type v} {x : Except ε β}

theorem bind_ok {f : β → Except ε γ} {c : γ} (h : (x >>= f) = .ok c) :
    ∃ b, x = .ok b ∧ f b = .ok c := by
  cases x with
  | error e => cases h
  | ok b => exact ⟨b, rfl, h⟩

theorem bind_error {f : β → Except ε γ} {e : ε} (h : (x >>= f) = .error e) :
    x = .error e ∨ ∃ b, x = .ok b ∧ f b = .error e := by
  cases x with
  | error e' =>
    cases h
    exact .inl rfl
  | ok b => exact .inr ⟨b, rfl, h⟩

theorem map_ok {f : β → γ} {c : γ} (h : f <$> x = .ok c) : ∃ b, x = .ok b ∧ f b = c := by
  cases x with
  | error e => cases h
  | ok b =>
    cases h
    exact ⟨b, rfl, rfl⟩

theorem map_error {f : β → γ} {e : ε} (h : f <$> x = .error e) : x = .error e := by
  cases x with
  | error e' =>
    cases h
    rfl
  | ok b => cases h

theorem toOption_eq_some {b : β} (h : x.toOption = some b) : x = .ok b := by
  cases x with
  | error e => cases h
  | ok b' =>
    cases h
    rfl

end bind

section loop

variable {σ : Type v} {α : Type*} {f : σ → α → Except ε σ} {ok ok' : σ → α → Prop} {as : List α}
  {s s' : σ}

/-- Every step of the loop meets `ok` in the state in which it is taken. -/
def Along (f : σ → α → Except ε σ) (ok : σ → α → Prop) : List α → σ → Prop
  | [], _ => True
  | a :: as, s => ok s a ∧ ∀ s', f s a = .ok s' → Along f ok as s'

theorem Along.of_forall (h : ∀ s, ∀ a ∈ as, ok s a) (s : σ) : Along f ok as s := by
  induction as generalizing s with
  | nil => trivial
  | cons a as ih =>
    exact ⟨h s a List.mem_cons_self, fun s' _ => ih (fun s b hb => h s b (List.mem_cons_of_mem _ hb)) s'⟩

theorem Along.mono (h : Along f ok as s) (hle : ∀ s a, ok s a → ok' s a) : Along f ok' as s := by
  induction as generalizing s with
  | nil => trivial
  | cons a as ih => exact ⟨hle s a h.1, fun s' hs' => ih (h.2 s' hs')⟩

/-- The invariant rule. -/
theorem foldlM_ok {I : σ → Prop} (hstep : ∀ s a s', I s → ok s a → f s a = .ok s' → I s')
    (halong : Along f ok as s) (hs : I s) (h : as.foldlM f s = .ok s') : I s' := by
  induction as generalizing s with
  | nil =>
    cases h
    exact hs
  | cons a as ih =>
    obtain ⟨s₁, hs₁, h⟩ := bind_ok h
    exact ih (halong.2 s₁ hs₁) (hstep s a s₁ hs halong.1 hs₁) h

/-- A loop succeeds when each of its steps does. -/
theorem foldlM_total {I : σ → Prop} (as : List α) (hstep : ∀ s a, I s → ∃ s', f s a = .ok s' ∧ I s')
    (hs : I s) : ∃ s', as.foldlM f s = .ok s' ∧ I s' := by
  induction as generalizing s with
  | nil => exact ⟨s, rfl, hs⟩
  | cons a as ih =>
    obtain ⟨s₁, hs₁, h₁⟩ := hstep s a hs
    obtain ⟨s', hs', h'⟩ := ih h₁
    refine ⟨s', ?_, h'⟩
    rw [List.foldlM_cons, hs₁]
    exact hs'

/-- A loop that fails does so in one of its steps. -/
theorem foldlM_error {e : ε} (h : as.foldlM f s = .error e) : ∃ s₁, ∃ a ∈ as, f s₁ a = .error e := by
  induction as generalizing s with
  | nil => cases h
  | cons a as ih =>
    obtain hs | ⟨s₁, -, h⟩ := bind_error h
    · exact ⟨s, a, List.mem_cons_self, hs⟩
    · obtain ⟨s₂, b, hb, hs₂⟩ := ih h
      exact ⟨s₂, b, List.mem_cons_of_mem _ hb, hs₂⟩

/-- The run that a loop over its labels makes. -/
theorem reachable_foldlM {S : Transition.System σ α} (hstep : ∀ s a s', f s a = .ok s' → S.step s a s')
    (halong : Along f ok as s) (hs : S.ReachableWhile ok s) (h : as.foldlM f s = .ok s') :
    S.ReachableWhile ok s' := by
  apply foldlM_ok (I := S.ReachableWhile ok) _ halong hs h
  rintro s₁ a s₂ ⟨as, hrun⟩ hok hs₂
  exact ⟨as ++ [a], .snoc hrun hok (hstep s₁ a s₂ hs₂)⟩

theorem run_foldlM {S : Transition.System σ α} (hstep : ∀ s a s', f s a = .ok s' → S.step s a s')
    (halong : Along f ok as s) (h : as.foldlM f s = .ok s') : (S.startAt s).Run ok as s' := by
  have hrun : ∀ bs s₁, (S.startAt s).Run ok bs s₁ → Along f ok as s₁ → as.foldlM f s₁ = .ok s' →
      (S.startAt s).Run ok (bs ++ as) s' := by
    clear halong h
    induction as with
    | nil =>
      intro bs s₁ hbs _ h
      obtain rfl : s₁ = s' := Except.ok.inj h
      rwa [List.append_nil]
    | cons a as ih =>
      intro bs s₁ hbs halong h
      obtain ⟨s₂, hs₂, h⟩ := bind_ok h
      rw [List.append_cons]
      exact ih _ s₂ (.snoc hbs halong.1 (hstep s₁ a s₂ hs₂)) (halong.2 s₂ hs₂) h
  exact hrun [] s (.start rfl) halong h

end loop

end QuietLwip.Fallible
