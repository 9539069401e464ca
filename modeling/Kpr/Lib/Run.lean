import Mathlib.Logic.Basic

-- A finite run of a labelled transition relation, with the labels of its transitions in order.
inductive Run {σ ι : Type*} (step : σ → ι → σ → Prop) (s : σ) : List ι → σ → Prop
  | refl : Run step s [] s
  | snoc {cs s' c s''} : Run step s cs s' → step s' c s'' → Run step s (cs ++ [c]) s''

variable {σ ι : Type*} {step step' : σ → ι → σ → Prop} {I P : σ → Prop} {G : σ → ι → Prop}
  {s s' : σ} {cs : List ι}

namespace Run

-- What holds at first and is preserved by each transition holds after each run.
theorem invariant (h : Run step s cs s') (h₀ : P s)
    (hp : ∀ {s c s'}, P s → step s c s' → P s') : P s' := by
  induction h
  case refl          => exact h₀
  case snoc h hs hi => exact hp hi hs

theorem cons {c s₁} (hs : step s c s₁) (h : Run step s₁ cs s') : Run step s (c :: cs) s' := by
  induction h
  case refl           => exact snoc .refl hs
  case snoc hs' hi    => exact hi.snoc hs'

-- A run can be computed if the transitions can.
theorem of_foldlM {f : σ → ι → Option σ} (hf : ∀ {s c s'}, f s c = some s' → step s c s')
    (h : cs.foldlM f s = some s') : Run step s cs s' := by
  induction cs generalizing s
  case nil => exact Option.some.inj h ▸ .refl
  case cons c cs hi =>
    have ⟨s₁, h₁, h₂⟩ := Option.bind_eq_some_iff.mp h
    exact .cons (hf h₁) (hi h₂)

theorem exists_of_foldlM {f : σ → ι → Option σ} (hf : ∀ {s c s'}, f s c = some s' → step s c s')
    [DecidablePred P] (h : (cs.foldlM f s).any (P ·) = true) : ∃ s', Run step s cs s' ∧ P s' := by
  cases hs : cs.foldlM f s
  case none    => simp [hs] at h
  case some s' => exact ⟨s', .of_foldlM hf hs, by simpa [hs] using h⟩

theorem last {c} (h : Run step s (cs ++ [c]) s') : ∃ s₁, Run step s cs s₁ ∧ step s₁ c s' := by
  generalize hcs : cs ++ [c] = cs' at h
  cases h
  case refl => exact absurd hcs (by simp)
  case snoc h hs =>
    have ⟨hl, hr⟩ := List.append_inj' hcs rfl
    cases hl
    cases List.singleton_inj.mp hr
    exact ⟨_, h, hs⟩

theorem mono (h : Run step s cs s') (hm : ∀ {s c s'}, step s c s' → step' s c s') :
    Run step' s cs s' := by
  induction h
  case refl          => exact .refl
  case snoc h hs hi => exact hi.snoc (hm hs)

-- An invariant of the run is at hand when its transitions are translated.
theorem mono_of_invariant (h : Run step s cs s') (h₀ : P s)
    (hp : ∀ {s c s'}, P s → step s c s' → P s' ∧ step' s c s') : Run step' s cs s' ∧ P s' := by
  induction h
  case refl          => exact ⟨.refl, h₀⟩
  case snoc h hs hi =>
    have ⟨hp, hs⟩ := hp hi.right hs
    exact ⟨hi.left.snoc hs, hp⟩

end Run

-- The transitions which are only taken from states in which the guard holds.
structure Guarded (G : σ → ι → Prop) (step : σ → ι → σ → Prop) (s : σ) (c : ι) (s' : σ) : Prop where
  guard : G s c
  step  : step s c s'

-- The transitions which lead to a state with a given property.
structure Reaching (P : σ → Prop) (step : σ → ι → σ → Prop) (s : σ) (c : ι) (s' : σ) : Prop where
  reached : P s'
  step    : step s c s'

namespace Run

-- If a guard is exact for single transitions between states with the invariant `I`, then it is
-- exact for whole runs.
theorem guarded_iff (h₀ : I s) (h : ∀ {s c s'}, I s → step s c s' → (P s' ↔ G s c))
    (hi : ∀ {s c s'}, I s → step s c s' → P s' → I s') :
    Run (Guarded G step) s cs s' ↔ Run (Reaching P step) s cs s' where
  mp hr := (hr.mono_of_invariant h₀ fun hs ⟨hg, ht⟩ =>
    have hp := (h hs ht).mpr hg
    ⟨hi hs ht hp, hp, ht⟩).left
  mpr hr := (hr.mono_of_invariant h₀ fun hs ⟨hp, ht⟩ =>
    ⟨hi hs ht hp, (h hs ht).mp hp, ht⟩).left

end Run
