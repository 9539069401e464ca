import Mathlib.Logic.Basic

namespace Except

universe u

variable {ε : Type*} {α β : Type u} {x : Except ε α} {f : α → Except ε β} {a : α} {e : ε}
  {P Q : α → Prop}
  {R : β → Prop}

@[simp]
theorem ok_bind : (.ok a >>= f : Except ε β) = f a :=
  rfl

@[simp]
theorem error_bind : (.error e >>= f : Except ε β) = .error e :=
  rfl

@[simp]
theorem pure_eq_ok : (pure a : Except ε α) = .ok a :=
  rfl

-- If the computation returns a value, this value satisfies `P`.
def Ensures (x : Except ε α) (P : α → Prop) : Prop :=
  ∀ a, x = .ok a → P a

namespace Ensures

theorem intro (h : ∀ a, P a) : x.Ensures P :=
  fun a _ => h a

theorem mono (h : x.Ensures P) (hpq : ∀ a, P a → Q a) : x.Ensures Q :=
  fun a ha => hpq a (h a ha)

end Ensures

@[simp]
theorem ensures_ok : Ensures (.ok a : Except ε α) P ↔ P a where
  mp h := h a rfl
  mpr h := by rintro _ ⟨⟩; exact h

@[simp]
theorem ensures_pure : Ensures (pure a : Except ε α) P ↔ P a :=
  ensures_ok

@[simp]
theorem ensures_error : Ensures (.error e : Except ε α) P :=
  nofun

@[simp]
theorem ensures_true : x.Ensures fun _ => True :=
  .intro fun _ => trivial

@[simp]
theorem ensures_bind : Ensures (x >>= f) R ↔ x.Ensures fun a => (f a).Ensures R := by
  cases x
  case error e => exact iff_of_true ensures_error ensures_error
  case ok a    => exact (ensures_ok (P := fun a => (f a).Ensures R)).symm

@[simp]
theorem ensures_ite {c : Prop} [Decidable c] {y : Except ε α} :
    (if c then x else y).Ensures P ↔ (c → x.Ensures P) ∧ (¬c → y.Ensures P) := by
  split <;> simp_all

end Except
