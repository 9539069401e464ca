import Kpr.Lib.Machine
import Mathlib.Data.List.Basic

open Machine

-- The `k` flags from `i` on are all clear.
def Clear (f : Nat → Bool) (i k : Nat) : Prop :=
  ∀ j < k, f (i + j) = false

variable {f : Nat → Bool} {b i j k m n z : Nat}

instance : Decidable (Clear f i k) :=
  inferInstanceAs (Decidable (∀ _ < _, _))

-- Set flags and clear flags exclude each other.
theorem Clear.apart (hc : Clear f i n) (hs : ∀ k, j ≤ k → k < m → f k = true) (hn : 0 < n)
    (hj : j < m) : Apart i (i + n) j m := by
  apply Decidable.byContradiction
  intro ha
  simp only [Apart] at ha
  cases Nat.le_total i j
  case inl hij =>
    have h := hc (j - i) (by omega)
    rw [Nat.add_sub_cancel' hij, hs j (Nat.le_refl j) hj] at h
    contradiction
  case inr hji =>
    have h := hc 0 hn
    rw [Nat.add_zero, hs i hji (by omega)] at h
    contradiction

-- The first `k` consecutive flags below `n` which are clear.
def firstRun (f : Nat → Bool) (k n : Nat) : Option Nat :=
  (List.range (n + 1 - k)).find? (Clear f · k)

theorem firstRun_eq_some_iff :
    firstRun f k n = some i ↔ i + k ≤ n ∧ Clear f i k ∧ ∀ j < i, ¬Clear f j k := by
  simp only [firstRun, List.find?_range_eq_some, decide_eq_true_eq, List.mem_range,
    Bool.not_eq_true', decide_eq_false_iff_not]
  constructor
  case mp  => exact fun ⟨hc, hi, hl⟩ => ⟨by omega, hc, hl⟩
  case mpr => exact fun ⟨hi, hc, hl⟩ => ⟨hc, by omega, hl⟩

theorem firstRun_eq_none_iff :
    firstRun f k n = none ↔ ∀ i, i + k ≤ n → ¬Clear f i k := by
  simp only [firstRun, List.find?_range_eq_none, Bool.not_eq_true', decide_eq_false_iff_not]
  constructor
  case mp  => exact fun h i hi => h i (by omega)
  case mpr => exact fun h i hi => h i (by omega)

-- A run of `k` clear flags within the first `n` ones.
def ClearWithin (f : Nat → Bool) (n i k : Nat) : Prop :=
  i + k ≤ n ∧ Clear f i k

-- There is no such run which starts at an earlier flag.
structure First (f : Nat → Bool) (n i k : Nat) : Prop where
  within : ClearWithin f n i k
  least  : ∀ j, ClearWithin f n j k → i ≤ j

theorem firstRun_first : firstRun f k n = some i ↔ First f n i k := by
  rw [firstRun_eq_some_iff]
  constructor
  case mp =>
    intro ⟨hi, hc, hl⟩
    exact ⟨⟨hi, hc⟩, fun j hj => Nat.not_lt.mp fun hji => hl j hji hj.right⟩
  case mpr =>
    intro ⟨⟨hi, hc⟩, hl⟩
    refine ⟨hi, hc, fun j hji hj => ?_⟩
    have := hl j ⟨by omega, hj⟩
    omega

-- What is known of the flags below `b` once they have been scanned in order without finding `k`
-- clear ones in a row: the last `z` of them are clear, and all runs of `k` clear flags begin with
-- these or later.
structure Scanned (f : Nat → Bool) (k b z : Nat) : Prop where
  short : z < k
  le    : z ≤ b
  clear : Clear f (b - z) z
  least : ∀ i, Clear f i k → b - z ≤ i

namespace Scanned

theorem start (hk : 0 < k) : Scanned f k 0 0 where
  short := hk
  le    := Nat.le_refl 0
  clear := nofun
  least := fun _ _ => Nat.zero_le _

-- A run cannot extend over a flag which is set.
theorem set (h : Scanned f k b z) (hf : f b = true) : Scanned f k (b + 1) 0 where
  short := Nat.zero_lt_of_lt h.short
  le    := Nat.zero_le _
  clear := nofun
  least i hi := by
    have hl := h.least i hi
    have hs := h.short
    apply Nat.succ_le_of_lt
    apply Nat.lt_of_not_le
    intro hle
    have hb : f (i + (b - i)) = false := hi (b - i) (by omega)
    rw [Nat.add_sub_cancel' hle, hf] at hb
    contradiction

theorem clear_succ (h : Scanned f k b z) (hf : f b = false) : Clear f (b + 1 - (z + 1)) (z + 1) := by
  have hle := h.le
  intro j hj
  rw [Nat.add_sub_add_right]
  cases Nat.lt_succ_iff_lt_or_eq.mp hj
  case inl hj => exact h.clear j hj
  case inr hj => rwa [hj, Nat.sub_add_cancel hle]

theorem unset (h : Scanned f k b z) (hf : f b = false) (hz : z + 1 < k) :
    Scanned f k (b + 1) (z + 1) where
  short := hz
  le    := Nat.succ_le_succ h.le
  clear := h.clear_succ hf
  least := by simpa using h.least

theorem found (h : Scanned f k b z) (hf : f b = false) (hz : k ≤ z + 1) (hb : b < n) :
    firstRun f k n = some (b + 1 - k) := by
  have hk := Nat.le_antisymm hz h.short
  have hle := h.le
  refine firstRun_eq_some_iff.mpr ⟨by omega, ?_, fun j hj hc => ?_⟩
  · exact hk ▸ h.clear_succ hf
  · have := h.least j hc
    omega

-- One more flag is scanned, where either the run is completed or the scan goes on.
theorem next (h : Scanned f k b z) :
    Scanned f k (b + 1) (if f b then 0 else z + 1) ∨
      (if f b then 0 else z + 1) = k ∧ k ≤ b + 1 ∧
        ∀ n, b < n → firstRun f k n = some (b + 1 - k) := by
  cases hf : f b
  case true  => exact .inl <| h.set hf
  case false =>
    by_cases hz : z + 1 < k
    case pos => exact .inl <| h.unset hf hz
    case neg =>
      have hk := Nat.le_antisymm (Nat.le_of_not_lt hz) h.short
      exact .inr ⟨hk.symm, hk ▸ Nat.succ_le_succ h.le, fun _ hb => h.found hf (Nat.le_of_eq hk) hb⟩

theorem exhausted (h : Scanned f k n z) : firstRun f k n = none := by
  refine firstRun_eq_none_iff.mpr fun i hi hc => ?_
  have := h.least i hc
  have := h.short
  have := h.le
  omega

-- The run is completed by flags which are all clear.
theorem followed (h : Scanned f k b z) (hf : ∀ i, b ≤ i → f i = false) (hn : b - z + k ≤ n) :
    firstRun f k n = some (b - z) := by
  refine firstRun_eq_some_iff.mpr ⟨hn, fun j hj => ?_, fun j hj hc => ?_⟩
  · by_cases hz : j < z
    case pos => exact h.clear j hz
    case neg => exact hf _ (by omega)
  · exact absurd (h.least j hc) (Nat.not_le_of_gt hj)

end Scanned
