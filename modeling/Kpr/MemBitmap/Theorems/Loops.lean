import Kpr.MemBitmap.Theorems.Bits

open Machine

namespace MemBitmap

variable {s : Arena} {b i j k n z : Nat}

-- The search is a scan for the first run of clear bits.
theorem search_eq (h : Scanned s.bit k b z) (hn : b + n ≤ 32 * BMP_SIZE) :
    search s k n b z = ((firstRun s.bit k (b + n)).map fun i => (i + k - 1, k), s) := by
  induction n generalizing b z
  case zero => rw [search, Nat.add_zero, h.exhausted, Option.map_none]
  case succ n hi =>
    have hb : b < 32 * BMP_SIZE := by omega
    have hset : s.isSet b = (s.bit b, s) :=
      Prod.ext Arena.isSet_fst <| Arena.access_eq <| Nat.div_lt_of_lt_mul hb
    have hadd : b + (n + 1) = b + 1 + n := by omega
    rw [search, hset]
    simp only
    obtain hnext | ⟨hz, hle, hfound⟩ := h.next
    case inl =>
      rw [if_neg (Nat.not_le_of_gt hnext.short), hadd]
      exact hi hnext (hadd ▸ hn)
    case inr =>
      have hbit : b + 1 - k + k - 1 = b := by omega
      rw [hz, if_pos (Nat.le_refl k), hfound _ (Nat.lt_add_of_pos_right n.succ_pos), Option.map_some,
        hbit]

-- Going backwards from the bit `b`, the loop ends right in front of the `z` bits which it has set.
-- If it has set the very first bit, too, then it ends at the largest word.
theorem setBack_spec (hz : z ≤ b + 1) (hb : b < 32 * BMP_SIZE) :
    Word.add (setBack s z b).fst 1 = b + 1 - z ∧
    Rewritten s (setBack s z b).snd fun j => decide (b + 1 - z ≤ j ∧ j ≤ b) || s.bit j := by
  induction z generalizing s b
  case zero =>
    have hlt : b + 1 < 2 ^ 32 := Nat.succ_lt_succ hb |>.trans (by decide)
    refine ⟨Word.add_of_lt hlt, Rewritten.refl.congr fun j _ => ?_⟩
    have hj : ¬(b + 1 - 0 ≤ j ∧ j ≤ b) := by omega
    rw [decide_eq_false hj, Bool.false_or]
  case succ z hi =>
    have hset := Rewritten.setBit (s := s) hb
    rw [setBack]
    cases b
    case zero =>
      have hz : z = 0 := by omega
      have hadd : Word.add (Word.sub 0 1) 1 = 0 := by decide
      rw [hz, setBack]
      refine ⟨hadd, hset.congr fun j _ => ?_⟩
      simp
    case succ b =>
      have hsub : Word.sub (b + 1) 1 = b := Word.sub_of_le (Nat.le_add_left ..)
      have hb' := Nat.lt_of_succ_lt hb
      have ⟨hadd, hback⟩ := hi (s := s.setBit (b + 1)) (Nat.le_of_succ_le_succ hz) hb'
      rw [hsub, Nat.add_sub_add_right]
      refine ⟨hadd, (hset.trans hback).congr fun j hj => ?_⟩
      have hj : (b + 1 - z ≤ j ∧ j ≤ b + 1) ↔ (b + 1 - z ≤ j ∧ j ≤ b) ∨ j = b + 1 := by omega
      rw [hset.bit j ‹_›, decide_eq_decide.mpr hj, Bool.decide_or, Bool.or_assoc]

-- Bits at which the loop does not arrive are not cleared.
theorem clearForth_bit (h : ∀ m < n, (b + m) % 2 ^ 32 ≠ j) (hb : b < 2 ^ 32) (hj : j < 2 ^ 32) :
    (clearForth s n b).bit j = s.bit j := by
  induction n generalizing s b
  case zero => rfl
  case succ n hi =>
    have h₀ := h 0 n.succ_pos
    rw [Nat.add_zero, Nat.mod_eq_of_lt hb] at h₀
    have hnext : ∀ m < n, (Word.add b 1 + m) % 2 ^ 32 ≠ j := by
      intro m hm
      have hm := h (m + 1) (Nat.succ_lt_succ hm)
      rw [Word.add, Nat.mod_add_mod]
      rwa [Nat.add_right_comm, Nat.add_assoc]
    rw [clearForth, hi hnext (Nat.mod_lt _ (by decide)), Arena.clearBit_bit hb hj,
      decide_eq_true h₀.symm, Bool.true_and]

theorem clearForth_rewritten (h : b + n ≤ 32 * BMP_SIZE) :
    Rewritten s (clearForth s n b) fun j => decide (j < b ∨ b + n ≤ j) && s.bit j := by
  induction n generalizing s b
  case zero =>
    refine Rewritten.refl.congr fun j _ => ?_
    have hj : j < b ∨ b + 0 ≤ j := by omega
    rw [decide_eq_true hj, Bool.true_and]
  case succ n hi =>
    have hb : b < 32 * BMP_SIZE := by omega
    have hadd : b + (n + 1) = b + 1 + n := by omega
    have hnext : Word.add b 1 = b + 1 :=
      Word.add_of_lt <| (Nat.succ_lt_succ hb).trans (by decide)
    have hclear := Rewritten.clearBit (s := s) hb
    have hforth := hi (s := s.clearBit b) (hadd ▸ h)
    rw [clearForth, hnext]
    refine (hclear.trans hforth).congr fun j hj => ?_
    have hj : (j < b ∨ b + (n + 1) ≤ j) ↔ (j < b + 1 ∨ b + 1 + n ≤ j) ∧ j ≠ b := by omega
    rw [hclear.bit j ‹_›, decide_eq_decide.mpr hj, Bool.decide_and, Bool.and_assoc]

-- An access beyond the end of the bitmap is not forgotten.
theorem clearForth_outOfBounds (h : s.outOfBounds = true) :
    (clearForth s n b).outOfBounds = true := by
  induction n generalizing s b
  case zero      => exact h
  case succ n hi =>
    apply hi
    simp [Arena.clearBit, Arena.load, Arena.store, Arena.access, Arena.put, h]

theorem clearBit_outOfBounds (h : BMP_SIZE ≤ k / 32) : (s.clearBit k).outOfBounds = true := by
  simp [Arena.clearBit, Arena.load, Arena.store, Arena.access, Arena.put, h]

theorem initBitmap_rewritten (h : i + n ≤ BMP_SIZE) :
    Rewritten s (initBitmap s n i) fun j => decide (j / 32 < i ∨ i + n ≤ j / 32) && s.bit j := by
  induction n generalizing s i
  case zero =>
    refine Rewritten.refl.congr fun j _ => ?_
    have hj : j / 32 < i ∨ i + 0 ≤ j / 32 := by omega
    rw [decide_eq_true hj, Bool.true_and]
  case succ n hi =>
    have hlt : i < BMP_SIZE := by omega
    have hadd : i + (n + 1) = i + 1 + n := by omega
    have hstore : Rewritten s (s.store i 0) _ := .store hlt
    have hinit := hi (s := s.store i 0) (hadd ▸ h)
    rw [initBitmap]
    refine (hstore.trans hinit).congr fun j hj => ?_
    rw [Arena.store_bit (hlt.trans (by decide)) hj]
    by_cases hji : j / 32 = i
    case pos =>
      have hj : ¬(j / 32 < i ∨ i + (n + 1) ≤ j / 32) := by omega
      rw [if_pos hji, Nat.zero_testBit, Bool.and_false, decide_eq_false hj, Bool.false_and]
    case neg =>
      have hj : (j / 32 < i ∨ i + (n + 1) ≤ j / 32) ↔ (j / 32 < i + 1 ∨ i + 1 + n ≤ j / 32) := by
        omega
      rw [if_neg hji, decide_eq_decide.mpr hj]

-- Memory which is zero anyway stays as it is.
theorem initBitmap_zero (h : ∀ a, s.mem a = 0) (hn : i + n ≤ BMP_SIZE) :
    initBitmap s n i = s := by
  induction n generalizing i
  case zero      => rfl
  case succ n hi =>
    have hlt : i < BMP_SIZE := by omega
    have hstore : s.store i 0 = s := by
      rw [Arena.store, Arena.access_eq hlt, Arena.put, ← h (Word.index s.bitmapAddr i),
        Function.update_eq_self]
    rw [initBitmap, hstore, hi (by omega)]

end MemBitmap
