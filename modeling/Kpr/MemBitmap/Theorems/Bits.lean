import Kpr.MemBitmap.Session
import Mathlib.Data.Nat.Bitwise

open Machine

namespace MemBitmap

variable {s : Arena} {a i j k n v w : Nat}

theorem index_inj (hi : i < 2 ^ 30) (hj : j < 2 ^ 30) {p : Nat} :
    Word.index p i = Word.index p j ↔ i = j := by
  simp only [Word.index]
  omega

theorem and_bit_ne_zero : (w &&& 1 <<< k ≠ 0) ↔ w.testBit k = true := by
  rw [Nat.one_shiftLeft, Nat.and_two_pow]
  cases w.testBit k <;> simp

theorem testBit_or_bit : (w ||| 1 <<< k).testBit j = (decide (j = k) || w.testBit j) := by
  rw [Nat.testBit_or, Nat.one_shiftLeft, Nat.testBit_two_pow, Bool.or_comm]
  simp only [eq_comm]

theorem testBit_and_not_bit (hk : k < 32) (hj : j < 32) :
    (w &&& Word.not (1 <<< k)).testBit j = (decide (j ≠ k) && w.testBit j) := by
  have hlt : 2 ^ k < 2 ^ 32 := Nat.pow_lt_pow_right (by decide) hk
  have hnot : Word.not (1 <<< k) = 2 ^ 32 - (2 ^ k + 1) := by
    rw [Word.not, Nat.one_shiftLeft, Nat.sub_sub, Nat.add_comm]
  rw [Nat.testBit_and, hnot, Nat.testBit_two_pow_sub_succ hlt, Nat.testBit_two_pow, Bool.and_comm]
  simp [hj, eq_comm]

namespace Arena

@[simp] theorem access_mem : (s.access i).mem = s.mem := rfl
@[simp] theorem access_bitmapAddr : (s.access i).bitmapAddr = s.bitmapAddr := rfl
@[simp] theorem store_bitmapAddr : (s.store i v).bitmapAddr = s.bitmapAddr := rfl

theorem access_eq (h : i < BMP_SIZE) : s.access i = s := by
  simp [access, Nat.not_le.mpr h]

theorem isSet_fst : (s.isSet k).fst = s.bit k :=
  Bool.eq_iff_iff.mpr <| (decide_eq_true_iff).trans and_bit_ne_zero

-- A word of the bitmap is only seen by the bits in it.
theorem store_bit (hi : i < 2 ^ 30) (hk : k < 2 ^ 32) :
    (s.store i v).bit k = if k / 32 = i then v.testBit (k % 32) else s.bit k := by
  have hk : k / 32 < 2 ^ 30 := by omega
  simp only [bit, store, put, access, Function.update_apply, index_inj hk hi]
  split <;> rfl

-- The bits of the bitmap are updated one by one, as if they were stored separately.
theorem setBit_bit (hk : k < 2 ^ 32) (hj : j < 2 ^ 32) :
    (s.setBit k).bit j = (decide (j = k) || s.bit j) := by
  have hk : k / 32 < 2 ^ 30 := by omega
  simp only [setBit, load, store_bit hk hj, testBit_or_bit]
  split
  case isTrue h =>
    have hjk : j % 32 = k % 32 ↔ j = k := by omega
    simp only [hjk, bit, h]
  case isFalse h =>
    have hjk : j ≠ k := fun e => h (e ▸ rfl)
    simp only [hjk, decide_false, Bool.false_or]
    rfl

theorem clearBit_bit (hk : k < 2 ^ 32) (hj : j < 2 ^ 32) :
    (s.clearBit k).bit j = (decide (j ≠ k) && s.bit j) := by
  have hk' : k / 32 < 2 ^ 30 := by omega
  have hk : k % 32 < 32 := Nat.mod_lt _ (by decide)
  have hj' : j % 32 < 32 := Nat.mod_lt _ (by decide)
  simp only [clearBit, load, store_bit hk' hj, testBit_and_not_bit hk hj']
  split
  case isTrue h =>
    have hjk : j % 32 ≠ k % 32 ↔ j ≠ k := by omega
    simp only [hjk, bit, h]
  case isFalse h =>
    have hjk : j ≠ k := fun e => h (e ▸ rfl)
    simp only [ne_eq, hjk, not_false_eq_true, decide_true, Bool.true_and]
    rfl

end Arena

-- The arena `s'` differs from `s` only in that the bits of the bitmap are those of `f`.
structure Rewritten (s s' : Arena) (f : Nat → Bool) : Prop where
  bit         : ∀ k < 2 ^ 32, s'.bit k = f k
  mem         : ∀ a, (∀ i < BMP_SIZE, a ≠ Word.index s.bitmapAddr i) → s'.mem a = s.mem a
  bitmapAddr  : s'.bitmapAddr = s.bitmapAddr
  startAddr   : s'.startAddr = s.startAddr
  kernel      : s'.kernel = s.kernel
  inits       : s'.inits = s.inits
  outOfBounds : s'.outOfBounds = s.outOfBounds

namespace Rewritten

variable {s s' s'' : Arena} {f g : Nat → Bool} {k i n v : Nat}

theorem refl : Rewritten s s s.bit where
  bit _ _     := rfl
  mem _ _     := rfl
  bitmapAddr  := rfl
  startAddr   := rfl
  kernel      := rfl
  inits       := rfl
  outOfBounds := rfl

theorem trans (h : Rewritten s s' f) (h' : Rewritten s' s'' g) : Rewritten s s'' g where
  bit         := h'.bit
  mem a ha    := (h'.mem a fun i hi => h.bitmapAddr ▸ ha i hi).trans (h.mem a ha)
  bitmapAddr  := h'.bitmapAddr.trans h.bitmapAddr
  startAddr   := h'.startAddr.trans h.startAddr
  kernel      := h'.kernel.trans h.kernel
  inits       := h'.inits.trans h.inits
  outOfBounds := h'.outOfBounds.trans h.outOfBounds

theorem congr (h : Rewritten s s' f) (hf : ∀ k < 2 ^ 32, f k = g k) : Rewritten s s' g :=
  { h with bit := fun k hk => (h.bit k hk).trans (hf k hk) }

theorem store (hi : i < BMP_SIZE) : Rewritten s (s.store i v) (s.store i v).bit where
  bit _ _     := rfl
  mem _ ha    := Function.update_of_ne (ha i hi) ..
  bitmapAddr  := rfl
  startAddr   := rfl
  kernel      := rfl
  inits       := rfl
  outOfBounds := by rw [Arena.store, Arena.access_eq hi, Arena.put]

variable (hk : k < 32 * BMP_SIZE)
include hk

theorem setBit : Rewritten s (s.setBit k) fun j => decide (j = k) || s.bit j := by
  have hi : k / 32 < BMP_SIZE := Nat.div_lt_of_lt_mul hk
  have h : Rewritten s (s.setBit k) (s.setBit k).bit := by
    simp only [Arena.setBit, Arena.load, Arena.access_eq hi]
    exact store hi
  exact h.congr fun j hj => Arena.setBit_bit (hk.trans (by decide)) hj

theorem clearBit : Rewritten s (s.clearBit k) fun j => decide (j ≠ k) && s.bit j := by
  have hi : k / 32 < BMP_SIZE := Nat.div_lt_of_lt_mul hk
  have h : Rewritten s (s.clearBit k) (s.clearBit k).bit := by
    simp only [Arena.clearBit, Arena.load, Arena.access_eq hi]
    exact store hi
  exact h.congr fun j hj => Arena.clearBit_bit (hk.trans (by decide)) hj

end Rewritten
end MemBitmap
