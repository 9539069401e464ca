import Mathlib.Algebra.Group.Int.Defs
import Mathlib.Algebra.Group.Nat.Defs
import Mathlib.Logic.Function.Basic

namespace Machine

-- Addresses are byte addresses below `2 ^ 32`. The memory is seen as words: the value at `a` is the
-- word stored at `a`.
-- Only word-aligned addresses are used, so the words at different addresses are disjoint.
abbrev Memory := Nat → Nat

def NULL : Nat := 0

namespace Word

-- Unsigned arithmetic on 32-bit words wraps around.
def add (a b : Nat) : Nat := (a + b) % 2 ^ 32

def sub (a b : Nat) : Nat := if b ≤ a then a - b else a + 2 ^ 32 - b

def not (a : Nat) : Nat := 2 ^ 32 - 1 - a

-- The address of `p[i]`, where `p` points to words.
def index (p i : Nat) : Nat := (p + 4 * i) % 2 ^ 32

-- The difference of two pointers to words. It is signed, and then converted to `unsigned`.
def ptrDiff (p q : Nat) : Nat :=
  (((p : Int) - q).bmod (2 ^ 32) / 4 % 2 ^ 32).toNat

theorem add_of_lt (h : a + b < 2 ^ 32) : add a b = a + b :=
  Nat.mod_eq_of_lt h

theorem sub_of_le (h : b ≤ a) : sub a b = a - b :=
  if_pos h

theorem sub_add_cancel (ha : a < 2 ^ 32) (hb : b < 2 ^ 32) : sub (add a b) b = a := by
  rw [sub]
  split <;> simp only [add] at * <;> omega

end Word

-- The half-open address ranges `[a, b)` and `[c, d)` have no address in common.
def Apart (a b c d : Nat) : Prop :=
  b ≤ c ∨ d ≤ a

instance : Decidable (Apart a b c d) :=
  inferInstanceAs (Decidable (_ ∨ _))

theorem Apart.symm (h : Apart a b c d) : Apart c d a b :=
  Or.symm h

end Machine
