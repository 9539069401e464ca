import Kpr.MemBitmap.Theorems.Exclusive

open Machine

namespace MemBitmap

variable {s s' : Arena} {f : Nat → Bool} {i k m n size : Nat}

-- What is found are exactly the first words which are free, whatever the bitmap contains. The
-- accesses to the bitmap are in bounds, and so is the word which holds the size.
theorem malloc_first_fit (h : s.Placed) (hn : n < 2 ^ 32 - 4) :
    let size := if n ≤ 4 then 4 else n + 4 - n % 4
    let k    := 1 + size / 4
    (∀ i, First s.bit BITS i k → ∃ s',
      malloc s n = (s.pointer i, s') ∧ Allocated s size i s' ∧ i < BITS) ∧
    ((∃ i, ClearWithin s.bit BITS i k) → ∃ i, First s.bit BITS i k) ∧
    ((¬∃ i, ClearWithin s.bit BITS i k) → malloc s n = (NULL, s)) := by
  intro size k
  have hsize : alignSize n = size := alignSize_eq hn
  have hle : PAGE_SIZE ≤ size := hsize ▸ le_alignSize hn
  rw [malloc_ready h.ne_null, hsize]
  refine ⟨fun i hi => ?_, fun ⟨i, hi⟩ => ?_, fun hi => ?_⟩
  case refine_1 =>
    have ⟨s', he, hs⟩ := allocate_allocated h hle (firstRun_first.mpr hi)
    exact ⟨s', he, hs, lt_of_block hi.within.left⟩
  case refine_2 =>
    cases hf : firstRun s.bit k BITS
    case none   => exact absurd hi.right <| firstRun_eq_none_iff.mp hf i hi.left
    case some j => exact ⟨j, firstRun_first.mp hf⟩
  case refine_3 =>
    exact allocate_none <| firstRun_eq_none_iff.mpr fun i hle hc => hi ⟨i, hle, hc⟩

-- An arena in which only the third one of the first four words is free.
def Arena.holed : Arena :=
  { Session.zeroed.arena with mem := Function.update (fun _ => 0) (2 ^ 20) 0b1011 }

-- The single word is not enough for four bytes and their size.
theorem malloc_first_fit_holed : ∃ s', malloc .holed 4 = (2 ^ 16 + 20, s') ∧
    Allocated .holed 4 4 s' ∧ 4 < BITS := by
  have hf : First Arena.holed.bit BITS 4 (1 + 4 / 4) := by
    refine ⟨⟨by decide, by decide +kernel⟩, fun j ⟨_, hj⟩ => Nat.le_of_not_lt fun hlt => ?_⟩
    have hset : ¬∃ j < 4, Clear Arena.holed.bit j 2 := by decide +kernel
    exact hset ⟨j, hlt, hj⟩
  exact (malloc_first_fit (s := .holed) (n := 4) (by decide) (by decide)).left 4 hf

end MemBitmap
