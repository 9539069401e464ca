import Kpr.MemBitmap.Theorems.Exclusive

open Machine

namespace MemBitmap

variable {s s' : Arena} {i n p size : Nat}

-- The bitmap of `s'` is that of `s`.
def Undone (s s' : Arena) : Prop :=
  ∀ k < 32 * BMP_SIZE, s'.bit k = s.bit k

-- Counted modulo the word size, the bits from `-i` on do not include the last bit of a block at
-- `i`.
theorem last_bit_kept (hsize : PAGE_SIZE ≤ size) (hi : i + (1 + size / PAGE_SIZE) ≤ BITS) :
    (clearForth s (size / 32 + 1) ((2 ^ 32 - i) % 2 ^ 32)).bit (i + size / PAGE_SIZE) =
      s.bit (i + size / PAGE_SIZE) := by
  simp only [PAGE_SIZE, BITS, MEM_SIZE] at *
  apply clearForth_bit
  · intro m hm
    omega
  · exact Nat.mod_lt _ (by decide)
  · omega

-- The last bit which is set by `malloc` is not cleared by `free`, regardless of where the block is.
theorem not_undone (h : s.Placed) (hn : n < 2 ^ 32 - 4) (he : malloc s n = (p, s')) (hp : p ≠ NULL)
    (ha : s'.Accepts p) : ¬Undone s (free s' p) := by
  intro hu
  rw [malloc_ready h.ne_null] at he
  have hsize := le_alignSize hn
  generalize alignSize n = size at *
  cases hf : firstRun s.bit (1 + size / PAGE_SIZE) BITS
  case none =>
    rw [allocate_none hf] at he
    exact hp (Prod.ext_iff.mp he).left.symm
  case some i =>
    have ⟨a, he', hs⟩ := allocate_allocated h hsize hf
    cases he.symm.trans he'
    have ⟨hi, hclear, _⟩ := firstRun_eq_some_iff.mp hf
    have hlt : i < BITS := lt_of_block hi
    have hk : i + size / PAGE_SIZE < BITS := by omega
    have hk : i + size / PAGE_SIZE < 32 * BMP_SIZE := hk.trans (by decide)
    have hlast : i ≤ i + size / PAGE_SIZE ∧ i + size / PAGE_SIZE < i + 1 + size / PAGE_SIZE :=
      ⟨Nat.le_add_right .., by omega⟩
    have hbefore : s.bit (i + size / PAGE_SIZE) = false := hclear _ (by omega)
    have hafter : (free s' (s.pointer i)).bit (i + size / PAGE_SIZE) = true := by
      rw [free_eq ha, h.header_pointer hlt, hs.header, hs.startAddr, ← h.header_pointer hlt,
        h.ptrDiff_pointer hlt, last_bit_kept hsize hi, hs.bit _ hk, decide_eq_true hlast,
        Bool.true_or]
    rw [hu _ hk, hbefore] at hafter
    contradiction

-- A block in an empty arena below the bitmap is freed.
theorem not_undone_zeroed :
    ∃ p s', malloc Session.zeroed.arena 4 = (p, s') ∧ ¬Undone Session.zeroed.arena (free s' p) :=
  ⟨_, _, rfl, not_undone (n := 4) (by decide) (by decide) rfl (by decide +kernel) (by decide +kernel)⟩

theorem second_bit_left : ¬∀ s n p s', s.Placed → n < 2 ^ 32 - 4 → malloc s n = (p, s') → p ≠ NULL →
    s'.Accepts p → Undone s (free s' p) := by
  intro h
  have hu := h Session.zeroed.arena 4 _ _ (by decide) (by decide) rfl (by decide +kernel)
    (by decide +kernel)
  exact absurd (hu 1 (by decide)) (by decide +kernel)

end MemBitmap
