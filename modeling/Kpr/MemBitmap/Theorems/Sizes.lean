import Kpr.MemBitmap.Theorems.Exclusive

open Machine

namespace MemBitmap

variable {s s' : Arena} {i k n p : Nat}

-- The block at `p` is large enough for `n` bytes, and these are in words which have been marked.
structure Suits (s : Arena) (n p : Nat) (s' : Arena) : Prop where
  size   : n ≤ s'.mem (Arena.header p)
  region : s.startAddr ≤ p ∧ p + n ≤ s.startAddr + MEM_SIZE
  marked : ∀ a, p ≤ a → a < p + n → s.bit ((a - s.startAddr) / PAGE_SIZE) = false ∧
    s'.bit ((a - s.startAddr) / PAGE_SIZE) = true

-- What is expected of a request for `n` bytes.
def Met (s : Arena) (n : Nat) : Prop :=
  let (p, s') := malloc s n
  (p ≠ NULL → Suits s n p s') ∧ (MEM_SIZE < n → p = NULL)

-- No word is free, unless there are no addresses behind it.
def Arena.Full (s : Arena) : Prop :=
  ∀ k < BITS, s.bit k = false → s.pointer k = 2 ^ 32

theorem Suits.le (h : Suits s n p s') : n ≤ MEM_SIZE := by
  have ⟨hle, hp⟩ := h.region
  omega

theorem le_alignSize_self (h : n < 2 ^ 32 - 4) : n ≤ alignSize n := by
  rw [alignSize_eq h]
  split <;> simp only [PAGE_SIZE] at * <;> omega

theorem Allocated.suits (h : Allocated s (alignSize n) i s') (ha : s.Placed) (hn : n < 2 ^ 32 - 4)
    (hf : firstRun s.bit (1 + alignSize n / PAGE_SIZE) BITS = some i) :
    Suits s n (s.pointer i) s' := by
  have ⟨hi, hc, _⟩ := firstRun_eq_some_iff.mp hf
  have hle := le_alignSize_self hn
  have hmod : alignSize n % PAGE_SIZE = 0 := alignSize_mod
  have hmul : PAGE_SIZE * (alignSize n / PAGE_SIZE) = alignSize n :=
    Nat.mul_div_cancel' (Nat.dvd_of_mod_eq_zero hmod)
  constructor
  case size =>
    rw [ha.header_pointer (lt_of_block hi), h.header]
    exact hle
  case region =>
    simp only [Arena.pointer, BITS, MEM_SIZE, PAGE_SIZE] at *
    omega
  case marked =>
    intro a ha₁ ha₂
    have hk : i ≤ (a - s.startAddr) / PAGE_SIZE ∧
        (a - s.startAddr) / PAGE_SIZE < i + 1 + alignSize n / PAGE_SIZE := by
      simp only [Arena.pointer, PAGE_SIZE] at *
      omega
    generalize (a - s.startAddr) / PAGE_SIZE = k at hk
    have hlt : k < 32 * BMP_SIZE := by
      simp only [BMP_SIZE, BITS, MEM_SIZE, PAGE_SIZE] at *
      omega
    have hclear := hc (k - i) (by omega)
    rw [Nat.add_sub_cancel' hk.left] at hclear
    exact ⟨hclear, by rw [h.bit k hlt, decide_eq_true hk, Bool.true_or]⟩

theorem met_of_lt (h : s.Placed) (hn : n < 2 ^ 32 - 4) : Met s n := by
  have hle := le_alignSize hn
  rw [Met, malloc_ready h.ne_null]
  cases hf : firstRun s.bit (1 + alignSize n / PAGE_SIZE) BITS
  case none =>
    rw [allocate_none hf]
    exact ⟨absurd rfl, fun _ => rfl⟩
  case some i =>
    have ⟨s', he, hs⟩ := allocate_allocated h hle hf
    have hsuits := hs.suits h hn hf
    rw [he]
    exact ⟨fun _ => hsuits, fun hlt => absurd hsuits.le (Nat.not_le.mpr hlt)⟩

-- The largest sizes are rounded up to zero.
theorem alignSize_zero (hn : 2 ^ 32 - 4 ≤ n) (hlt : n < 2 ^ 32) : alignSize n = 0 := by
  have hgt : ¬n ≤ PAGE_SIZE := by
    rw [PAGE_SIZE]
    omega
  rw [alignSize, if_neg hgt]
  simp only [Word.add, PAGE_SIZE]
  omega

-- The bits for a block of size zero are a single one.
theorem allocate_zero (h : s.Placed) : (allocate s 0).fst = NULL ↔ s.Full := by
  cases hf : firstRun s.bit (1 + 0 / PAGE_SIZE) BITS
  case none =>
    rw [allocate_none hf]
    refine iff_of_true rfl fun k hk hb => ?_
    refine absurd (fun j hj => ?_) <| firstRun_eq_none_iff.mp hf k hk
    cases Nat.lt_one_iff.mp hj
    exact hb
  case some i =>
    have ⟨t, _, he⟩ := allocate_some hf
    have ⟨hi, hc, hl⟩ := firstRun_eq_some_iff.mp hf
    have hi : i < BITS := hi
    have hr := h.region
    rw [he, h.index_startAddr hi]
    have hp : Word.index (s.startAddr + PAGE_SIZE * i) 1 = NULL ↔ s.pointer i = 2 ^ 32 := by
      simp only [Word.index, Arena.pointer, NULL, BITS, MEM_SIZE, PAGE_SIZE] at *
      omega
    refine hp.trans ⟨fun hp k hk hb => ?_, fun hfull => hfull i hi (hc 0 Nat.one_pos)⟩
    have hik : i ≤ k := Nat.not_lt.mp fun hki => hl k hki fun j hj => by
      cases Nat.lt_one_iff.mp hj
      exact hb
    simp only [Arena.pointer, BITS, MEM_SIZE, PAGE_SIZE] at *
    omega

-- Requests are met unless they are for one of the four largest sizes and there is a free word.
theorem met_iff (h : s.Placed) (hn : n < 2 ^ 32) : Met s n ↔ n < 2 ^ 32 - 4 ∨ s.Full := by
  by_cases hlt : n < 2 ^ 32 - 4
  case pos => exact iff_of_true (met_of_lt h hlt) (.inl hlt)
  case neg =>
    have hz := alignSize_zero (Nat.not_lt.mp hlt) hn
    have hlarge : MEM_SIZE < n := by
      rw [MEM_SIZE]
      omega
    rw [Met, malloc_ready h.ne_null, hz, ← allocate_zero h]
    constructor
    case mp  => exact fun hm => .inr <| hm.right hlarge
    case mpr =>
      intro hp
      have hp := hp.resolve_left hlt
      exact ⟨absurd hp, fun _ => hp⟩

-- The smallest and the largest request of an empty arena.
theorem met_iff_zeroed : (Met Session.zeroed.arena 0 ↔ 0 < 2 ^ 32 - 4 ∨ Session.zeroed.arena.Full) ∧
    (Met Session.zeroed.arena (2 ^ 32 - 1) ↔
      2 ^ 32 - 1 < 2 ^ 32 - 4 ∨ Session.zeroed.arena.Full) :=
  ⟨met_iff (by decide) (by decide), met_iff (by decide) (by decide)⟩

-- All addresses are requested, and a single word is given.
theorem large_request_not_met : ¬∀ s n, s.Placed → n < 2 ^ 32 → Met s n := by
  intro h
  have hm := h Session.zeroed.arena (2 ^ 32 - 1) (by decide) (by decide)
  have hp : (malloc Session.zeroed.arena (2 ^ 32 - 1)).fst = 2 ^ 16 + 4 := by decide +kernel
  exact absurd (hp.symm.trans <| hm.right (by decide)) (by decide)

end MemBitmap
