import Kpr.MemBitmap.Theorems.Loops

open Machine

namespace MemBitmap

variable {s s' : Arena} {a f i k n p size : Nat}

namespace Arena

-- The pointer to the block whose size is stored in the `i`-th word of the region.
def pointer (s : Arena) (i : Nat) : Nat :=
  s.startAddr + PAGE_SIZE * (i + 1)

theorem Placed.congr {s' : Arena} (h : s.Placed) (hs : s'.startAddr = s.startAddr)
    (hb : s'.bitmapAddr = s.bitmapAddr) : s'.Placed := by
  obtain ⟨h₁, h₂, h₃, h₄⟩ := h
  constructor <;> simpa only [hs, hb]

theorem pointer_congr {s' : Arena} (hs : s'.startAddr = s.startAddr) :
    s'.pointer i = s.pointer i := by
  rw [pointer, hs, pointer]

theorem first_congr {s' : Arena} {p : Nat} (hs : s'.startAddr = s.startAddr) :
    s'.first p = s.first p := by
  rw [first, hs, first]

-- The size of a block is only seen in its header.
theorem fin_congr {s' : Arena} {p : Nat} (hs : s'.startAddr = s.startAddr)
    (hm : s'.mem (header p) = s.mem (header p)) : s'.fin p = s.fin p := by
  rw [fin, first_congr hs, hm, fin]

namespace Placed

variable (h : s.Placed)
include h

theorem index_startAddr (hi : i < BITS) :
    Word.index s.startAddr i = s.startAddr + PAGE_SIZE * i := by
  have := h.region
  simp only [Word.index, BITS, MEM_SIZE, PAGE_SIZE] at *
  omega

theorem index_bitmapAddr (hi : i < BMP_SIZE) :
    Word.index s.bitmapAddr i = s.bitmapAddr + 4 * i := by
  have := h.bitmap
  simp only [Word.index, BMP_SIZE, BITS, MEM_SIZE, PAGE_SIZE] at *
  omega

-- The words of the region are not those of the bitmap.
theorem index_ne (hi : i < BITS) (hk : k < BMP_SIZE) :
    Word.index s.startAddr i ≠ Word.index s.bitmapAddr k := by
  rw [h.index_startAddr hi, h.index_bitmapAddr hk]
  have := h.apart
  simp only [Apart, BMP_SIZE, BITS, MEM_SIZE, PAGE_SIZE] at *
  omega

theorem pointer_ne_null : s.pointer i ≠ NULL := by
  have := h.ne_null
  simp only [pointer, NULL] at *
  omega

theorem header_pointer (hi : i < BITS) : header (s.pointer i) = Word.index s.startAddr i := by
  rw [h.index_startAddr hi, header, pointer, Nat.mul_succ, ← Nat.add_assoc]
  exact Word.sub_of_le (Nat.le_add_left ..)

theorem first_pointer (hi : i < BITS) : s.first (s.pointer i) = i := by
  rw [first, h.header_pointer hi, h.index_startAddr hi, Word.sub_of_le (Nat.le_add_right ..),
    Nat.add_sub_cancel_left, Nat.mul_div_cancel_left _ (by decide)]

theorem index_pointer (hi : i + 1 < BITS) :
    Word.index (Word.index s.startAddr i) 1 = s.pointer i := by
  have := h.region
  rw [h.index_startAddr (Nat.lt_of_succ_lt hi)]
  simp only [Word.index, pointer, BITS, MEM_SIZE, PAGE_SIZE] at *
  omega

-- The difference is taken the wrong way around.
theorem ptrDiff_pointer (hi : i < BITS) :
    Word.ptrDiff s.startAddr (header (s.pointer i)) = (2 ^ 32 - i) % 2 ^ 32 := by
  have := h.region
  rw [h.header_pointer hi, h.index_startAddr hi]
  simp only [Word.ptrDiff, Int.bmod_def, BITS, MEM_SIZE, PAGE_SIZE] at *
  omega

end Placed
end Arena

-- The arena `s'` results from `s` when `size` bytes are allocated behind the `i`-th word of the
-- region.
structure Allocated (s : Arena) (size i : Nat) (s' : Arena) : Prop where
  bit         : ∀ k < 32 * BMP_SIZE,
    s'.bit k = (decide (i ≤ k ∧ k < i + 1 + size / PAGE_SIZE) || s.bit k)
  header      : s'.mem (Word.index s.startAddr i) = size
  mem         : ∀ a, a ≠ Word.index s.startAddr i →
    (∀ k < BMP_SIZE, a ≠ Word.index s.bitmapAddr k) → s'.mem a = s.mem a
  bitmapAddr  : s'.bitmapAddr = s.bitmapAddr
  startAddr   : s'.startAddr = s.startAddr
  kernel      : s'.kernel = s.kernel
  inits       : s'.inits = s.inits
  outOfBounds : s'.outOfBounds = s.outOfBounds

-- Words of the region can be written without an effect on the bitmap.
theorem put_bit {t : Arena} {v : Nat} (h : s.Placed) (hb : t.bitmapAddr = s.bitmapAddr)
    (hi : i < BITS) (hk : k < 32 * BMP_SIZE) :
    (t.put (Word.index s.startAddr i) v).bit k = t.bit k := by
  have hk : k / 32 < BMP_SIZE := Nat.div_lt_of_lt_mul hk
  have hne : Word.index t.bitmapAddr (k / 32) ≠ Word.index s.startAddr i :=
    hb ▸ (h.index_ne hi hk).symm
  exact congrArg (Nat.testBit · (k % 32)) <| Function.update_of_ne hne ..

theorem allocate_none (hf : firstRun s.bit (1 + size / PAGE_SIZE) BITS = none) :
    allocate s size = (NULL, s) := by
  have hk : 0 < 1 + size / PAGE_SIZE := Nat.add_pos_left Nat.one_pos _
  have hn : 0 + BITS ≤ 32 * BMP_SIZE := by decide
  have hs := search_eq (.start hk) hn (s := s)
  rw [Nat.zero_add, hf] at hs
  rw [allocate, hs]
  rfl

-- A block has at least one word.
theorem lt_of_block (h : i + (1 + n) ≤ k) : i < k :=
  Nat.lt_of_lt_of_le (Nat.lt_add_of_pos_right <| Nat.add_pos_left Nat.one_pos n) h

-- The first words which are free and large enough for the block and its size are taken.
theorem allocate_some (hf : firstRun s.bit (1 + size / PAGE_SIZE) BITS = some i) :
    ∃ t, Rewritten s t (fun k => decide (i ≤ k ∧ k < i + 1 + size / PAGE_SIZE) || s.bit k) ∧
      allocate s size =
        (Word.index (Word.index s.startAddr i) 1, t.put (Word.index s.startAddr i) size) := by
  have hk : 0 < 1 + size / PAGE_SIZE := Nat.add_pos_left Nat.one_pos _
  have hn : 0 + BITS ≤ 32 * BMP_SIZE := by decide
  have hs := search_eq (.start hk) hn (s := s)
  rw [Nat.zero_add, hf, Option.map_some] at hs
  have hi := (firstRun_eq_some_iff.mp hf).left
  rw [allocate]
  simp only [hs]
  generalize size / PAGE_SIZE = n at *
  have hb : i + (1 + n) - 1 < 32 * BMP_SIZE := by
    simp only [BMP_SIZE, BITS, MEM_SIZE, PAGE_SIZE] at *
    omega
  have ⟨hadd, hset⟩ := setBack_spec (s := s) (z := 1 + n) (b := i + (1 + n) - 1) (by omega) hb
  have hfirst : i + (1 + n) - 1 + 1 - (1 + n) = i := by omega
  rw [hfirst] at hadd hset
  have hput {t a v} : (Arena.put t a v).startAddr = t.startAddr := rfl
  refine ⟨_, hset.congr fun k _ => ?_, ?_⟩
  · have hik : (i ≤ k ∧ k ≤ i + (1 + n) - 1) ↔ (i ≤ k ∧ k < i + 1 + n) := by omega
    rw [decide_eq_decide.mpr hik]
  · simp only [hadd, hput, hset.startAddr]

-- The region stays where it is.
theorem allocate_placed : (allocate s size).snd.Placed ↔ s.Placed := by
  cases hf : firstRun s.bit (1 + size / PAGE_SIZE) BITS
  case none   => rw [allocate_none hf]
  case some i =>
    have ⟨t, ht, he⟩ := allocate_some hf
    rw [he]
    constructor
    case mp  => exact fun h => h.congr ht.startAddr.symm ht.bitmapAddr.symm
    case mpr => exact fun h => h.congr ht.startAddr ht.bitmapAddr

theorem allocate_allocated (h : s.Placed) (hsize : PAGE_SIZE ≤ size)
    (hf : firstRun s.bit (1 + size / PAGE_SIZE) BITS = some i) :
    ∃ s', allocate s size = (s.pointer i, s') ∧ Allocated s size i s' := by
  have ⟨t, ht, he⟩ := allocate_some hf
  have hi := (firstRun_eq_some_iff.mp hf).left
  have hn : 1 ≤ size / PAGE_SIZE := (Nat.one_le_div_iff (by decide)).mpr hsize
  rw [h.index_pointer (by omega)] at he
  refine ⟨_, he, ?_⟩
  constructor
  case bit =>
    intro k hk
    rw [put_bit h ht.bitmapAddr (by omega) hk, ht.bit k (hk.trans (by decide))]
  case header      => exact Function.update_self ..
  case mem         => exact fun a ha hb => (Function.update_of_ne ha ..).trans (ht.mem a hb)
  case bitmapAddr  => exact ht.bitmapAddr
  case startAddr   => exact ht.startAddr
  case kernel      => exact ht.kernel
  case inits       => exact ht.inits
  case outOfBounds => exact ht.outOfBounds

-- Unless it wraps around, the rounded size holds at least one word.
theorem alignSize_eq (h : size < 2 ^ 32 - 4) :
    alignSize size = if size ≤ PAGE_SIZE then PAGE_SIZE else size + PAGE_SIZE - size % PAGE_SIZE := by
  rw [alignSize]
  split
  case isTrue  => rfl
  case isFalse =>
    simp only [Word.add, PAGE_SIZE]
    omega

theorem le_alignSize (h : size < 2 ^ 32 - 4) : PAGE_SIZE ≤ alignSize size := by
  rw [alignSize_eq h]
  split <;> simp only [PAGE_SIZE] at * <;> omega

-- The assertion of `malloc`.
theorem alignSize_mod : alignSize size % PAGE_SIZE = 0 := by
  rw [alignSize]
  split
  case isTrue  => rfl
  case isFalse =>
    simp only [Word.add, PAGE_SIZE]
    omega

theorem allocMem_snd : (allocMem s).snd =
    { s with inits := s.inits + 1, startAddr := (allocMem s).snd.startAddr } := by
  simp only [allocMem]
  split
  · rfl
  split
  · rfl
  split <;> rfl

theorem allocMem_failed (h : (allocMem s).fst = NULL) : (allocMem s).snd.startAddr = s.startAddr := by
  simp only [allocMem] at *
  split at h
  · simp only [if_true, *]
  split at h
  · simp [*]
  split at h
  · simp [*]
  · contradiction

-- Nothing is in use behind a call of `init`, whether it succeeds or not.
structure Initialised (s s' : Arena) : Prop where
  bit         : ∀ k < 32 * BMP_SIZE, s'.bit k = false
  outOfBounds : s'.outOfBounds = s.outOfBounds

theorem initBitmap_all : Rewritten s (initBitmap s BMP_SIZE 0)
    fun k => decide (k / 32 < 0 ∨ 0 + BMP_SIZE ≤ k / 32) && s.bit k :=
  initBitmap_rewritten (Nat.le_of_eq (Nat.zero_add _))

theorem allocMem_initialised {t : Arena} (h : Rewritten s t
    fun k => decide (k / 32 < 0 ∨ 0 + BMP_SIZE ≤ k / 32) && s.bit k) :
    Initialised s (allocMem t).snd := by
  constructor
  case outOfBounds => rw [allocMem_snd, h.outOfBounds]
  case bit =>
    intro k hk
    have hk' : ¬(k / 32 < 0 ∨ 0 + BMP_SIZE ≤ k / 32) := by omega
    have hbit : (allocMem t).snd.bit k = t.bit k := by
      rw [allocMem_snd]
      rfl
    rw [hbit, h.bit k (hk.trans (by decide)), decide_eq_false hk', Bool.false_and]

theorem init_initialised : Initialised s (init s).snd := by
  rw [init]
  exact allocMem_initialised initBitmap_all

theorem init_failed (h : (init s).fst = NULL) : (init s).snd.startAddr = s.startAddr := by
  have hb := initBitmap_all (s := s)
  rw [init] at *
  generalize initBitmap s BMP_SIZE 0 = t at *
  exact (allocMem_failed h).trans hb.startAddr

theorem malloc_ready (h : s.startAddr ≠ NULL) : malloc s size = allocate s (alignSize size) := by
  rw [malloc, if_neg h]
  exact if_neg (by decide : 1 ≠ NULL)

-- If there is a region afterwards, then it has been obtained just before the allocation.
theorem malloc_init (h : s.startAddr = NULL) (hs : (malloc s size).snd.startAddr ≠ NULL) :
    malloc s size = allocate (init s).snd (alignSize size) := by
  have hf := init_failed (s := s)
  rw [malloc, if_pos h] at *
  generalize init s = x at *
  by_cases hx : x.fst = NULL
  case neg => simp only [if_neg hx]
  case pos =>
    simp only [if_pos hx] at hs
    exact absurd ((hf hx).trans h) hs

-- What a call which passes the address test does to the bitmap.
theorem free_eq (h : s.Accepts p) : free s p =
    clearForth s (s.mem (Arena.header p) / 32 + 1) (Word.ptrDiff s.startAddr (Arena.header p)) := by
  simp only [free, if_pos h, Arena.header]

theorem free_rejected (h : ¬s.Accepts p) : free s p = s := by
  rw [free, if_neg h]

end MemBitmap
