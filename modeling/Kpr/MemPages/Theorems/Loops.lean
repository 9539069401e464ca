import Kpr.MemPages.Session

open Machine

namespace MemPages

variable {s s' : Heap} {m : BitVec 8} {b d i j k n p r z : Nat} {done bs : List Nat}

theorem ofNat_one_shiftLeft : BitVec.ofNat 8 (1 <<< i) = BitVec.twoPow 8 i := by
  apply BitVec.eq_of_toNat_eq
  rw [BitVec.toNat_ofNat, BitVec.toNat_twoPow, Nat.one_shiftLeft]

theorem isZero_eq (hi : i < 8) : isZero m i = !m.getLsbD i := by
  have hne : BitVec.twoPow 8 i ≠ 0 := by
    intro h
    have hb := congrArg (BitVec.getLsbD · i) h
    simp [hi] at hb
  rw [isZero, ofNat_one_shiftLeft, BitVec.and_twoPow]
  cases m.getLsbD i
  case true  => simpa using hne
  case false => simp

theorem getLsbD_or_bit (hi : i < 8) :
    (m ||| .ofNat 8 (1 <<< i)).getLsbD j = (decide (j = i) || m.getLsbD j) := by
  rw [BitVec.getLsbD_or, ofNat_one_shiftLeft, BitVec.getLsbD_twoPow, decide_eq_true hi,
    Bool.true_and, Bool.or_comm]
  simp only [eq_comm]

theorem incIdx_eq (hi : i < 8) : incIdx i n = (i + n) % 8 := by
  induction n generalizing i
  case zero      => exact (Nat.mod_eq_of_lt hi).symm
  case succ n h =>
    rw [incIdx, h (Nat.mod_lt _ (by decide)), Word.add_of_lt (by omega), Nat.mod_add_mod]
    congr 1
    omega

theorem incIdx_succ (hi : i ≤ 8) : incIdx i (n + 1) = (i + (n + 1)) % 8 := by
  rw [incIdx, incIdx_eq (Nat.mod_lt _ (by decide)), Word.add_of_lt (by omega), Nat.mod_add_mod]
  congr 1
  omega

theorem decIdx_eq (hn : n ≤ i) (hi : i ≤ 8) : decIdx i n = i - n := by
  induction n generalizing i
  case zero      => rfl
  case succ n h =>
    have hmod : Word.sub i 1 % 8 = i - 1 := by
      rw [Word.sub_of_le (by omega), Nat.mod_eq_of_lt (by omega)]
    rw [decIdx, hmod, h (by omega) (by omega)]
    omega

theorem decIdx_one (hi : i < 8) : decIdx ((i + 1) % 8) 1 = i := by
  simp only [decIdx, Word.sub]
  split <;> omega

-- The elements of the heap `s'` are those of `s`, and only the `n` bits from `i` on in the bitmap of
-- `p` have been set.
structure Marked (s s' : Heap) (p i n : Nat) : Prop where
  blocks     : s'.blocks = s.blocks
  kernel     : s'.kernel = s.kernel
  extensions : s'.extensions = s.extensions
  bitmap     : ∀ b j, (s'.bitmap b).getLsbD j =
    (decide (b = p ∧ i ≤ j ∧ j < i + n) || (s.bitmap b).getLsbD j)

theorem setBit_bitmap (hi : i < 8) (b j : Nat) :
    (Function.update s.bitmap p (s.bitmap p ||| .ofNat 8 (1 <<< i)) b).getLsbD j =
      (decide (b = p ∧ j = i) || (s.bitmap b).getLsbD j) := by
  by_cases hb : b = p
  case pos =>
    rw [hb, Function.update_self, getLsbD_or_bit hi]
    simp only [true_and]
  case neg => rw [Function.update_of_ne hb, decide_eq_false (hb ·.left), Bool.false_or]

-- The loop takes its way back to the bit `i` within a bitmap. If it begins behind the last bit, the
-- index has already wrapped around.
theorem setBack_spec (hp : p ≠ NULL) (hi : i < 8) (hn : i + n ≤ 8) :
    ∃ s', setBack s p n ((i + n) % 8) = some (i, s') ∧ Marked s s' p i n := by
  induction n generalizing s
  case zero =>
    have hmod : (i + 0) % 8 = i := Nat.mod_eq_of_lt hi
    refine ⟨s, by rw [hmod, setBack], rfl, rfl, rfl, fun b j => ?_⟩
    have hj : ¬(b = p ∧ i ≤ j ∧ j < i + 0) := by omega
    rw [decide_eq_false hj, Bool.false_or]
  case succ n h =>
    have hlt : i + n < 8 := by omega
    obtain ⟨s', hs, hm⟩ := h (s := { s with
      bitmap := Function.update s.bitmap p (s.bitmap p ||| .ofNat 8 (1 <<< (i + n))) }) (by omega)
    rw [Nat.mod_eq_of_lt hlt] at hs
    refine ⟨s', ?_, hm.blocks, hm.kernel, hm.extensions, fun b j => ?_⟩
    · rw [← Nat.add_assoc, setBack, decIdx_one hlt, Heap.setBit, if_neg hp]
      exact hs
    · have hj : (b = p ∧ i ≤ j ∧ j < i + (n + 1)) ↔
          (b = p ∧ i ≤ j ∧ j < i + n) ∨ (b = p ∧ j = i + n) := by omega
      rw [hm.bitmap, setBit_bitmap hlt, decide_eq_decide.mpr hj, Bool.decide_or, Bool.or_assoc]

theorem bit_eq (hb : s.blocks[d]? = some b) (hi : i < 8) :
    s.bit (8 * d + i) = (s.bitmap b).getLsbD i := by
  have hdiv : (8 * d + i) / 8 = d := by omega
  have hmod : (8 * d + i) % 8 = i := by omega
  rw [Heap.bit, hdiv, hmod, hb, Option.any_some]

-- The bitmaps of elements which are still missing are empty.
theorem bit_behind (hk : 8 * s.blocks.length ≤ k) : s.bit k = false := by
  have hnone : s.blocks[k / 8]? = none := List.getElem?_eq_none (by omega)
  rw [Heap.bit, hnone, Option.any_none]

-- The search is a scan for the first run of clear bits in all bitmaps.

theorem searchMap_spec (hb : s.blocks[d]? = some b) (h : Scanned s.bit r (8 * d + i) z)
    (hi : i + n = 8) :
    (∃ j k, searchMap (s.bitmap b) r n i z = (true, j, r) ∧ j < 8 ∧ k + r = 8 * d + j + 1 ∧
      ∀ l, 8 * (d + 1) ≤ l → firstRun s.bit r l = some k) ∨
    ∃ z', searchMap (s.bitmap b) r n i z = (false, 8, z') ∧ Scanned s.bit r (8 * (d + 1)) z' := by
  induction n generalizing i z
  case zero =>
    obtain rfl : i = 8 := hi
    exact .inr ⟨z, rfl, h⟩
  case succ n hn =>
    have hlt : i < 8 := by omega
    have hzeros : (if isZero (s.bitmap b) i then z + 1 else 0) =
        if s.bit (8 * d + i) then 0 else z + 1 := by
      rw [isZero_eq hlt, ← bit_eq hb hlt]
      cases s.bit (8 * d + i) <;> rfl
    rw [searchMap, hzeros]
    obtain hnext | ⟨hz, hle, hfound⟩ := h.next
    case inl =>
      rw [if_neg (Nat.not_le_of_gt hnext.short)]
      exact hn hnext (by omega)
    case inr =>
      rw [hz, if_pos (Nat.le_refl r)]
      exact .inl ⟨i, _, rfl, hlt, Nat.sub_add_cancel hle, fun l hl => hfound l (by omega)⟩

theorem search_spec (hbs : s.blocks = done ++ bs) (h : Scanned s.bit r (8 * done.length) z) :
    (∃ b k, search s r bs i z = (some b, (k + r - 1) % 8, r) ∧
      s.blocks[(k + r - 1) / 8]? = some b ∧
      ∀ l, 8 * s.blocks.length ≤ l → firstRun s.bit r l = some k) ∨
    ∃ z', search s r bs i z = (none, if bs = [] then i else 8, z') ∧
      Scanned s.bit r (8 * s.blocks.length) z' := by
  induction bs generalizing done i z
  case nil =>
    rw [List.append_nil] at hbs
    exact .inr ⟨z, rfl, hbs ▸ h⟩
  case cons b bs hi =>
    have hb : s.blocks[done.length]? = some b := by simp [hbs]
    have hlen : done.length + 1 ≤ s.blocks.length := by simp [hbs]
    rw [search]
    obtain ⟨j, k, hs, hj, hk, hf⟩ | ⟨z', hs, hz⟩ := searchMap_spec (i := 0) (n := 8) hb h rfl
    case inl =>
      have hdiv : (k + r - 1) / 8 = done.length := by omega
      have hmod : (k + r - 1) % 8 = j := by omega
      refine .inl ⟨b, k, ?_, hdiv ▸ hb, fun l hl => hf l (by omega)⟩
      rw [MAP_SIZE, hs, hmod]
    case inr =>
      have hbs : s.blocks = (done ++ [b]) ++ bs := by rw [hbs, List.append_assoc]; rfl
      have h' : Scanned s.bit r (8 * (done ++ [b]).length) z' := by simpa using hz
      rw [MAP_SIZE, hs, if_neg (List.cons_ne_nil b bs)]
      simpa using hi hbs h' (i := 8)

end MemPages
