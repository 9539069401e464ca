import Kpr.MemPages.Theorems.Loops

open Machine

namespace MemPages

variable {s s' s₁ : Heap} {x : Nat × Heap} {b i k n p r z size : Nat}

theorem requiredPages_spec (h : size < 6 * PAGE_SIZE) : ∃ n, requiredPages size = n + 2 ∧
    0 < n ∧ n ≤ 6 ∧ size ≤ PAGE_SIZE * n ∧ PAGE_SIZE * (n - 1) ≤ size := by
  refine ⟨alignSize size / PAGE_SIZE, Nat.add_comm .., ?_⟩
  by_cases hp : size ≤ PAGE_SIZE
  case pos =>
    rw [alignSize, if_pos hp]
    simp only [PAGE_SIZE] at *
    omega
  case neg =>
    rw [alignSize, if_neg hp]
    simp only [PAGE_SIZE] at *
    rw [Word.add_of_lt (by omega)]
    omega

-- The element `b` is new, and all of its bits are clear.
structure Extended (s s' : Heap) (b : Nat) : Prop where
  blocks : s'.blocks = s.blocks ++ [b]
  bitmap : s'.bitmap = Function.update s.bitmap b 0

theorem extendMem_spec (h : (extendMem s).fst ≠ NULL) :
    Extended s (extendMem s).snd (extendMem s).fst := by
  by_cases hn : (s.kernel s.extensions).result = NULL
  case pos => simp [extendMem, hn] at h
  case neg =>
    rw [extendMem, if_neg hn]
    exact ⟨rfl, rfl⟩

-- One round is enough for a run which is not longer than a bitmap.
theorem extend_eq (h : 0 < r) (hr : r ≤ 8) : extend r s r z = some (extendMem s) := by
  obtain ⟨n, rfl⟩ := Nat.exists_eq_add_of_le' h
  simp only [extend]
  rw [if_neg (by omega)]

theorem ne_null_of_setBack (h : setBack s p n i = some x) (hn : 0 < n) : p ≠ NULL := by
  obtain ⟨n, rfl⟩ := Nat.exists_eq_add_of_le' hn
  rintro rfl
  simp [setBack, Heap.setBit] at h

-- The index behind both helpers is the one of the last bit of the run, as if they had started behind
-- the last bit of all bitmaps.
theorem idx_eq {idx : Nat} (hi : idx % 8 = b % 8) (h8 : idx ≤ 8) (hz : z ≤ idx) (hb : z ≤ b) :
    incIdx (decIdx idx z) (n + 1) = (b - z + (n + 1)) % 8 := by
  rw [decIdx_eq hz h8, incIdx_succ (by omega)]
  omega

-- The pages are put in the block of the last bit of the first run, whether it has to be obtained or
-- not.
theorem malloc_spec (hs : size < 6 * PAGE_SIZE) (h : malloc s size = some (p, s')) :
    ∃ k s₁ b idx, s.firstFit size = some k ∧
      (s₁ = s ∨ Extended s s₁ b) ∧ s₁.blocks[(k + requiredPages size - 1) / 8]? = some b ∧
      setBack s₁ b (requiredPages size - 2) ((k + requiredPages size - 1) % 8) = some (idx, s') ∧
      p = address b idx := by
  obtain ⟨n, hr, hn, hn', _⟩ := requiredPages_spec hs
  have hstart := Scanned.start (f := s.bit) (k := requiredPages size) (by omega)
  simp only [malloc] at h
  obtain ⟨b, k, he, hb, hf⟩ | ⟨z, he, hz⟩ := search_spec (i := 0)
    (List.nil_append s.blocks).symm hstart
  case inl =>
    simp only [he] at h
    obtain ⟨⟨idx, s''⟩, hset, hp⟩ := Option.bind_eq_some_iff.mp h
    cases hp
    exact ⟨k, s, b, idx, hf _ (by omega), .inl rfl, hb, hset, rfl⟩
  case inr =>
    have hshort := hz.short
    have hle := hz.le
    have hlast : (8 * s.blocks.length - z + requiredPages size - 1) / 8 = s.blocks.length := by
      omega
    have hidx : incIdx (decIdx (if s.blocks = [] then 0 else 8) z) (requiredPages size - 1) =
        (8 * s.blocks.length - z + requiredPages size - 1) % 8 := by
      rw [Nat.add_sub_assoc (by omega), hr]
      by_cases hbs : s.blocks = []
      case pos =>
        rw [hbs, List.length_nil] at hle ⊢
        exact idx_eq rfl (by decide) hle hle
      case neg =>
        rw [if_neg hbs]
        exact idx_eq (Nat.mul_mod_right 8 _).symm (by decide) (by omega) hle
    simp only [he, extend_eq (s := s) (z := z) (r := requiredPages size) (by omega) (by omega),
      Option.bind_eq_bind, Option.bind_some, hidx] at h
    obtain ⟨⟨idx, s''⟩, hset, hp⟩ := Option.bind_eq_some_iff.mp h
    cases hp
    have hnew := extendMem_spec <| ne_null_of_setBack hset (by omega)
    refine ⟨8 * s.blocks.length - z, _, _, idx, ?_, .inr hnew, ?_, hset, rfl⟩
    · exact hz.followed (fun _ hi => bit_behind hi) (by omega)
    · rw [hlast, hnew.blocks]
      simp

section

variable (hk : ∀ i, (s.kernel i).result ≠ NULL)
include hk

theorem extendMem_fst_ne_null : (extendMem s).fst ≠ NULL := by
  rw [extendMem, if_neg (hk s.extensions)]
  exact hk s.extensions

-- The fuel suffices for all rounds.
theorem extend_returns (hn : 0 < n) (h : r ≤ z + 8 * n) :
    ∃ b s', extend r s n z = some (b, s') ∧ b ≠ NULL := by
  induction n generalizing s z
  case zero      => contradiction
  case succ n hi =>
    have hkernel : (extendMem s).snd.kernel = s.kernel := by
      simp only [extendMem]
      split <;> rfl
    rw [extend]
    simp only
    split
    case isTrue  => exact hi (s := (extendMem s).snd) (hkernel ▸ hk) (by omega) (by omega)
    case isFalse => exact ⟨_, _, rfl, extendMem_fst_ne_null hk⟩

end

theorem setBack_returns (hp : p ≠ NULL) : ∃ x, setBack s p n i = some x := by
  induction n generalizing s i
  case zero      => exact ⟨_, rfl⟩
  case succ n hi =>
    rw [setBack, Heap.setBit, if_neg hp]
    exact hi

theorem search_mem {x : Nat × Nat} {bs : List Nat} (h : search s r bs i z = (some b, x)) :
    b ∈ bs := by
  induction bs generalizing i z
  case nil => simp [search] at h
  case cons b' bs hi =>
    rw [search] at h
    split at h
    case h_1 =>
      obtain ⟨h, _⟩ := Prod.ext_iff.mp h
      exact Option.some.inj h ▸ List.mem_cons_self
    case h_2 => exact List.mem_cons_of_mem _ <| hi h

-- A call returns whatever the size is, as long as there is memory.
theorem malloc_returns (hk : ∀ i, (s.kernel i).result ≠ NULL) (hb : ∀ b ∈ s.blocks, b ≠ NULL) :
    ∃ x, malloc s size = some x := by
  rw [malloc]
  simp only
  split
  case h_1 b idx zeros he =>
    obtain ⟨x, hx⟩ := setBack_returns (hb b <| search_mem he)
    exact ⟨_, by rw [hx]; rfl⟩
  case h_2 idx zeros he =>
    have hpos : 0 < requiredPages size := Nat.add_pos_left (by decide) _
    obtain ⟨b, t, he, hb⟩ := extend_returns hk hpos (r := requiredPages size) (z := zeros)
      (by omega)
    obtain ⟨x, hx⟩ := setBack_returns hb
    exact ⟨_, by rw [he, Option.bind_eq_bind, Option.bind_some, hx]; rfl⟩

end MemPages
