import Kpr.MemList.Theorems.Threaded

open Machine Except

namespace MemList

variable {S : Set Nat} {s s' : Heap} {l : ListId} {es es₁ es₂ : List Nat} {e n r v : Nat}

-- Sizes which do not wrap around leave no trace.
theorem Heap.subSize_of_le {a b : Nat} (h : b ≤ a) : s.subSize a b = (a - b, s) := by
  simp [Heap.subSize, Word.sub_of_le h, Nat.not_lt.mpr h]

-- Alignment moves a header whose size field is word-aligned by at most one word.
theorem align_eq (h : (e + sizeofDmemElem) % SIZE_INT = 0) (hb : e + sizeofDmemElem ≤ 2 ^ 32) :
    align e = if (e + sizeofDmemElem) % ALIGN = 0 then e else e + 4 := by
  simp only [align, Word.add, Word.sub, sizeofDmemElem, SIZE_INT, ALIGN] at *
  by_cases h₈ : (e + 12) % 8 = 0
  case pos =>
    have h : (e + 12) % 2 ^ 32 % 8 = 0 := by omega
    simp only [h, h₈, ne_eq, not_true_eq_false, if_false, if_true]
    split <;> omega
  case neg =>
    have h : (e + 12) % 2 ^ 32 = e + 12 := by omega
    simp only [h, h₈, ne_eq, not_false_eq_true, if_false, if_true]
    split <;> omega

namespace Heap

-- The writes of a split of `e` into a part of `r` bytes and a new element `n` with `v` bytes.
def splitAt (s : Heap) (e n r v : Nat) : Heap :=
  (((((s.put n .size v).put n .prev e).put n .next (s.next e)).put (s.next e) .prev n).put
    e .size r).put e .next n

end Heap

namespace Headers

variable (hS : Headers S) (he : e ∈ S) (hn : n ∈ S) (hx : s.next e ∈ S)
include hS he hn hx

theorem split_eq (hne : n ≠ e) (ha : align (Word.add (Word.add e sizeofDmemElem) r) = n)
    (hr : r + sizeofDmemElem ≤ s.size e) :
    split s e r = .ok (s.splitAt e n r (s.size e - r - sizeofDmemElem)) := by
  have h₁ : s.subSize (s.size e) r = (s.size e - r, s) := Heap.subSize_of_le (by omega)
  have h₂ : s.subSize (s.size e - r) sizeofDmemElem = (s.size e - r - sizeofDmemElem, s) :=
    Heap.subSize_of_le (by omega)
  simp only [split, hS.load_eq he, ok_bind, h₁, h₂, ha, hS.store_eq hn]
  simp [Heap.splitAt, hS.store_eq, hS.word_put, *, hne.symm]

theorem splitAt_next {p : Nat} (hp : p ∈ S) : (s.splitAt e n r v).next p =
    if p = e then n else if p = n then s.next e else s.next p := by
  simp [Heap.splitAt, hS.word_put, *]

theorem splitAt_prev {p : Nat} (hp : p ∈ S) : (s.splitAt e n r v).prev p =
    if p = s.next e then n else if p = n then e else s.prev p := by
  simp [Heap.splitAt, hS.word_put, *]

theorem splitAt_size {p : Nat} (hp : p ∈ S) : (s.splitAt e n r v).size p =
    if p = e then r else if p = n then v else s.size p := by
  simp [Heap.splitAt, hS.word_put, *]

theorem splitAt_touched {T : Set Nat} (ht : {e, n, s.next e} ⊆ T) :
    Touched S T s (s.splitAt e n r v) := by
  have ⟨h₁, h₂, h₃⟩ : e ∈ T ∧ n ∈ T ∧ s.next e ∈ T := by simpa [Set.insert_subset_iff] using ht
  exact Touched.refl |>.put hS hn h₂ |>.put hS hn h₂ |>.put hS hn h₂ |>.put hS hx h₃
    |>.put hS he h₁ |>.put hS he h₁

end Headers

-- The new element comes right after the one which is split.
theorem splitAt_ring (hS : Headers S) (h : LinkRing s.next s.prev (es₁ ++ e :: es₂))
    (hs : ∀ x ∈ es₁ ++ e :: es₂, x ∈ S) (hn : n ∈ S) (hne : n ∉ es₁ ++ e :: es₂) :
    LinkRing (s.splitAt e n r v).next (s.splitAt e n r v).prev (es₁ ++ e :: n :: es₂) := by
  have he : e ∈ es₁ ++ e :: es₂ := by simp
  have hx := h.next_mem he
  have hpn := h.prev_next he
  have next p := hS.splitAt_next (p := p) (r := r) (v := v) (hs e he) hn (hs _ hx)
  have prev p := hS.splitAt_prev (p := p) (r := r) (v := v) (hs e he) hn (hs _ hx)
  have hnx : n ≠ s.next e := fun h => hne (h ▸ hx)
  have hn' : n ≠ e := fun h => hne (h ▸ he)
  refine h.insert_after hne ?_
  constructor
  all_goals grind

end MemList
