import Kpr.MemList.Theorems.Threaded

open Machine

namespace MemList

variable {S : Set Nat} {s : Heap} {l : ListId} {es es₂ : List Nat} {e r n x : Nat}

-- Requests of at most `EXT_MEM` bytes are rounded up without leaving the range of `unsigned`.
theorem alignSize_eq (h : n ≤ EXT_MEM) : alignSize s n = (rounded n, s) := by
  by_cases hn : n ≤ SIZE_INT
  case pos => simp only [alignSize, rounded, if_pos hn]
  case neg =>
    simp only [alignSize, rounded, if_neg hn]
    by_cases hm : n % SIZE_INT = 0
    case pos =>
      simp only [hm, ne_eq, not_true_eq_false, if_false, Prod.mk.injEq, and_true]
      simp only [SIZE_INT] at *
      omega
    case neg =>
      have hlt : n + (SIZE_INT - n % SIZE_INT) < 2 ^ 32 := by
        simp only [SIZE_INT, EXT_MEM] at *
        omega
      simp only [hm, ne_eq, not_false_eq_true, if_true, Heap.addSize, Word.add_of_lt hlt,
        Nat.not_le.mpr hlt, decide_false, Bool.or_false, Prod.mk.injEq, and_true]
      simp only [SIZE_INT] at *
      omega

namespace Heap

-- The writes which make `e` the only element of the list `l`.
def started (s : Heap) (l : ListId) (e : Nat) : Heap :=
  ((s.setHead l e).put e .next e).put e .prev e

end Heap

theorem startList_eq (hS : Headers S) (he : e ∈ S) : startList l s e = .ok (s.started l e) := by
  simp [startList, Heap.started, hS.store_eq he]

theorem started_threaded (hS : Headers S) (he : e ∈ S) : Threaded (s.started l e) l [e] where
  head := by simp [Heap.started]
  ring := LinkRing.singleton_iff.mpr <| by simp [Heap.started, hS.word_put he he]

theorem started_relinked (hS : Headers S) (he : e ∈ S) {T : Set Nat} (ht : e ∈ T) :
    Relinked S T s (s.started l e) :=
  Heap.setHead_relinked |>.put hS he ht |>.put hS he ht

theorem started_head {k : ListId} (h : k ≠ l) : (s.started l e).head k = s.head k := by
  simp [Heap.started, Heap.setHead_head_ne h]

-- The search visits the holes in their order and returns the first one which is large enough.
theorem findHole_spec (es₁ : List Nat) (hS : Headers S) (ht : Threaded s .holes (es₁ ++ x :: es₂))
    (hs : ∀ y ∈ es₁ ++ x :: es₂, y ∈ S) (hf : es₂.length < n) :
    findHole s r n x = .ok ((x :: es₂).find? (r ≤ s.size ·)) := by
  induction es₂ generalizing es₁ x n <;> cases n <;> try contradiction
  case nil.succ n =>
    have hn : s.next x = s.holesHead := by
      have hh : s.holesHead = _ := ht.head
      rw [ht.ring.next_last, hh]
      cases es₁ <;> rfl
    by_cases hx : r ≤ s.size x <;> simp [findHole, hS.load_eq (hs x (by simp)), hx, hn]
  case cons.succ c es₂ hi n =>
    have hn : s.next x = c := ht.ring.linked_of_append.left
    have hc : c ≠ s.holesHead := by
      have hh : s.holesHead = _ := ht.head
      have := ht.ring.nodup
      rw [hh]
      cases es₁ <;> grind
    have e₁ : es₁ ++ x :: c :: es₂ = (es₁ ++ [x]) ++ c :: es₂ := by simp
    have hi := hi (es₁ ++ [x]) (e₁ ▸ ht) (e₁ ▸ hs) (n := n) (by simpa using hf)
    by_cases hx : r ≤ s.size x <;> simp [findHole, hS.load_eq (hs x (by simp)), hx, hn, hc, hi]

-- Addresses are machine words, thus a list without repetitions is shorter than the loop bound.
theorem length_le_loopBound (hS : Headers S) (hs : ∀ x ∈ es, x ∈ S) (hn : es.Nodup) :
    es.length ≤ loopBound := by
  have h : es ⊆ List.range loopBound := fun x hx => by
    have := hS.below x (hs x hx)
    simp only [List.mem_range, loopBound, sizeofDmemElem] at *
    omega
  simpa using (hn.subperm h).length_le

end MemList
