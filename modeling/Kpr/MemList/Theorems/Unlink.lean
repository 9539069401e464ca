import Kpr.MemList.Theorems.Threaded

open Machine Except

namespace MemList

variable {S : Set Nat} {s : Heap} {l : ListId} {es es₁ es₂ : List Nat} {e : Nat}

namespace Heap

-- The two writes which take `e` out of its list.
def unlinked (s : Heap) (e : Nat) : Heap :=
  (s.put (s.prev e) .next (s.next e)).put (s.next e) .prev (s.prev e)

-- The two writes which end a removal.
def detached (s : Heap) (e : Nat) : Heap :=
  (s.put e .next NULL).put e .prev NULL

theorem setHead_detached {v : Nat} :
    (s.setHead l v).detached e = (s.detached e).setHead l v := by
  cases l <;> rfl

end Heap

namespace Headers

theorem detached_word (hS : Headers S) (he : e ∈ S) {p : Nat} (hp : p ∈ S) (hpe : p ≠ e)
    (f : Field) : (s.detached e).word p f = s.word p f := by
  simp [Heap.detached, hS.word_put, *]

theorem detached_relinked (hS : Headers S) (he : e ∈ S) {T : Set Nat} (ht : e ∈ T) :
    Relinked S T s (s.detached e) :=
  Relinked.refl |>.put hS he ht |>.put hS he ht

section

variable (hS : Headers S) (hp : s.prev e ∈ S) (hn : s.next e ∈ S)
include hS hp hn

theorem unlink_eq (he : e ∈ S) (hpe : s.prev e ≠ e) : unlink s e = .ok (s.unlinked e) := by
  simp [unlink, Heap.unlinked, hS.load_eq, hS.store_eq, hS.word_put, *, hpe.symm]

theorem unlinked_next {p : Nat} (hpS : p ∈ S) :
    (s.unlinked e).next p = if p = s.prev e then s.next e else s.next p := by
  simp [Heap.unlinked, hS.word_put, *]

theorem unlinked_prev {p : Nat} (hpS : p ∈ S) :
    (s.unlinked e).prev p = if p = s.next e then s.prev e else s.prev p := by
  simp [Heap.unlinked, hS.word_put, *]

theorem unlinked_relinked {T : Set Nat} (ht : {s.prev e, s.next e} ⊆ T) :
    Relinked S T s (s.unlinked e) := by
  have ⟨h₁, h₂⟩ : s.prev e ∈ T ∧ s.next e ∈ T := by simpa [Set.insert_subset_iff] using ht
  exact Relinked.refl |>.put hS hp h₁ |>.put hS hn h₂

end
end Headers

variable (hS : Headers S) (ht : Threaded s l (es₁ ++ e :: es₂)) (hs : ∀ x ∈ es₁ ++ e :: es₂, x ∈ S)
include hS ht hs

-- The only element is removed.
theorem removeFrom_only (h : es₁ ++ es₂ = []) :
    ∃ s', removeFrom l s e = .ok s' ∧ Relinked S {x | x ∈ es₁ ++ e :: es₂} s s' ∧
      Threaded s' l (es₁ ++ es₂) ∧ ∀ k ≠ l, s'.head k = s.head k := by
  have ⟨h₁, h₂⟩ := List.append_eq_nil_iff.mp h
  subst h₁ h₂
  have he : e ∈ S := hs e (by simp)
  have hnext : s.next e = e := (LinkRing.singleton_iff.mp ht.ring).left
  have hhead : s.head l = e := ht.head
  refine ⟨(s.setHead l NULL).detached e, ?_, ?_, ⟨?_, .nil⟩, fun k hk => ?_⟩
  · simp [removeFrom, hS.load_eq he, hS.store_eq he, hhead, hnext, Heap.detached]
  · exact Heap.setHead_relinked.trans <| hS.detached_relinked he (by simp)
  · simp [Heap.detached]
  · simp [Heap.detached, Heap.setHead_head_ne hk]

theorem unlinked_removed (h : es₁ ++ es₂ ≠ []) :
    LinkRing.Removed s.next s.prev ((s.unlinked e).detached e).next ((s.unlinked e).detached e).prev e
      (es₁ ++ es₂) := by
  have he : e ∈ es₁ ++ e :: es₂ := by simp
  have hpS := hs _ (ht.ring.prev_mem he)
  have hnS := hs _ (ht.ring.next_mem he)
  have hpe := ht.ring.prev_ne h
  have hne := ht.ring.next_ne h
  have hn := ht.ring.nodup
  have hd {p} (hp : p ∈ S) (hpe : p ≠ e) f := hS.detached_word (s := s.unlinked e) (hs e he) hp hpe f
  have next {p} (hp : p ∈ S) := hS.unlinked_next hpS hnS hp
  have prev {p} (hp : p ∈ S) := hS.unlinked_prev hpS hnS hp
  have hm : ∀ p ∈ es₁ ++ es₂, p ∈ S ∧ p ≠ e := by
    intro p hp
    constructor
    · exact hs p (by simp at hp ⊢; tauto)
    · grind
  constructor
  case next_prev => exact (hd hpS hpe _).trans <| (next hpS).trans (if_pos rfl)
  case prev_next => exact (hd hnS hne _).trans <| (prev hnS).trans (if_pos rfl)
  case next_kept =>
    intro p hp hpp
    have ⟨hpS, hpe⟩ := hm p hp
    exact (hd hpS hpe _).trans <| (next hpS).trans (if_neg hpp)
  case prev_kept =>
    intro p hp hpn
    have ⟨hpS, hpe⟩ := hm p hp
    exact (hd hpS hpe _).trans <| (prev hpS).trans (if_neg hpn)

-- An element is removed while others remain.
theorem removeFrom_more (h : es₁ ++ es₂ ≠ []) :
    ∃ s', removeFrom l s e = .ok s' ∧ Relinked S {x | x ∈ es₁ ++ e :: es₂} s s' ∧
      Threaded s' l (es₁ ++ es₂) ∧ ∀ k ≠ l, s'.head k = s.head k := by
  have he : e ∈ es₁ ++ e :: es₂ := by simp
  have heS := hs e he
  have hpS := hs _ (ht.ring.prev_mem he)
  have hnS := hs _ (ht.ring.next_mem he)
  have hpe := ht.ring.prev_ne h
  have hne := ht.ring.next_ne h
  have hhead k : ((s.unlinked e).detached e).head k = s.head k := by
    simp [Heap.unlinked, Heap.detached]
  have hnext : (s.unlinked e).next e = s.next e := by
    rw [hS.unlinked_next hpS hnS heS, if_neg hpe.symm]
  have hunlink := hS.unlink_eq hpS hnS heS hpe
  have hring := ht.ring.remove (unlinked_removed hS ht hs h)
  have hrel : Relinked S {x | x ∈ es₁ ++ e :: es₂} s ((s.unlinked e).detached e) := by
    refine (hS.unlinked_relinked hpS hnS ?_).trans (hS.detached_relinked heS he)
    exact Set.insert_subset (ht.ring.prev_mem he) <| Set.singleton_subset_iff.mpr (ht.ring.next_mem he)
  cases es₁
  case nil =>
    -- The successor of the head becomes the new head.
    have hh : s.head l = e := ht.head
    have hev : removeFrom l s e = .ok (((s.unlinked e).detached e).setHead l (s.next e)) := by
      have hhu : (s.unlinked e).head l = e := by simp [Heap.unlinked, hh]
      simp only [removeFrom, hh, hS.load_eq heS, hunlink, ok_bind, pure_eq_ok, andAlso_ok, hne,
        decide_true, decide_false, Bool.and_false, Bool.false_eq_true, if_false, hhu, if_true, hnext,
        hS.store_eq heS, ← Heap.setHead_detached]
      rfl
    have hn : s.next e = es₂.headD NULL := by
      cases es₂
      case nil        => contradiction
      case cons c es₂ => exact (ht.ring.linked_of_append (k := [])).left
    refine ⟨_, hev, hrel.trans Heap.setHead_relinked, hn ▸ .setHead hring, fun k hk => ?_⟩
    rw [Heap.setHead_head_ne hk, hhead]
  case cons c es₁ =>
    have hh : s.head l = c := ht.head
    have hce : e ≠ c := by
      have hd := (List.nodup_append.mp ht.ring.nodup).right.right
      exact (hd c (by simp) e (by simp)).symm
    have hev : removeFrom l s e = .ok ((s.unlinked e).detached e) := by
      have hhu : (s.unlinked e).head l = c := by simp [Heap.unlinked, hh]
      simp only [removeFrom, hh, hS.load_eq heS, hunlink, ok_bind, pure_eq_ok, andAlso_ok, hce,
        decide_false, Bool.false_and, Bool.false_eq_true, if_false, hhu, hS.store_eq heS]
      rfl
    exact ⟨_, hev, hrel, ⟨(hhead l).trans hh, hring⟩, fun k _ => hhead k⟩

theorem removeFrom_spec :
    ∃ s', removeFrom l s e = .ok s' ∧ Relinked S {x | x ∈ es₁ ++ e :: es₂} s s' ∧
      Threaded s' l (es₁ ++ es₂) ∧ ∀ k ≠ l, s'.head k = s.head k := by
  by_cases h : es₁ ++ es₂ = []
  case pos => exact removeFrom_only hS ht hs h
  case neg => exact removeFrom_more hS ht hs h

end MemList
