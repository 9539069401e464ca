import Kpr.Keyboard.ReleaseLoop
import Kpr.Keyboard.Theorems.Tracking
import Kpr.Lib.Ensures

open Except

namespace Keyboard

variable {l l' : NodeList Nat} {it : Iterator} {n : Node Nat} {ns : List (Node Nat)}
  {buf fuel : Nat} {examined : List Nat}

theorem load_eq (h : l.rest it = n :: ns) : load l it = .ok n.value := by
  rw [load, NodeList.deref_eq h]
  rfl

theorem next_eq (h : l.rest it = n :: ns) : next l it = .ok (ns.head?.map Node.id) := by
  rw [next, NodeList.advance_eq h]
  rfl

-- The iterator does not refer to any element once this has been erased.
theorem next_erase {elem : Nat} : next (l.erase elem) (some elem) = .error .erased := by
  rw [next, NodeList.advance, NodeList.rest_erase]
  rfl

theorem releaseLoop_end : releaseLoop buf fuel l none = .ok (l, []) := by
  cases fuel <;> rfl

-- The first element that is released is the last one which the loop reaches.
theorem releaseLoop_eq (h : l.rest it = ns) (hv : l.Valid it) (hf : ns.length ≤ fuel) :
    releaseLoop buf fuel l it =
      if ∃ n ∈ ns, released buf n.value = true then .error .erased
      else .ok (l, ns.map Node.id) := by
  induction ns generalizing it fuel
  case nil =>
    cases it
    case none      => simp [releaseLoop_end]
    case some elem =>
      have ⟨n, ns, hr⟩ := NodeList.rest_of_valid hv
      exact absurd (hr.symm.trans h) nofun
  case cons n ns hi =>
    cases fuel
    case zero      => exact absurd hf (Nat.not_succ_le_zero _)
    case succ fuel =>
      have hi := hi (NodeList.rest_next h) (NodeList.valid_next h) (Nat.le_of_succ_le_succ hf)
      cases NodeList.iterator_of_rest h
      cases hn : released buf n.value
      case true =>
        have hex : ∃ m ∈ n :: ns, released buf m.value = true := ⟨n, List.mem_cons_self, hn⟩
        have herr : releaseLoop buf (fuel + 1) l (some n.id) = .error .erased := by
          simp only [releaseLoop, load_eq h, ok_bind, hn, if_true, next_erase, error_bind]
        rw [if_pos hex, herr]
      case false =>
        simp only [releaseLoop, load_eq h, ok_bind, hn, Bool.false_eq_true, if_false, next_eq h, hi,
          List.exists_mem_cons_iff, false_or]
        split
        case isTrue  => rfl
        case isFalse => rfl

theorem releaseLoop_first : releaseLoop buf l.nodes.length l l.first =
    if ∃ n ∈ l.nodes, released buf n.value = true then .error .erased else .ok (l, l.ids) :=
  releaseLoop_eq l.rest_first l.valid_first (Nat.le_refl _)

-- If the loop gets to its end, then it has erased what is released.
theorem releaseLoop_values (h : releaseLoop buf l.nodes.length l l.first = .ok (l', examined)) :
    l'.values = eraseReleased buf l.values := by
  rw [releaseLoop_first] at h
  split at h
  case isTrue     => contradiction
  case isFalse hn =>
    cases h
    rw [eraseReleased_eq]
    apply Eq.symm
    apply List.filter_eq_self.mpr
    intro code hc
    have ⟨n, hm, hv⟩ := List.mem_map.mp hc
    rw [Bool.not_eq_true', Bool.eq_false_iff]
    exact fun hr => hn ⟨n, hm, hv ▸ hr⟩

-- Thus the loop is safe unless there is something to be released.
theorem iteratorSafe_iff (buf : Nat) (l : NodeList Nat) :
    IteratorSafe buf l ↔ ∀ code ∈ l.values, released buf code = false := by
  rw [IteratorSafe, releaseLoop_first]
  constructor
  case mp =>
    intro ⟨l', hl⟩ code hc
    have ⟨n, hn, hv⟩ := List.mem_map.mp hc
    split at hl
    case isTrue    => contradiction
    case isFalse h =>
      rw [← hv, ← Bool.not_eq_true]
      exact fun hr => h ⟨n, hn, hr⟩
  case mpr =>
    intro h
    refine ⟨l, if_neg ?_⟩
    intro ⟨n, hn, hr⟩
    rw [h n.value (List.mem_map_of_mem hn)] at hr
    contradiction

-- TAB is released.
theorem erased_iterator_used : ¬∀ buf l, IteratorSafe buf l := by
  intro h
  have ⟨l', hl⟩ := h 143 (NodeList.empty.pushFront Key.TAB.code)
  have he : releaseLoop 143 1 (NodeList.empty.pushFront Key.TAB.code) (some 0) = .error .erased := rfl
  cases he.symm.trans hl

end Keyboard
