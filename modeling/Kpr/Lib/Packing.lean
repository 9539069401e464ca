import Kpr.Lib.Machine
import Mathlib.Order.Interval.Finset.Nat

open Machine

-- Ranges which have no number in common, where `lo a` and `hi a` are the ends of the range of `a`.

variable {α : Type*} {l : List α} {lo hi : α → Nat} {n : Nat}

-- The numbers in all ranges taken together.
theorem exists_covered (h : l.Pairwise fun a b => Apart (lo a) (hi a) (lo b) (hi b)) :
    ∃ S : Finset Nat, S.card = l.foldr (fun a m => hi a - lo a + m) 0 ∧
      ∀ x ∈ S, ∃ a ∈ l, lo a ≤ x ∧ x < hi a := by
  induction h
  case nil => exact ⟨∅, rfl, by simp⟩
  case cons a l ha _ ih =>
    have ⟨S, hc, hS⟩ := ih
    have hd : Disjoint (Finset.Ico (lo a) (hi a)) S := by
      rw [Finset.disjoint_left]
      intro x hx hxS
      have ⟨hl, hu⟩ := Finset.mem_Ico.mp hx
      have ⟨b, hb, hbl, hbu⟩ := hS x hxS
      have := ha b hb
      simp only [Apart] at this
      omega
    refine ⟨_, (Finset.card_union_of_disjoint hd).trans ?_, fun x hx => ?_⟩
    · rw [Nat.card_Ico, hc, List.foldr_cons]
    · cases Finset.mem_union.mp hx
      case inl hx => exact ⟨a, List.mem_cons_self, Finset.mem_Ico.mp hx⟩
      case inr hx =>
        have ⟨b, hb, hbx⟩ := hS x hx
        exact ⟨b, List.mem_cons_of_mem a hb, hbx⟩

-- No more than what there is can be handed out.
theorem sum_le_of_apart (h : l.Pairwise fun a b => Apart (lo a) (hi a) (lo b) (hi b))
    (hn : ∀ a ∈ l, hi a ≤ n) : l.foldr (fun a m => hi a - lo a + m) 0 ≤ n := by
  have ⟨S, hc, hS⟩ := exists_covered h
  have hsub : S ⊆ Finset.range n := by
    intro x hx
    have ⟨a, ha, _, hu⟩ := hS x hx
    exact Finset.mem_range.mpr (Nat.lt_of_lt_of_le hu (hn a ha))
  rw [← hc]
  exact (Finset.card_le_card hsub).trans (Nat.le_of_eq (Finset.card_range n))
