import Mathlib.Data.List.Destutter

-- Lists of which only adjacent duplicates are removed.

namespace List

variable {α : Type*} [DecidableEq α] {a b : α} {l : List α}

theorem mem_destutter'_ne : b ∈ l.destutter' (· ≠ ·) a ↔ b ∈ a :: l := by
  induction l generalizing a
  case nil => simp
  case cons c l hi =>
    by_cases h : a = c
    case pos => simp [h, hi]
    case neg => simp [h, hi]

-- No element gets lost.
theorem mem_destutter_ne : b ∈ l.destutter (· ≠ ·) ↔ b ∈ l := by
  cases l
  case nil      => simp
  case cons a l => rw [destutter_cons', mem_destutter'_ne]

theorem Nodup.destutter_ne (h : l.Nodup) : l.destutter (· ≠ ·) = l :=
  destutter_of_isChain _ _ h.isChain

theorem destutter_ne_cons_self (h : (a :: l).Nodup) :
    (a :: a :: l).destutter (· ≠ ·) = a :: l := by
  rw [destutter_cons', destutter'_cons_neg _ (not_not_intro rfl), ← destutter_cons', h.destutter_ne]

-- An element which is put in front of a list without duplicates is only a duplicate if it is in the
-- list, but not at its front.
theorem nodup_destutter_ne_cons (h : l.Nodup) :
    ((a :: l).destutter (· ≠ ·)).Nodup ↔ (a ∈ l → l.head? = some a) := by
  cases l
  case nil => simp
  case cons b l =>
    by_cases hab : a = b
    case pos =>
      rw [hab, destutter_ne_cons_self h]
      exact iff_of_true h fun _ => rfl
    case neg =>
      rw [destutter_cons_cons, if_pos hab, ← destutter_cons', h.destutter_ne, nodup_cons]
      constructor
      case mp  => exact fun hm ha => absurd ha hm.left
      case mpr => exact fun hh => ⟨fun ha => hab (Option.some.inj (hh ha)).symm, h⟩

-- A part without adjacent duplicates stays as it is if the last element in front of it is different
-- from its first one.
theorem destutter'_append {β : Type*} {f : β → α} {a : β} {l ns : List β}
    (hc : ns.IsChain (f · ≠ f ·)) (h : ∀ n ∈ ns.head?, ∀ m ∈ (a :: l).getLast?, f m ≠ f n) :
    (l ++ ns).destutter' (f · ≠ f ·) a = l.destutter' (f · ≠ f ·) a ++ ns := by
  induction l generalizing a
  case nil =>
    apply destutter'_of_isChain_cons
    cases ns
    case nil       => exact .singleton a
    case cons n ns => exact .cons_cons (h n rfl a rfl) hc
  case cons b l hi =>
    by_cases hab : f a = f b
    case neg =>
      rw [cons_append, destutter'_cons_pos _ hab, destutter'_cons_pos _ hab, cons_append, hi]
      exact fun n hn m hm => h n hn m (by rwa [getLast?_cons_cons])
    case pos =>
      rw [cons_append, destutter'_cons_neg _ (not_not_intro hab),
        destutter'_cons_neg _ (not_not_intro hab), hi]
      intro n hn m hm
      cases l
      case cons c l => exact h n hn m (by rwa [getLast?_cons_cons, getLast?_cons_cons] at *)
      case nil =>
        cases hm
        exact hab ▸ h n hn b rfl

theorem destutter_append {β : Type*} {f : β → α} {ms ns : List β} (hc : ns.IsChain (f · ≠ f ·))
    (h : ∀ n ∈ ns.head?, ∀ m ∈ ms.getLast?, f m ≠ f n) :
    (ms ++ ns).destutter (f · ≠ f ·) = ms.destutter (f · ≠ f ·) ++ ns := by
  cases ms
  case nil       => exact destutter_of_isChain _ _ hc
  case cons a ms => exact destutter'_append hc h

end List
