import Mathlib.Data.List.TakeWhile

-- The words of a list, which are separated by elements with a property `p`.

namespace List

variable {α : Type*} {p : α → Bool} {a : α} {l w s : List α}

def wordsP (p : α → Bool) (l : List α) : List (List α) :=
  (l.splitOnP p).filter (!·.isEmpty)

theorem wordsP_nil : wordsP p [] = [] := by
  simp [wordsP]

-- A separator in front of the words is skipped.
theorem wordsP_cons_pos (h : p a = true) : wordsP p (a :: l) = wordsP p l := by
  simp [wordsP, splitOnP_cons_eq_if_modifyHead, h]

theorem wordsP_append_left (h : ∀ a ∈ s, p a = true) : wordsP p (s ++ l) = wordsP p l := by
  induction s
  case nil         => rfl
  case cons a s hi =>
    rw [cons_append, wordsP_cons_pos (h a mem_cons_self), hi fun b hb => h b (mem_cons_of_mem a hb)]

theorem wordsP_dropWhile : wordsP p (l.dropWhile p) = wordsP p l := by
  induction l
  case nil         => rfl
  case cons a l hi =>
    rw [dropWhile_cons]
    split
    case isTrue h  => rw [hi, wordsP_cons_pos h]
    case isFalse   => rfl

-- Words do not go across a separator.
theorem wordsP_append_cons (h : p a = true) : wordsP p (s ++ a :: l) = wordsP p s ++ wordsP p l := by
  rw [wordsP, splitOnP_append_cons _ _ h, filter_append]
  rfl

-- The first word ends at the first separator behind it.
theorem wordsP_append (hn : w ≠ []) (hw : ∀ a ∈ w, p a = false) (hs : ∀ a ∈ l.head?, p a = true) :
    wordsP p (w ++ l) = w :: wordsP p l := by
  cases l
  case nil      => simp [wordsP, splitOnP_eq_singleton hw, hn]
  case cons a l =>
    rw [wordsP_cons_pos (hs a rfl), wordsP, splitOnP_append_cons_of_forall_mem hw a (hs a rfl)]
    simp [wordsP, hn]

theorem dropWhile_not_head : ∀ a ∈ (l.dropWhile (!p ·)).head?, p a = true := by
  intro a ha
  have h := head?_dropWhile_not (!p ·) l
  rw [Option.mem_def.mp ha] at h
  simpa using h

-- A word ends where a separator follows.

theorem takeWhile_append_eq (hw : ∀ a ∈ w, p a = false) (hs : ∀ a ∈ l.head?, p a = true) :
    (w ++ l).takeWhile (!p ·) = w := by
  rw [takeWhile_append_of_pos fun a ha => by simp [hw a ha]]
  cases l
  case nil      => simp
  case cons a l => simp [hs a rfl]

theorem dropWhile_append_eq (hw : ∀ a ∈ w, p a = false) (hs : ∀ a ∈ l.head?, p a = true) :
    (w ++ l).dropWhile (!p ·) = l := by
  rw [dropWhile_append_of_pos fun a ha => by simp [hw a ha]]
  cases l
  case nil      => rfl
  case cons a l => simp [hs a rfl]

theorem dropWhile_dropWhile : (l.dropWhile p).dropWhile p = l.dropWhile p := by
  induction l
  case nil         => rfl
  case cons a l hi =>
    rw [dropWhile_cons]
    split
    case isTrue    => exact hi
    case isFalse h => rw [dropWhile_cons, if_neg h]

-- Reading one word after skipping the separators in front of it.
theorem wordsP_eq : wordsP p l =
    if (l.dropWhile p).takeWhile (!p ·) = [] then []
    else (l.dropWhile p).takeWhile (!p ·) :: wordsP p ((l.dropWhile p).dropWhile (!p ·)) := by
  have hh := dropWhile_not_head (p := (!p ·)) (l := l)
  rw [← wordsP_dropWhile]
  simp only [Bool.not_not, Bool.not_eq_true'] at hh
  generalize l.dropWhile p = l' at hh ⊢
  split
  case isTrue h =>
    cases l'
    case nil       => exact wordsP_nil
    case cons a l' => simp [hh a rfl] at h
  case isFalse h =>
    conv => lhs; rw [← takeWhile_append_dropWhile (p := (!p ·)) (l := l')]
    apply wordsP_append h
    case hw => exact fun a ha => by simpa using mem_takeWhile_imp ha
    case hs => exact dropWhile_not_head

-- Nothing else than the elements between the separators is in the parts.
theorem mem_splitOnP (h : w ∈ l.splitOnP p) (ha : a ∈ w) : a ∈ l ∧ p a = false := by
  induction l generalizing w
  case nil         => simp_all
  case cons b l hi =>
    rw [splitOnP_cons_eq_if_modifyHead] at h
    split at h
    case isTrue =>
      cases mem_cons.mp h
      case inl hw => exact absurd (hw ▸ ha) not_mem_nil
      case inr hw => exact (hi hw ha).imp_left (mem_cons_of_mem b)
    case isFalse hb =>
      obtain ⟨v, vs, hv⟩ := exists_cons_of_ne_nil (splitOnP_ne_nil p l)
      rw [hv] at hi h
      cases mem_cons.mp h
      case inr hw => exact (hi (mem_cons_of_mem v hw) ha).imp_left (mem_cons_of_mem b)
      case inl hw =>
        cases mem_cons.mp (hw ▸ ha)
        case inl hab =>
          subst hab
          exact ⟨mem_cons_self, Bool.eq_false_iff.mpr hb⟩
        case inr hav => exact (hi mem_cons_self hav).imp_left (mem_cons_of_mem b)

theorem mem_wordsP (h : w ∈ l.wordsP p) : w ≠ [] ∧ ∀ a ∈ w, a ∈ l ∧ p a = false := by
  have ⟨hm, hn⟩ := mem_filter.mp h
  exact ⟨by simpa using hn, fun a => mem_splitOnP hm⟩

end List
