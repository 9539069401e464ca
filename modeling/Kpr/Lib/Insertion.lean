import Mathlib.Data.List.TakeWhile

variable {α β : Type*} {p : α → Bool} {R : α → α → Prop} {x y : α} {l : List α}

namespace List

-- Inserts `x` behind all leading elements which satisfy `p`.
def insertBehind (p : α → Bool) (x : α) (l : List α) : List α :=
  l.takeWhile p ++ x :: l.dropWhile p

theorem insertBehind_perm : (l.insertBehind p x).Perm (x :: l) := by
  have h : (l.takeWhile p ++ x :: l.dropWhile p).Perm (x :: (l.takeWhile p ++ l.dropWhile p)) :=
    perm_middle
  rwa [takeWhile_append_dropWhile] at h

@[simp]
theorem mem_insertBehind : y ∈ l.insertBehind p x ↔ y = x ∨ y ∈ l := by
  simp [insertBehind_perm.mem_iff]

-- The order of the other elements is kept.
theorem sublist_insertBehind : l.Sublist (l.insertBehind p x) := by
  have h := (sublist_cons_self x (l.dropWhile p)).append_left (l.takeWhile p)
  rwa [takeWhile_append_dropWhile] at h

-- An order on the list is maintained if `p` tells on which side of `x` an element belongs.
theorem Pairwise.insertBehind (h : l.Pairwise R) (ht : ∀ {a b c}, R a b → R b c → R a c)
    (hp : ∀ y ∈ l, p y → R y x) (hn : ∀ y ∈ l, ¬p y → R x y) : (l.insertBehind p x).Pairwise R := by
  have hl : (l.takeWhile p ++ l.dropWhile p).Pairwise R := by rwa [takeWhile_append_dropWhile]
  have ⟨hl₁, hl₂, hl₁₂⟩ := pairwise_append.mp hl
  have hx : ∀ y ∈ l.dropWhile p, R x y := by
    cases hd : l.dropWhile p
    case nil => simp
    case cons d ds =>
      have hmem : d ∈ l := (dropWhile_sublist p).subset (hd ▸ mem_cons_self)
      have hxd : R x d := hn d hmem <| by
        simpa [hd] using head_dropWhile_not p (l := l) (by simp [hd])
      intro y hy
      cases mem_cons.mp hy
      case inl h => exact h ▸ hxd
      case inr h => exact ht hxd <| (pairwise_cons.mp (hd ▸ hl₂)).left y h
  refine pairwise_append.mpr ⟨hl₁, pairwise_cons.mpr ⟨hx, hl₂⟩, fun a ha b hb => ?_⟩
  cases mem_cons.mp hb
  case inl h => exact h ▸ hp a ((takeWhile_sublist p).subset ha) (mem_takeWhile_imp ha)
  case inr h => exact hl₁₂ a ha b h

-- In a list which is sorted, nothing behind the first element that fails the test passes it.
theorem Pairwise.not_of_mem_dropWhile (h : l.Pairwise R) (hp : ∀ {a b}, R a b → p b → p a)
    (hy : y ∈ l.dropWhile p) : ¬p y := by
  induction l
  case nil         => simp at hy
  case cons x l hi =>
    have ⟨hx, hl⟩ := pairwise_cons.mp h
    by_cases hpx : p x
    case pos => exact hi hl <| by rwa [dropWhile_cons_of_pos hpx] at hy
    case neg =>
      rw [dropWhile_cons_of_neg hpx] at hy
      cases mem_cons.mp hy
      case inl hy => exact hy ▸ hpx
      case inr hy => exact fun hpy => hpx <| hp (hx y hy) hpy

theorem takeWhile_congr_of_mem {q : α → Bool} (h : ∀ y ∈ l, p y = q y) :
    l.takeWhile p = l.takeWhile q := by
  induction l
  case nil          => rfl
  case cons y l hi => simp [takeWhile_cons, h y, hi fun z hz => h z (mem_cons_of_mem _ hz)]

theorem dropWhile_congr_of_mem {q : α → Bool} (h : ∀ y ∈ l, p y = q y) :
    l.dropWhile p = l.dropWhile q := by
  induction l
  case nil          => rfl
  case cons y l hi => simp [dropWhile_cons, h y, hi fun z hz => h z (mem_cons_of_mem _ hz)]

-- Insertion can be carried out on an image of the list, if only the relevant test is available
-- there.
theorem map_insertBehind {f : α → β} {q : β → Bool} (h : ∀ y ∈ l, q (f y) = p y) :
    (l.map f).insertBehind q (f x) = (l.insertBehind p x).map f := by
  have h₁ : l.takeWhile (q ∘ f) = l.takeWhile p := takeWhile_congr_of_mem h
  have h₂ : l.dropWhile (q ∘ f) = l.dropWhile p := dropWhile_congr_of_mem h
  simp only [insertBehind, takeWhile_map, dropWhile_map, h₁, h₂, map_append, map_cons]

end List
