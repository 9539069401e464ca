import Mathlib.Data.List.Cycle

variable {α : Type*} {next prev next' prev' : α → α} {x y r : α} {l k m : List α}

-- `y` is the successor of `x` in both directions.
def Linked (next prev : α → α) (x y : α) : Prop :=
  next x = y ∧ prev y = x

-- The nodes of `l` form a circular doubly linked list in this order. An empty list does so, too.
structure LinkRing (next prev : α → α) (l : List α) : Prop where
  nodup : l.Nodup
  links : Cycle.Chain (Linked next prev) (l : Cycle α)

namespace LinkRing

theorem nil : LinkRing next prev [] where
  nodup := List.nodup_nil
  links := Cycle.Chain.nil _

theorem singleton_iff : LinkRing next prev [x] ↔ next x = x ∧ prev x = x where
  mp h := (Cycle.chain_singleton ..).mp h.links
  mpr h := ⟨List.nodup_singleton x, (Cycle.chain_singleton ..).mpr h⟩

theorem rotate (h : LinkRing next prev (k ++ m)) : LinkRing next prev (m ++ k) where
  nodup := List.nodup_append_comm.mp h.nodup
  links := by
    have e : (↑(m ++ k) : Cycle α) = ↑(k ++ m) :=
      Cycle.coe_eq_coe.mpr ⟨m.length, List.rotate_append_length_eq ..⟩
    exact e ▸ h.links

theorem isChain (h : LinkRing next prev l) (hl : l ≠ []) :
    List.IsChain (Linked next prev) (l.getLast hl :: l) :=
  (Cycle.chain_ne_nil _ hl).mp h.links

theorem of_isChain (hn : l.Nodup) (hl : l ≠ [])
    (h : List.IsChain (Linked next prev) (l.getLast hl :: l)) : LinkRing next prev l :=
  ⟨hn, (Cycle.chain_ne_nil _ hl).mpr h⟩

-- Only the links of the nodes on the list matter.
theorem congr (h : LinkRing next prev l) (hn : ∀ x ∈ l, next' x = next x)
    (hp : ∀ x ∈ l, prev' x = prev x) : LinkRing next' prev' l := by
  by_cases hl : l = []
  case pos => exact hl ▸ nil
  case neg =>
    refine of_isChain h.nodup hl <| (h.isChain hl).imp_of_mem_tail_imp fun a b ha hb => ?_
    have ha : a ∈ l := by
      cases List.mem_cons.mp ha
      case inl ha => exact ha ▸ List.getLast_mem hl
      case inr ha => exact ha
    simp only [Linked, hn a ha, hp b hb, imp_self]

theorem linked_prev (h : LinkRing next prev (r :: l)) :
    Linked next prev ((r :: l).getLast (List.cons_ne_nil _ _)) r :=
  (List.isChain_cons_cons.mp <| h.isChain (List.cons_ne_nil _ _)).left

theorem prev_eq_getLast (h : LinkRing next prev (r :: l)) :
    prev r = (r :: l).getLast (List.cons_ne_nil _ _) :=
  h.linked_prev.right

theorem linked_of_append (h : LinkRing next prev (k ++ x :: y :: m)) : Linked next prev x y := by
  have h := h.rotate.isChain (by simp)
  exact List.isChain_cons_cons.mp (List.isChain_cons_cons.mp h).right |>.left

theorem next_last (h : LinkRing next prev (l ++ [x])) : next x = (l ++ [x]).head (by simp) := by
  have h := h.isChain (by simp)
  cases l <;> simp_all [Linked]

theorem prev_mem (h : LinkRing next prev l) (hx : x ∈ l) : prev x ∈ l := by
  obtain ⟨k, m, rfl⟩ := List.append_of_mem hx
  have hm := h.rotate.prev_eq_getLast ▸ List.getLast_mem (List.cons_ne_nil x (m ++ k))
  simp only [List.mem_append, List.mem_cons] at hm ⊢
  tauto

theorem next_prev (h : LinkRing next prev l) (hx : x ∈ l) : next (prev x) = x := by
  obtain ⟨k, m, rfl⟩ := List.append_of_mem hx
  exact h.rotate.prev_eq_getLast ▸ h.rotate.linked_prev.left

theorem next_mem (h : LinkRing next prev l) (hx : x ∈ l) : next x ∈ l := by
  obtain ⟨k, m, rfl⟩ := List.append_of_mem hx
  cases m
  case nil         => exact h.next_last ▸ List.head_mem _
  case cons y m   => simp [h.linked_of_append.left]

theorem prev_next (h : LinkRing next prev l) (hx : x ∈ l) : prev (next x) = x := by
  obtain ⟨k, m, rfl⟩ := List.append_of_mem hx
  cases m
  case cons y m => exact h.linked_of_append.left ▸ h.linked_of_append.right
  case nil =>
    cases k
    case nil       => simp [singleton_iff.mp h]
    case cons z k => simpa [h.next_last] using h.prev_eq_getLast

-- In a ring with at least two nodes, no node is its own neighbour.
theorem next_ne (h : LinkRing next prev (k ++ x :: m)) (hl : k ++ m ≠ []) : next x ≠ x := by
  have hd := List.nodup_append.mp h.nodup
  cases m
  case cons y m =>
    have hxy := (List.nodup_cons.mp hd.right.left).left
    exact fun hx => hxy <| by simp [← h.linked_of_append.left, hx]
  case nil =>
    cases k
    case nil      => simp at hl
    case cons y k =>
      rw [h.next_last]
      exact hd.right.right y (by simp) x (by simp)

theorem prev_ne (h : LinkRing next prev (k ++ x :: m)) (hl : k ++ m ≠ []) : prev x ≠ x := by
  intro hx
  have hnp := h.next_prev (x := x) (by simp)
  rw [hx] at hnp
  exact h.next_ne hl hnp

-- Linking a new node `x` in front of the node `r`: four links change, all others are kept.
structure Inserted (next prev next' prev' : α → α) (x r : α) (l : List α) : Prop where
  next_new  : next' x = r
  prev_new  : prev' x = prev r
  next_prev : next' (prev r) = x
  prev_next : prev' r = x
  next_kept : ∀ y ∈ l, y ≠ prev r → next' y = next y
  prev_kept : ∀ y ∈ l, y ≠ r → prev' y = prev y

theorem insert_head (h : LinkRing next prev (r :: l)) (hx : x ∉ r :: l)
    (i : Inserted next prev next' prev' x r (r :: l)) : LinkRing next' prev' (x :: r :: l) := by
  have hl : List.getLast (x :: r :: l) (by simp) = prev r := by
    simp [List.getLast_cons, h.prev_eq_getLast]
  refine of_isChain (List.nodup_cons.mpr ⟨hx, h.nodup⟩) (by simp) ?_
  have hc := (List.isChain_cons_cons.mp <| h.isChain (by simp)).right
  refine hl ▸ .cons_cons ⟨i.next_prev, i.prev_new⟩ (.cons_cons ⟨i.next_new, i.prev_next⟩ ?_)
  refine hc.imp_of_mem_tail_imp fun a b ha hb ⟨hab, hba⟩ => ?_
  -- The predecessor of `r` is followed by `r`, which is not in the tail of the list.
  have hr : b ≠ r := fun e => (List.nodup_cons.mp h.nodup).left (e ▸ hb)
  have hq : a ≠ prev r := fun e => hr <| by rw [← hab, e, h.next_prev (by simp)]
  exact ⟨i.next_kept a ha hq ▸ hab, i.prev_kept b (List.mem_cons_of_mem _ hb) hr ▸ hba⟩

theorem insert_before (h : LinkRing next prev (k ++ r :: m)) (hx : x ∉ k ++ r :: m)
    (i : Inserted next prev next' prev' x r (k ++ r :: m)) :
    LinkRing next' prev' (k ++ x :: r :: m) := by
  have hm : ∀ y, y ∈ r :: (m ++ k) ↔ y ∈ k ++ r :: m := by simp; tauto
  have i' : Inserted next prev next' prev' x r (r :: (m ++ k)) :=
    { i with
      next_kept := fun y hy => i.next_kept y <| (hm y).mp hy
      prev_kept := fun y hy => i.prev_kept y <| (hm y).mp hy }
  exact (insert_head h.rotate ((hm x).not.mpr hx) i').rotate (k := x :: r :: m)

theorem insert_last (h : LinkRing next prev (l ++ [y])) (hx : x ∉ l ++ [y])
    (i : Inserted next prev next' prev' x (next y) (l ++ [y])) :
    LinkRing next' prev' (l ++ [y] ++ [x]) := by
  rw [h.next_last] at i
  cases l
  case nil      => exact (insert_head h hx i).rotate (k := [x])
  case cons r l => exact (insert_head h hx i).rotate (k := [x])

theorem insert_after (h : LinkRing next prev (k ++ y :: m)) (hx : x ∉ k ++ y :: m)
    (i : Inserted next prev next' prev' x (next y) (k ++ y :: m)) :
    LinkRing next' prev' (k ++ y :: x :: m) := by
  have hm : ∀ z, z ∈ m ++ k ++ [y] ↔ z ∈ k ++ y :: m := by simp; tauto
  have i' : Inserted next prev next' prev' x (next y) (m ++ k ++ [y]) :=
    { i with
      next_kept := fun z hz => i.next_kept z <| (hm z).mp hz
      prev_kept := fun z hz => i.prev_kept z <| (hm z).mp hz }
  -- The ring is read from the successor of `y` on, so that `y` comes last.
  have h : LinkRing next prev (m ++ k ++ [y]) := by
    rw [List.append_assoc]
    exact rotate (by simpa using h)
  have h := insert_last h ((hm x).not.mpr hx) i'
  rw [List.append_assoc, List.append_assoc] at h
  simpa using h.rotate

-- Unlinking the node `x`: two links change, all others are kept.
structure Removed (next prev next' prev' : α → α) (x : α) (l : List α) : Prop where
  next_prev : next' (prev x) = next x
  prev_next : prev' (next x) = prev x
  next_kept : ∀ y ∈ l, y ≠ prev x → next' y = next y
  prev_kept : ∀ y ∈ l, y ≠ next x → prev' y = prev y

theorem remove_head (h : LinkRing next prev (x :: y :: l))
    (d : Removed next prev next' prev' x (y :: l)) : LinkRing next' prev' (y :: l) := by
  have hl : List.getLast (y :: l) (by simp) = prev x := by
    simpa [List.getLast_cons] using h.prev_eq_getLast.symm
  have hy : next x = y := (linked_of_append (k := []) h).left
  have hn := List.nodup_cons.mp h.nodup
  have hc := List.isChain_cons_cons.mp (List.isChain_cons_cons.mp <| h.isChain (by simp)).right
  refine of_isChain hn.right (by simp) ?_
  refine hl ▸ .cons_cons ⟨hy ▸ d.next_prev, hy ▸ d.prev_next⟩ ?_
  refine hc.right.imp_of_mem_tail_imp fun a b ha hb ⟨hab, hba⟩ => ?_
  have hb' : b ≠ y := fun e => (List.nodup_cons.mp hn.right).left (e ▸ hb)
  have ha' : a ≠ prev x := by
    intro e
    have hx : b = x := by rw [← hab, e, h.next_prev (by simp)]
    exact hn.left <| hx ▸ List.mem_cons_of_mem _ hb
  exact ⟨d.next_kept a ha ha' ▸ hab, d.prev_kept b (List.mem_cons_of_mem _ hb) (hy ▸ hb') ▸ hba⟩

theorem remove (h : LinkRing next prev (k ++ x :: m)) (d : Removed next prev next' prev' x (k ++ m)) :
    LinkRing next' prev' (k ++ m) := by
  have hm : ∀ z, z ∈ m ++ k ↔ z ∈ k ++ m := by simp; tauto
  have h := h.rotate
  have d' : Removed next prev next' prev' x (m ++ k) :=
    { d with
      next_kept := fun z hz => d.next_kept z <| (hm z).mp hz
      prev_kept := fun z hz => d.prev_kept z <| (hm z).mp hz }
  refine rotate (k := m) ?_
  simp only [List.cons_append] at h
  generalize m ++ k = l at h d'
  cases l
  case nil      => exact nil
  case cons y l => exact remove_head h d'

end LinkRing
