import Kpr.Lib.Words
import Mathlib.Data.List.Basic

-- Scanning through a part of a list which is given by two positions.

variable {α : Type*} {p : α → Bool} {l ws rs : List α} {i j e : Nat}

-- The elements from the position `i` on, up to the position `e`.
def slice (l : List α) (i e : Nat) : List α :=
  (l.drop i).take (e - i)

-- The first position from `i` on with an element on which the loop stops, or the end if there are
-- only `left` elements left. There is no result if a position outside of the list is read.
def scan (stop : α → Bool) (l : List α) : (left : Nat) → (i : Nat) → Option Nat
  | 0, i        => some i
  | left + 1, i =>
    match l[i]? with
    | none   => none
    | some a => if stop a then some i else scan stop l left (i + 1)

theorem slice_self : slice l i i = [] := by
  simp [slice]

theorem slice_length (he : e ≤ l.length) : (slice l i e).length = e - i := by
  rw [slice, List.length_take, List.length_drop]
  exact Nat.min_eq_left (Nat.sub_le_sub_right he i)

theorem slice_cons (hi : i < e) (hl : i < l.length) : slice l i e = l[i] :: slice l (i + 1) e := by
  have hn : e - i = e - (i + 1) + 1 := by omega
  rw [slice, List.drop_eq_getElem_cons hl, hn, List.take_succ_cons]
  rfl

-- A part is divided by each position in it.
theorem slice_append (hi : i ≤ j) (hj : j ≤ e) : slice l i j ++ slice l j e = slice l i e := by
  rw [slice, slice, slice, ← Nat.sub_add_sub_cancel hj hi, Nat.add_comm, List.take_add, List.drop_drop,
    Nat.add_sub_cancel' hi]

-- Where a scan ends, together with what is in front of this position and behind it.
structure Stopped (stop : α → Bool) (l : List α) (i e j : Nat) : Prop where
  le    : i ≤ j
  fin   : j ≤ e
  front : slice l i j = (slice l i e).takeWhile (!stop ·)
  rest  : slice l j e = (slice l i e).dropWhile (!stop ·)

-- A scan within the list does not read outside of it, and ends at the first element which stops it.
theorem scan_stopped (hi : i ≤ e) (he : e ≤ l.length) :
    ∃ j, scan p l (e - i) i = some j ∧ Stopped p l i e j := by
  generalize hn : e - i = n
  induction n generalizing i
  case zero =>
    have heq : i = e := Nat.le_antisymm hi (Nat.le_of_sub_eq_zero hn)
    refine ⟨i, rfl, Nat.le_refl i, hi, ?_, ?_⟩ <;> simp [heq, slice_self]
  case succ n ih =>
    have hlt : i < e := Nat.lt_of_sub_eq_succ hn
    have hlen : i < l.length := Nat.lt_of_lt_of_le hlt he
    simp only [scan, List.getElem?_eq_getElem hlen]
    cases hs : p l[i]
    case true =>
      refine ⟨i, rfl, Nat.le_refl i, hi, ?_, ?_⟩ <;> simp [slice_cons hlt hlen, slice_self, hs]
    case false =>
      have ⟨j, hj, hle, hfin, hfront, hrest⟩ := ih hlt (by omega)
      refine ⟨j, hj, Nat.le_of_succ_le hle, hfin, ?_, ?_⟩
      · rw [slice_cons (Nat.lt_of_succ_le hle) hlen, hfront, slice_cons hlt hlen,
          List.takeWhile_cons, hs]
        rfl
      · rw [hrest, slice_cons hlt hlen, List.dropWhile_cons, hs]
        rfl

-- A scan for a separator goes through the parts between the separators.
theorem Stopped.splitOn_eq [DecidableEq α] {a : α} (h : Stopped (decide <| · = a) l i e j)
    (he : e ≤ l.length) : (slice l i e).splitOn a =
      if j = e then [slice l i e] else slice l i j :: (slice l (j + 1) e).splitOn a := by
  have hn : a ∉ slice l i j := by
    intro hm
    rw [h.front] at hm
    exact absurd (List.mem_takeWhile_imp hm) (by simp)
  split
  case isTrue hj => exact List.splitOn_eq_singleton (hj ▸ hn)
  case isFalse hj =>
    have hlt : j < e := Nat.lt_of_le_of_ne h.fin hj
    have hr := h.rest
    have hlen : j < l.length := Nat.lt_of_lt_of_le hlt he
    rw [slice_cons hlt hlen] at hr
    have ha : l[j] = a := by
      have hh := List.dropWhile_not_head (p := (decide <| · = a)) (l := slice l i e)
      simpa [← hr] using hh
    rw [← slice_append h.le h.fin, slice_cons hlt hlen, ha]
    exact List.splitOn_append_cons_self_of_not_mem hn _
