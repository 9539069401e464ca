import Mathlib.Data.List.Destutter
import Mathlib.Data.List.Nodup
import Mathlib.Data.List.TakeWhile

universe u

-- An element of a linked list, with the identity by which iterators refer to it.
structure Node (α : Type u) where
  id    : Nat
  value : α

-- Linked lists which are accessed through iterators. The identities of new nodes have not been used
-- before, not even by nodes which are not in the list anymore.
structure NodeList (α : Type u) where
  nodes : List (Node α)
  fresh : Nat
  nodup : (nodes.map Node.id).Nodup
  below : ∀ n ∈ nodes, n.id < fresh

-- An iterator refers to the node with a given identity, or to the end of the list.
abbrev Iterator := Option Nat

namespace NodeList

variable {α : Type u}

def empty : NodeList α where
  nodes := []
  fresh := 0
  nodup := .nil
  below := nofun

def values (l : NodeList α) : List α :=
  l.nodes.map Node.value

def ids (l : NodeList α) : List Nat :=
  l.nodes.map Node.id

def pushFront (l : NodeList α) (a : α) : NodeList α where
  nodes := { id := l.fresh, value := a } :: l.nodes
  fresh := l.fresh + 1
  nodup := by
    rw [List.map_cons, List.nodup_cons]
    refine ⟨fun h => ?_, l.nodup⟩
    have ⟨n, hn, he⟩ := List.mem_map.mp h
    exact absurd he <| Nat.ne_of_lt <| l.below n hn
  below := by
    intro n hn
    cases List.mem_cons.mp hn
    case inl he => exact he ▸ Nat.lt_succ_self _
    case inr hn => exact (l.below n hn).trans <| Nat.lt_succ_self _

-- Nodes are taken out of the list, and the others stay what they are.
def restrict (l : NodeList α) (nodes : List (Node α)) (h : nodes.Sublist l.nodes) : NodeList α where
  nodes := nodes
  fresh := l.fresh
  nodup := l.nodup.sublist <| h.map Node.id
  below := fun n hn => l.below n <| h.subset hn

def filter (l : NodeList α) (p : α → Bool) : NodeList α :=
  l.restrict (l.nodes.filter (p ·.value)) List.filter_sublist

def erase (l : NodeList α) (i : Nat) : NodeList α :=
  l.restrict (l.nodes.filter (·.id ≠ i)) List.filter_sublist

-- Of adjacent nodes with the same value, only the first one stays.
def unique [DecidableEq α] (l : NodeList α) : NodeList α :=
  l.restrict (l.nodes.destutter (·.value ≠ ·.value)) (List.destutter_sublist ..)

-- The iterator at the first node.
def first (l : NodeList α) : Iterator :=
  l.nodes.head?.map Node.id

-- The nodes in front of an iterator, and those from there on.
def front (l : NodeList α) : Iterator → List (Node α)
  | none   => l.nodes
  | some i => l.nodes.takeWhile (·.id ≠ i)

def rest (l : NodeList α) : Iterator → List (Node α)
  | none   => []
  | some i => l.nodes.dropWhile (·.id ≠ i)

-- An iterator cannot be used anymore once its node has been erased.
def Valid (l : NodeList α) (it : Iterator) : Prop :=
  ∀ i ∈ it, i ∈ l.ids

-- The element under an iterator, which is only defined for valid ones that are not at the end.
def deref (l : NodeList α) (it : Iterator) : Option α :=
  (l.rest it).head?.map Node.value

def advance (l : NodeList α) (it : Iterator) : Option Iterator :=
  match l.rest it with
  | []      => none
  | _ :: ns => some (ns.head?.map Node.id)

variable {l : NodeList α} {it : Iterator} {n : Node α} {ns ms : List (Node α)} {a : α} {i : Nat}

theorem filter_values {p : α → Bool} : (l.filter p).values = l.values.filter p := by
  rw [values, values, List.filter_map]
  rfl

theorem unique_values [DecidableEq α] : l.unique.values = l.values.destutter (· ≠ ·) :=
  List.map_destutter fun _ _ _ _ => .rfl

theorem front_append_rest (l : NodeList α) (it : Iterator) : l.front it ++ l.rest it = l.nodes := by
  cases it
  case none   => exact List.append_nil _
  case some i => exact List.takeWhile_append_dropWhile

-- The nodes of a list are found by their identities.
theorem rest_of_append (h : l.nodes = ms ++ n :: ns) : l.rest (some n.id) = n :: ns := by
  have hn := l.nodup
  rw [h, List.map_append, List.map_cons, List.nodup_append] at hn
  rw [rest, h, List.dropWhile_append_of_pos, List.dropWhile_cons_of_neg]
  · simp
  · intro m hm
    have hne := hn.right.right m.id (List.mem_map_of_mem hm) n.id List.mem_cons_self
    exact decide_eq_true hne

theorem rest_first : l.rest l.first = l.nodes := by
  cases h : l.nodes
  case nil       => simp [first, h, rest]
  case cons n ns =>
    have hf : l.first = some n.id := by simp [first, h]
    have hnil : l.nodes = [] ++ n :: ns := h
    rw [hf]
    exact rest_of_append hnil

theorem iterator_of_rest (h : l.rest it = n :: ns) : it = some n.id := by
  cases it
  case none   => contradiction
  case some i =>
    have hn := List.head?_dropWhile_not (fun m : Node α => decide (m.id ≠ i)) l.nodes
    rw [← rest, h] at hn
    have he : n.id = i := by simpa using hn
    rw [he]

-- An iterator which is advanced refers to the node behind.
theorem rest_next (h : l.rest it = n :: ns) : l.rest (ns.head?.map Node.id) = ns := by
  have happ := front_append_rest l it
  rw [h] at happ
  cases ns
  case nil       => rfl
  case cons m ns =>
    rw [List.append_cons] at happ
    exact rest_of_append happ.symm

theorem deref_eq (h : l.rest it = n :: ns) : l.deref it = some n.value := by
  rw [deref, h]
  rfl

theorem advance_eq (h : l.rest it = n :: ns) : l.advance it = some (ns.head?.map Node.id) := by
  rw [advance, h]

-- Nothing can be found by an iterator to an erased node.
theorem rest_erase : (l.erase i).rest (some i) = [] := by
  apply List.dropWhile_eq_nil_iff.mpr
  intro n hn
  exact (List.mem_filter.mp hn).right

theorem rest_of_valid (h : l.Valid (some i)) : ∃ n ns, l.rest (some i) = n :: ns := by
  have ⟨n, hn, he⟩ := List.mem_map.mp (h i rfl)
  cases hr : l.rest (some i)
  case nil       => exact absurd he <| by simpa using List.dropWhile_eq_nil_iff.mp hr n hn
  case cons n ns => exact ⟨n, ns, rfl⟩

theorem valid_of_rest (h : l.rest it = n :: ns) : l.Valid it := by
  intro i hi
  cases (iterator_of_rest h).symm.trans hi
  apply List.mem_map_of_mem
  rw [← front_append_rest l it, h]
  exact List.mem_append_right _ List.mem_cons_self

theorem valid_first : l.Valid l.first := by
  cases h : l.nodes
  case nil       => simp [Valid, first, h]
  case cons n ns => exact valid_of_rest <| rest_first.trans h

-- Unless it is at the end, a valid iterator stays valid when it is advanced.
theorem valid_next (h : l.rest it = n :: ns) : l.Valid (ns.head?.map Node.id) := by
  cases hn : ns
  case nil       => exact nofun
  case cons m ms => exact valid_of_rest <| hn ▸ rest_next h

end NodeList
