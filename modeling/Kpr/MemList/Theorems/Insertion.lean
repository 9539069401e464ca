import Kpr.MemList.Theorems.Represents

open Machine

namespace MemList

variable {s s' : Heap} {l : ListId} {es es₁ es₂ : List Nat} {e x y : Nat}

def insertIntoList : ListId → Heap → Nat → Except Fault Heap
  | .processes => insertIntoProcesses
  | .holes     => insertIntoHoles

-- The processes are in strictly ascending order of their addresses, the holes are in ascending order
-- of their sizes.
def Heap.Precedes (s : Heap) : ListId → Nat → Nat → Prop
  | .processes, x, y => x < y
  | .holes,     x, y => s.size x ≤ s.size y

instance : Decidable (s.Precedes l x y) :=
  match l with
  | .processes => inferInstanceAs (Decidable (_ < _))
  | .holes     => inferInstanceAs (Decidable (_ ≤ _))

-- A well-formed list which is sorted from its head on.
structure SortedList (s : Heap) (l : ListId) (es : List Nat) : Prop where
  threaded : Threaded s l es
  sorted   : es.Pairwise (s.Precedes l)

-- The element `e` has been inserted behind the elements `es₁` and in front of `es₂`.
structure Inserted (s : Heap) (l : ListId) (es₁ es₂ : List Nat) (e : Nat) (s' : Heap) : Prop where
  list   : SortedList s' l (es₁ ++ e :: es₂)
  before : ∀ x ∈ es₁, s.Precedes l x e
  behind : ∀ x ∈ es₂, ¬s.Precedes l x e
  head   : s'.head l ≠ s.head l ↔ es₁ = []
  sizes  : ∀ x ∈ es₁ ++ e :: es₂, s'.size x = s.size x
  other  : ∀ k ≠ l, s'.head k = s.head k

namespace Heap

theorem precedes_trans {z : Nat} (h : s.Precedes l x y) (h' : s.Precedes l y z) :
    s.Precedes l x z := by
  cases l
  case processes => exact Nat.lt_trans h h'
  case holes     => exact Nat.le_trans h h'

theorem precedes_of_not (h : ¬s.Precedes l x y) (hxy : x ≠ y) : s.Precedes l y x := by
  cases l
  case processes => exact Nat.lt_of_le_of_ne (Nat.le_of_not_lt h) hxy.symm
  case holes     => exact Nat.le_of_not_le h

theorem precedes_congr (h : ∀ x ∈ es, s'.size x = s.size x) (hx : x ∈ es) (hy : y ∈ es) :
    s'.Precedes l x y ↔ s.Precedes l x y := by
  cases l
  case processes => exact Iff.rfl
  case holes     => simp only [Precedes, h x hx, h y hy]

end Heap

-- The new element ends up behind all those which are to precede it.
theorem insertIntoList_spec (hS : Headers {x | x = e ∨ x ∈ es}) (h : Threaded s l es) (hne : es ≠ [])
    (hn : e ∉ es) :
    ∃ s', insertIntoList l s e = .ok s' ∧
      Relinked {x | x = e ∨ x ∈ es} {x | x = e ∨ x ∈ es} s s' ∧
      Threaded s' l (es.insertBehind (s.Precedes l · e) e) ∧ ∀ k ≠ l, s'.head k = s.head k := by
  have hs : ∀ x ∈ es, x ∈ {x | x = e ∨ x ∈ es} := fun _ => .inr
  have hnull := (h.head_eq_null_iff hS hs).not.mpr hne
  have hset : {x | x ∈ es.insertBehind (s.Precedes l · e) e} = {x | x = e ∨ x ∈ es} :=
    Set.ext fun _ => List.mem_insertBehind
  rw [← hset] at hS ⊢
  have hmem : ∀ x ∈ es, x ∈ {x | x ∈ es.insertBehind (s.Precedes l · e) e} :=
    fun x hx => List.mem_insertBehind.mpr <| .inr hx
  have he : e ∈ {x | x ∈ es.insertBehind (s.Precedes l · e) e} := List.mem_insertBehind.mpr <| .inl rfl
  cases l
  case processes =>
    have hspec := enter_spec (fun _ x e => return x < e) (fun _ x e => return x > e) hS h hmem he hn
      (fun _ _ _ _ => rfl) fun _ _ x hx => congrArg Except.ok (processes_before hn hx)
    rwa [if_neg hnull] at hspec
  case holes =>
    have hspec := enter_spec (fun s x e => return (← s.load x .size) ≤ (← s.load e .size))
      (fun s x e => return (← s.load x .size) > (← s.load e .size)) hS h hmem he hn
      (fun _ ht x hx => holes_passes hS (hmem x hx) he ht)
      fun _ ht x hx => holes_before hS (hmem x hx) he ht
    rwa [if_neg hnull] at hspec

-- Both insertions return, and they maintain the order of a list which is not empty.
theorem insertIntoList_sorted (hS : Headers {x | x = e ∨ x ∈ es}) (h : SortedList s l es)
    (hne : es ≠ []) (hn : e ∉ es) :
    ∃ s' es₁ es₂, insertIntoList l s e = .ok s' ∧ es = es₁ ++ es₂ ∧ Inserted s l es₁ es₂ e s' := by
  have ⟨s', he, hr, ht, hother⟩ := insertIntoList_spec hS h.threaded hne hn
  have hes : es.takeWhile (s.Precedes l · e) ++ es.dropWhile (s.Precedes l · e) = es :=
    List.takeWhile_append_dropWhile
  have hsizes : ∀ x ∈ es.insertBehind (s.Precedes l · e) e, s'.size x = s.size x :=
    fun x hx => hr.size x <| List.mem_insertBehind.mp hx
  refine ⟨s', _, _, he, hes.symm, ?_⟩
  constructor
  case list =>
    refine ⟨ht, ?_⟩
    have hsorted : (es.insertBehind (s.Precedes l · e) e).Pairwise (s.Precedes l) := by
      apply h.sorted.insertBehind Heap.precedes_trans
      case hp => exact fun x _ hx => of_decide_eq_true hx
      case hn => exact fun x hx hp => Heap.precedes_of_not (by simpa using hp) fun hxe => hn (hxe ▸ hx)
    exact hsorted.imp_of_mem fun hx hy => (Heap.precedes_congr hsizes hx hy).mpr
  case before =>
    intro x hx
    have hx := List.mem_takeWhile_imp hx
    exact of_decide_eq_true hx
  case behind =>
    intro x hx
    have hx := h.sorted.not_of_mem_dropWhile (fun hab hb => ?_) hx
    · exact fun hp => hx <| decide_eq_true hp
    · exact decide_eq_true <| Heap.precedes_trans hab <| of_decide_eq_true hb
  case head =>
    have hhead : s'.head l = _ := ht.head
    rw [hhead, h.threaded.head, List.insertBehind]
    cases es
    case nil         => contradiction
    case cons x es =>
      by_cases hp : s.Precedes l x e
      case pos => simp [hp]
      case neg =>
        have hxe : e ≠ x := fun h => hn <| h ▸ List.mem_cons_self
        simpa [hp] using hxe
  case sizes => exact hsizes
  case other => exact hother

-- Two holes of 8 and 20 bytes, and an element of 20 bytes at the address 300.
def Heap.twoHoles : Heap where
  mem a         := match a with
    | 100       => 8
    | 104 | 108 => 200
    | 200       => 20
    | 204 | 208 => 100
    | 300       => 20
    | _         => 0
  processesHead := NULL
  holesHead     := 100
  kernel _      := .granted 65536
  regions       := []
  written       := []
  wrapped       := false

theorem twoHoles_sorted : SortedList .twoHoles .holes [100, 200] where
  threaded := ⟨rfl, LinkRing.of_isChain (by decide) (by decide) (by simp [Linked]; decide)⟩
  sorted   := by decide

-- The new element is exchanged with the last one of the list.
theorem insertIntoList_sorted_twoHoles : ∃ s' es₁ es₂,
    insertIntoList .holes .twoHoles 300 = .ok s' ∧ [100, 200] = es₁ ++ es₂ ∧
      Inserted .twoHoles .holes es₁ es₂ 300 s' := by
  apply insertIntoList_sorted _ twoHoles_sorted (by decide) (by decide)
  constructor <;> simp [NULL, Apart, sizeofDmemElem]

end MemList
