import Kpr.MemList.Theorems.Search
import Kpr.MemList.Theorems.Pool
import Kpr.MemList.Theorems.Log
import Kpr.MemList.Runs

open Machine Except

namespace MemList

variable {s s' : Heap} {n p r : Nat}

-- Whether `malloc(n)` calls `extendMem`, either because there are no holes or because none fits.
def Heap.Extends (s : Heap) (n : Nat) : Prop :=
  s.holesHead = NULL ∨ findHole s (alignSize s n).1 loopBound s.holesHead = .ok none

-- What is expected if there is no memory: the call has no effect and returns `NULL`.
structure Refused (s : Heap) (p : Nat) (s' : Heap) : Prop where
  null          : p = NULL
  processesHead : s'.processesHead = s.processesHead
  holesHead     : s'.holesHead = s.holesHead
  headers       : ∀ b ∈ s.pool.blocks, ∀ f, s'.word b.addr f = s.word b.addr f

theorem takeHole_fst : (takeHole s p r).Ensures (·.1 = Word.add p sizeofDmemElem) := by
  simp [takeHole]

theorem takeRegion_fst :
    (takeRegion s r).Ensures (·.1 = Word.add (align s.nextRegion) sizeofDmemElem) := by
  simp [takeRegion, extendMem, Heap.nextRegion]

-- What is done with the result of `extendMem` does not depend on whether it is `NULL`.
theorem malloc_extended (hn : n ≤ EXT_MEM) (he : s.Extends n) :
    (malloc s n).Ensures (·.1 = Word.add (align s.nextRegion) sizeofDmemElem) := by
  have hr := rounded_le hn
  rw [Heap.Extends, alignSize_eq hn] at he
  simp only [malloc, alignSize_eq hn, ensures_bind, ensures_ite, ensures_pure]
  constructor
  case left =>
    refine fun _ => (createHoles_search (rounded n)).mono fun s' hf => ?_
    rw [hf, if_pos hr, ensures_ok]
    exact takeHole_fst
  case right =>
    intro hh
    rw [he.resolve_left hh, ensures_ok]
    exact takeRegion_fst

-- The pointer which is returned if there is no memory is not `NULL`.
theorem not_refused (hn : n ≤ EXT_MEM) (he : s.clear.Extends n) (hr : s.nextRegion = NULL) :
    ¬∃ p s', malloc s.clear n = .ok (p, s') ∧ Refused s p s' := by
  intro ⟨p, s', hm, href⟩
  have hp : p = Word.add (align s.clear.nextRegion) sizeofDmemElem := malloc_extended hn he _ hm
  have hnull : s.clear.nextRegion = NULL := hr
  rw [href.null, hnull] at hp
  exact absurd hp (by decide)

-- A heap in an environment without memory.
def Heap.exhausted : Heap :=
  .init (fun _ => { capValid := false, allocErr := 0, attachErr := 0, addr := NULL }) fun _ => 0

-- The very first request.
theorem not_refused_exhausted : ¬∃ p s', malloc Heap.exhausted.clear 4 = .ok (p, s') ∧
    Refused Heap.exhausted p s' :=
  not_refused (by decide) (.inl rfl) rfl

theorem null_not_returned : ¬∀ kernel mem cs s n, Run (Transition EXT_MEM) (.init kernel mem) cs s →
    n ≤ EXT_MEM → s.clear.Extends n → s.nextRegion = NULL →
      ∃ p s', malloc s.clear n = .ok (p, s') ∧ Refused s p s' := by
  intro h
  have h := h _ _ _ Heap.exhausted 4 .refl (by decide) (.inl rfl) rfl
  have ⟨⟨p, s'⟩, he, hp⟩ := exists_ok (x := malloc Heap.exhausted.clear 4) (fun x => x.1 ≠ NULL)
    (by decide +kernel)
  have ⟨p', s'', he', hr⟩ := h
  cases he.symm.trans he'
  exact hp hr.null

end MemList
