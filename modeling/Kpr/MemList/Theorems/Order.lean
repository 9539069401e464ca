import Kpr.MemList.Theorems.Requests

open Machine

namespace MemList

variable {s s' : Heap} {b : Block} {c : Call} {cs : List Call} {n : Nat}
  {kernel : Nat → DataspaceReply} {mem : Memory}

theorem Pool.Sorted.served (h : s.pool.Sorted) (hg : s.RestInOrder c) (hv : Served s c s') :
    s'.pool.Sorted := by
  cases hv
  case hole hp   => exact hp ▸ (Pool.sorted_malloc_iff h).mpr (hg.right _ rfl)
  case region hp => exact hp ▸ (Pool.sorted_malloc_iff h).mpr (hg.right _ rfl)
  case free hp   => exact hp ▸ h.free

-- The pointer of a hole is only returned if the hole fits.
theorem fitting_of_pointer (hs : s.pool.Shaped) (hf : s.pool.HeadersFit (rounded n) s.nextRegion)
    (hb : b ∈ s.pool.holes)
    (hp : b.pointer = (s.pool.taken (rounded n) s.nextRegion).pointer) :
    s.pool.fitting (rounded n) = some b := by
  have hbm := Pool.mem_blocks.mpr <| .inr hb
  have haddr {c : Block} (hc : c.payload ≤ 2 ^ 32) (hp : b.pointer = c.pointer) :
      b.addr = c.addr := by
    rw [← Block.sub_pointer (hs.below b hbm), hp, Block.sub_pointer hc]
  cases hc : s.pool.fitting (rounded n)
  case some c =>
    have hcm := Pool.fitting_mem hc
    have he := haddr (hs.below c hcm) (by simpa [Pool.taken, hc] using hp)
    by_cases hbc : b = c
    case pos => rw [hbc]
    case neg => exact absurd he (hs.headers.forall hbm hcm hbc).ne
  case none =>
    obtain ⟨h₁, h₂⟩ := hf _ (Pool.mem_added_front hc)
    rw [Block.front_payload] at h₁
    exact absurd (haddr h₁ hp) <| by simpa using (h₂ b hbm).ne

-- Holes are sorted in runs in which no remainder is smaller than a hole in front of it. Then, no
-- hole which is smaller than the one which is taken could have been taken instead.
theorem sorted_of_restInOrder
    (h : Run (Guarded Heap.RestInOrder (Transition EXT_MEM)) (.init kernel mem) cs s) :
    s.pool.Sorted ∧ ∀ size p s', malloc s.clear size = .ok (p, s') →
      Guarded Heap.RestInOrder (Transition EXT_MEM) s (.malloc size) s' →
      ∀ b ∈ s.pool.holes, b.pointer = p → ∀ g ∈ s.pool.holes, g.size < b.size → g.size < size := by
  have ⟨hc, hz, hs⟩ := h.invariant (P := fun s => s.Consistent ∧ s.pool.Sized ∧ s.pool.Sorted)
    ⟨consistent_init, pool_init ▸ empty_sized, pool_init ▸ List.Pairwise.nil⟩
    fun ⟨hc, hz, hs⟩ ⟨hg, ht⟩ =>
    have ⟨hc', hv, _⟩ := ht.served hc hg.left
    have hsmall : Call.Small _ := by cases hv <;> first | exact ht.admits | trivial
    ⟨hc', hz.served hc.shaped hsmall hv, hs.served hg hv⟩
  refine ⟨hs, fun size p s' he ⟨hg, ht⟩ b hb hbp g hgm hgb => ?_⟩
  have ⟨hp, _⟩ := malloc_returns hc.represents.clear hc.shaped ht.admits (hg.left _ rfl) he
    ht.regions.ok
  have hf := fitting_of_pointer hc.shaped (hg.left _ rfl) hb (hbp.trans hp)
  have hlt := hs.bestFit hf g hgm hgb
  have hgmem := Pool.mem_blocks.mpr <| .inr hgm
  refine Nat.not_le.mp fun hle => Nat.not_le.mpr hlt ?_
  exact rounded_le_of_le hle (hc.shaped.sized g hgmem) (hz g hgmem).left

-- A block is freed and another one requested which fits but is larger.
theorem sorted_of_four_calls : ∃ s, Run (Guarded Heap.RestInOrder (Transition EXT_MEM)) .boot
    [.malloc 20, .malloc 60, .free 65552, .malloc 24] s ∧ s.pool.Sorted := by
  have ⟨s, h, _⟩ := exists_run EXT_MEM Heap.RestInOrder .boot
    [.malloc 20, .malloc 60, .free 65552, .malloc 24] (fun _ => True) (by decide +kernel)
  exact ⟨s, h, (sorted_of_restInOrder h).left⟩

-- A hole of 60 bytes comes behind one of 20. Once it is split, only 4 bytes are left of it.
theorem holes_not_sorted : ¬∀ kernel mem cs s,
    Run (Transition EXT_MEM) (.init kernel mem) cs s → s.pool.Sorted := by
  intro h
  have ⟨s, hr, hs⟩ := exists_run EXT_MEM (fun _ _ => True) .boot
    [.malloc 20, .malloc 4, .malloc 60, .malloc 4, .free 65552, .free 65600, .malloc 44]
    (fun s => ¬s.pool.holes.Pairwise (·.size ≤ ·.size)) (by decide +kernel)
  exact hs <| h _ _ _ s (hr.mono (·.step))

end MemList
