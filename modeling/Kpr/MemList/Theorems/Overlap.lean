import Kpr.MemList.Theorems.Runs

open Machine

namespace MemList

variable {s s' : Heap} {c : Call} {cs : List Call} {kernel : Nat → DataspaceReply} {mem : Memory}

-- No two blocks overlap, thus no two live payloads do, and no header was written into a payload.
structure Heap.NoOverlap (s : Heap) : Prop where
  extents  : s.pool.blocks.Pairwise Block.Apart
  payloads : s.pool.live.Pairwise fun b c => Apart b.payload b.fin c.payload c.fin
  headers  : ∀ e ∈ s.written, ∀ b ∈ s.pool.blocks, Apart e (e + sizeofDmemElem) b.payload b.fin

theorem Pool.Separated.served (h : s.pool.Separated) (hs : s.pool.Shaped) (hg : s.PaddingFits c)
    (hv : Served s c s') : s'.pool.Separated := by
  cases hv
  case hole hp   => exact hp ▸ h.malloc hs (hg _ rfl)
  case region hp => exact hp ▸ h.malloc hs (hg _ rfl)
  case free hp   => exact hp ▸ h.free ‹_›

theorem Heap.PaddingFits.headersFit (h : s.PaddingFits c) (hp : s.pool.Separated)
    (hs : s.pool.Shaped) : s.HeadersFit c := by
  cases c
  case free p   => exact nofun
  case malloc n =>
    intro r hr
    cases Option.mem_some.mp hr
    exact (h _ hr).headersFit hp hs (rounded_spec n).left

theorem Pool.Separated.noOverlap (h : s.pool.Separated)
    (hw : ∀ p ∈ s.written, p ∈ s.pool.addrs) : s.NoOverlap where
  extents := h.apart
  payloads := by
    refine (List.pairwise_append.mp h.apart).left.imp fun {b c} h => ?_
    simp only [Block.Apart, Apart, Block.fin, Block.payload] at *
    omega
  headers := by
    intro e he b hb
    obtain ⟨d, hd, hde⟩ := hw e he
    by_cases hdb : d = b
    case pos => exact .inl (by rw [← hde, hdb, Block.payload])
    case neg =>
      have h := h.apart.forall hd hb hdb
      simp only [Block.Apart, Apart, Block.fin, Block.payload, ← hde] at *
      omega

-- Blocks never overlap in runs in which the padding always fits.
theorem noOverlap_of_paddingFits
    (h : Run (Guarded Heap.PaddingFits (Transition EXT_MEM)) (.init kernel mem) cs s) :
    s.NoOverlap := by
  have h := h.invariant
    (P := fun s => s.Consistent ∧ s.pool.Separated ∧ ∀ p ∈ s.written, p ∈ s.pool.addrs)
    ⟨consistent_init, ?_, nofun⟩ fun ⟨hc, hp, _⟩ ⟨hg, ht⟩ => ?_
  · exact h.right.left.noOverlap h.right.right
  · constructor <;> simp [pool_init, Pool.blocks, Pool.empty]
  · obtain ⟨hc', hv, _, hw⟩ := ht.served hc (hg.headersFit hp hc.shaped)
    exact ⟨hc', hp.served hc.shaped hg hv, hw⟩

-- A hole of 44 bytes is split behind 12 of them, where no padding is needed.
theorem noOverlap_of_split : ∃ s, Run (Guarded Heap.PaddingFits (Transition EXT_MEM)) .boot
    [.malloc 44, .malloc 8, .free 65552, .malloc 12] s ∧ s.NoOverlap := by
  have ⟨s, h, _⟩ := exists_run EXT_MEM Heap.PaddingFits .boot
    [.malloc 44, .malloc 8, .free 65552, .malloc 12] (fun _ => True) (by decide +kernel)
  exact ⟨s, h, noOverlap_of_paddingFits h⟩

-- The hole which the first block leaves ends right in front of the second block. Once it is split
-- behind 8 bytes, the remainder reaches into that block.
theorem extents_overlap : ¬∀ kernel mem cs s,
    Run (Transition EXT_MEM) (.init kernel mem) cs s → s.NoOverlap := by
  intro h
  have ⟨s, hr, ho⟩ := exists_run EXT_MEM (fun _ _ => True) .boot
    [.malloc 44, .malloc 4, .free 65552, .malloc 8]
    (fun s => ¬s.pool.blocks.Pairwise Block.Apart) (by decide +kernel)
  exact ho (h _ _ _ s <| hr.mono (·.step)).extents

end MemList
