import Kpr.MemList.Theorems.Runs

open Machine

namespace MemList

variable {s s' : Heap} {c : Call} {cs : List Call} {k : Nat} {kernel : Nat → DataspaceReply}
  {mem : Memory}

theorem Pool.Within.served (h : s.pool.Within s.regions) (hs : s.pool.Shaped)
    (hg : s.PaddingWithin c) (hv : Served s c s') : s'.pool.Within s'.regions := by
  cases hv
  case hole hc hr hp =>
    rw [hp, hr]
    exact h.malloc hs (hg.right _ rfl) (absurd · hc)
  case region hc hr hp =>
    have hw : s.pool.Within (s.nextRegion :: s.regions) := fun b hb =>
      have ⟨ρ, hρ, hi⟩ := h b hb
      ⟨ρ, List.mem_cons_of_mem _ hρ, hi⟩
    rw [hp, hr]
    exact hw.malloc hs (by simp [Pool.PaddingWithin, hc]) fun _ => List.mem_cons_self
  case free hr hp => exact hp ▸ hr ▸ h.free ‹_›

-- Blocks stay within the regions in runs in which the padded ones do.
theorem within_of_paddingWithin
    (h : Run (Guarded Heap.PaddingWithin (Transition EXT_MEM)) (.init kernel mem) cs s) :
    s.pool.Within s.regions := by
  have h := h.invariant (P := fun s => s.Consistent ∧ s.pool.Within s.regions)
    ⟨consistent_init, by simp [pool_init, Pool.Within, Pool.blocks, Pool.empty]⟩
    fun ⟨hc, hw⟩ ⟨hg, ht⟩ => ?_
  · exact h.right
  · obtain ⟨hc', hv, _⟩ := ht.served hc hg.left
    exact ⟨hc', hw.served hc.shaped hg hv⟩

theorem within_of_two_calls : ∃ s, Run (Guarded Heap.PaddingWithin (Transition EXT_MEM)) .boot
    [.malloc 8, .malloc 20000] s ∧ s.pool.Within s.regions := by
  have ⟨s, h, _⟩ := exists_run EXT_MEM Heap.PaddingWithin .boot
    [.malloc 8, .malloc 20000] (fun _ => True) (by decide +kernel)
  exact ⟨s, h, within_of_paddingWithin h⟩

-- The hole behind `k` blocks of 8 bytes. The block before it takes 24 bytes together with its
-- header and the padding, but the hole only gets smaller by 20.
def tailHole (k : Nat) : Block where
  addr := 65540 + 24 * k
  size := EXT_MEM - 20 * k

structure Heap.Tail (s : Heap) (k : Nat) : Prop where
  consistent : s.Consistent
  regions    : s.regions = [65536]
  holes      : s.pool.holes = [tailHole k]
  live       : ∀ b ∈ s.pool.live, b.payload ≤ (tailHole k).addr

theorem tailHole_rest (h : k ≤ 1600) : (tailHole k).rest 8 = some (tailHole (k + 1)) := by
  have hs : (tailHole k).Splits 8 := by
    simp only [Block.Splits, tailHole, EXT_MEM, sizeofDmemElem]
    omega
  have hp : Block.padding 8 = 4 := rfl
  rw [Block.rest, if_pos hs]
  simp only [tailHole, Block.payload, hp, EXT_MEM, sizeofDmemElem]
  congr 2

theorem Heap.Tail.next (h : s.Tail k) (hk : k ≤ 1600) :
    ∃ s', Transition EXT_MEM s (.malloc 8) s' ∧ s'.Tail (k + 1) := by
  have hsize : 8 ≤ (tailHole k).size := by
    simp only [tailHole, EXT_MEM]
    omega
  have hf : s.pool.fitting (rounded 8) = some (tailHole k) := by
    rw [Pool.fitting, h.holes, show rounded 8 = 8 from rfl]
    simp [hsize]
  have hrest := tailHole_rest hk
  have haddr : (tailHole k).payload ≤ (tailHole (k + 1)).addr := Block.le_rest_addr hrest
  have hadded {ρ} : s.pool.added (rounded 8) ρ = [tailHole (k + 1)] := by
    rw [Pool.added, hf]
    exact congrArg Option.toList hrest
  have hfit : s.pool.HeadersFit (rounded 8) s.nextRegion := by
    intro c hc
    rw [hadded, List.mem_singleton] at hc
    refine ⟨?_, fun b hb => .inl ?_⟩
    · simp only [hc, Block.payload, tailHole, sizeofDmemElem]
      omega
    · cases Pool.mem_blocks.mp hb
      case inl hb => exact hc ▸ (h.live b hb).trans ((Nat.le_add_right ..).trans haddr)
      case inr hb => exact hc ▸ (List.mem_singleton.mp <| h.holes ▸ hb) ▸ haddr
  have hs := h.consistent.shaped
  obtain ⟨s', he, h', ht⟩ := malloc_spec h.consistent.represents.clear hs (n := 8) (by decide) hfit
    (fun hn => by simp [hf] at hn) (fun hn => by simp [hf] at hn)
  have hs' := hs.malloc (rounded_spec 8).left hfit (fun hn => by simp [hf] at hn)
  have hr : s'.regions = [65536] := ht.regions.trans <| by simp [hf, h.regions]
  have hp := (h'.pool_eq hs').trans <|
    Pool.malloc_of_hole h.holes (List.forall_mem_nil _) hsize hf
  have h₈ : 8 ≤ EXT_MEM := by decide
  refine ⟨s', ⟨h₈, step_malloc.mpr ⟨_, he⟩, hr ▸ by decide⟩, h'.consistent hs', hr, ?_, ?_⟩
  · rw [hp, List.nil_append, List.append_nil]
    exact congrArg Option.toList hrest
  · intro b hb
    rw [hp] at hb
    cases List.mem_insertBehind.mp hb
    case inl hb => exact hb ▸ Block.front_payload (b := tailHole k) ▸ haddr
    case inr hb => exact (h.live b hb).trans ((Nat.le_add_right ..).trans haddr)

theorem tail_run (hk : k ≤ 1600) :
    ∃ s, Run (Transition EXT_MEM) .boot (List.replicate (k + 1) (.malloc 8)) s ∧ s.Tail (k + 1) := by
  induction k
  case zero =>
    have ⟨s, hr, hs, hl, hh⟩ := exists_run EXT_MEM Heap.HeadersFit .boot
      [.malloc 8] (fun s => s.regions = [65536] ∧
        s.pool.live = [{ addr := 65540, size := 8 }] ∧ s.pool.holes = [tailHole 1])
      (by decide +kernel)
    exact ⟨s, hr.mono (·.step), consistent_of_run hr, hs, hh, by simp only [hl]; decide⟩
  case succ k hi =>
    have ⟨s, hr, ht⟩ := hi (by omega)
    have ⟨s', ht, ht'⟩ := ht.next hk
    exact ⟨s', List.replicate_succ' ▸ hr.snoc ht, ht'⟩

-- The padding of 1021 blocks is larger than the space behind the last block of a region.
theorem hole_leaves_region : ¬∀ kernel mem cs s,
    Run (Transition EXT_MEM) (.init kernel mem) cs s → s.pool.Within s.regions := by
  intro h
  have ⟨s, hr, ht⟩ := tail_run (k := 1020) (by decide)
  have ⟨ρ, hρ, hi⟩ := h _ _ _ s hr (tailHole 1021) (by simp [Pool.blocks, ht.holes])
  simp only [ht.regions, List.mem_singleton] at hρ
  exact absurd hi (hρ ▸ by decide)

end MemList
