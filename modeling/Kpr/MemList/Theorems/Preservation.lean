import Kpr.MemList.Theorems.Pool

open Machine

namespace MemList

variable {a : Pool} {b c d : Block} {r ρ : Nat}

-- A block which lies within another one overlaps with nothing but what that one overlaps with.
theorem Block.Apart.of_le (h : d.Apart b) (h₁ : b.addr ≤ c.addr) (h₂ : c.fin ≤ b.fin) :
    d.Apart c := by
  simp only [Block.Apart, Machine.Apart] at *
  omega

theorem Block.Apart.headersApart_of_le (h : d.Apart b) (h₁ : b.addr ≤ c.addr)
    (h₂ : c.payload ≤ b.fin) : d.HeadersApart c := by
  simp only [Block.Apart, Block.HeadersApart, Machine.Apart, Block.fin] at *
  omega

theorem Block.fin_le_padded : b.fin ≤ (b.padded r).fin := by
  simp only [Block.padded]
  split <;> simp only [Block.fin, Block.payload] <;> omega

-- The second header lies within the block which is cut, even if it is padded.
theorem Block.rest_payload_le (hr : r % SIZE_INT = 0) (h : b.size % SIZE_INT = 0)
    (hc : c ∈ b.rest r) : c.payload ≤ b.fin := by
  have ⟨hs, hc⟩ := Block.mem_rest.mp hc
  have hp : Block.padding r ≤ 4 := by
    simp only [Block.padding]
    split <;> omega
  simp only [hc, Block.fin, Block.payload, Block.Splits, SIZE_INT, sizeofDmemElem] at *
  omega

namespace Pool

-- A new header lies within the block which is taken.
theorem added_within (hr : r % SIZE_INT = 0) (h : ∀ b ∈ a.blocks, b.size % SIZE_INT = 0)
    (hc : c ∈ a.added r ρ) : (a.taken r ρ).addr ≤ c.addr ∧ c.payload ≤ (a.taken r ρ).fin := by
  have hs : (a.taken r ρ).size % SIZE_INT = 0 :=
    taken_forall h fun _ => (by decide : EXT_MEM % SIZE_INT = 0)
  have hrest : ∀ c ∈ (a.taken r ρ).rest r,
      (a.taken r ρ).addr ≤ c.addr ∧ c.payload ≤ (a.taken r ρ).fin := by
    intro c hc
    exact ⟨(Nat.le_add_right ..).trans (Block.le_rest_addr hc), Block.rest_payload_le hr hs hc⟩
  cases hf : a.fitting r
  case some b => exact hrest c <| by simpa [added, taken, hf] using hc
  case none =>
    have hc : c = (a.taken r ρ).front r ∨ c ∈ (a.taken r ρ).rest r := by
      simpa [added, taken, hf] using hc
    cases hc
    case inr hc => exact hrest c hc
    case inl hc => exact ⟨by simp [hc], by simp [hc, Block.fin]⟩

-- Among separated blocks, headers can only be misplaced by a region which is not fresh.
theorem Separated.headersFit (h : a.Separated) (hs : a.Shaped) (hr : r % SIZE_INT = 0)
    (hρ : a.fitting r = none →
      (regionBlock ρ).fin ≤ 2 ^ 32 ∧ ∀ d ∈ a.blocks, d.Apart (regionBlock ρ)) :
    a.HeadersFit r ρ := by
  intro c hc
  have ⟨hl, hp⟩ := added_within hr hs.sized hc
  refine ⟨hp.trans <| taken_forall h.below fun hf => (hρ hf).left, fun d hd => ?_⟩
  cases hf : a.fitting r
  case none =>
    simp only [taken, hf, Option.getD_none] at hl hp
    exact ((hρ hf).right d hd).headersApart_of_le hl hp
  case some b =>
    simp only [taken, hf, Option.getD_some] at hl hp
    by_cases hdb : d = b
    case neg => exact (h.apart.forall hd (fitting_mem hf) hdb).headersApart_of_le hl hp
    case pos =>
      have hc : c ∈ b.rest r := by simpa [added, hf] using hc
      exact .inl <| hdb ▸ Block.le_rest_addr hc

theorem PaddingFits.headersFit (h : a.PaddingFits r ρ) (ha : a.Separated) (hs : a.Shaped)
    (hr : r % SIZE_INT = 0) : a.HeadersFit r ρ := by
  refine ha.headersFit hs hr fun hf => ?_
  obtain ⟨h₁, h₂⟩ := h
  simp only [taken, hf, Option.getD_none] at h₁ h₂
  refine ⟨Block.fin_le_padded.trans h₁, fun d hd => ?_⟩
  exact (h₂ d hd (by simp)).of_le (by simp) Block.fin_le_padded

-- Blocks stay apart from each other exactly as long as the padding does.
theorem Separated.malloc (h : a.Separated) (hs : a.Shaped) (hf : a.PaddingFits r ρ) :
    (a.malloc r ρ).Separated where
  below := by
    refine malloc_forall hs.nodup (fun b hb _ => h.below b hb) (Block.front_fin_le.trans hf.left)
      fun c hc => ?_
    exact Block.rest_fin_eq hc ▸ hf.left
  apart := by
    refine malloc_pairwise hs.nodup h.apart (fun c hc => Block.front_apart_rest hc) fun d hd hne => ?_
    have hp := hf.right d hd hne
    refine ⟨hp.of_le (by simp) Block.front_fin_le, fun c hc => hp.of_le ?_ ?_⟩
    · rw [Block.padded_addr]
      exact (Nat.le_add_right ..).trans (Block.le_rest_addr hc)
    · exact (Block.rest_fin_eq hc).le

theorem Separated.free (h : a.Separated) (hb : b ∈ a.live) : (a.free b).Separated where
  below c hc := h.below c <| (free_perm hb).mem_iff.mp hc
  apart      := ((free_perm hb).pairwise_iff fun h => Std.Symm.symm _ _ h).mpr h.apart

theorem Within.malloc {ρs : List Nat} (h : a.Within ρs) (hs : a.Shaped) (hp : a.PaddingWithin r ρs)
    (hρ : a.fitting r = none → ρ ∈ ρs) : (a.malloc r ρ).Within ρs := by
  have ⟨σ, hσ, hl, hr⟩ : ∃ σ ∈ ρs, ((a.taken r ρ).padded r).Inside σ := by
    cases hf : a.fitting r
    case some b => simpa [taken, hf] using hp b hf
    case none   => exact ⟨ρ, hρ hf, by simpa [taken, hf] using regionBlock_inside⟩
  rw [Block.padded_addr] at hl
  refine malloc_forall hs.nodup (fun b hb _ => h b hb)
    ⟨σ, hσ, by simpa using hl, Block.front_fin_le.trans hr⟩ fun c hc => ?_
  have hc' := (Nat.le_add_right ..).trans (Block.le_rest_addr hc)
  exact ⟨σ, hσ, hl.trans hc', Block.rest_fin_eq hc ▸ hr⟩

theorem Within.free {ρs : List Nat} (h : a.Within ρs) (hb : b ∈ a.live) : (a.free b).Within ρs :=
  fun c hc => h c <| (free_perm hb).mem_iff.mp hc

theorem Sized.malloc (h : a.Sized) (hs : a.Shaped) (hr : r % SIZE_INT = 0) (h₁ : SIZE_INT ≤ r)
    (h₂ : r ≤ EXT_MEM) : (a.malloc r ρ).Sized := by
  have hle : r ≤ (a.taken r ρ).size := le_taken_size h₂
  have ht : (a.taken r ρ).size ≤ EXT_MEM := taken_forall (fun b hb => (h b hb).right) fun _ => le_rfl
  have hm : (a.taken r ρ).size % SIZE_INT = 0 :=
    taken_forall hs.sized fun _ => (by decide : EXT_MEM % SIZE_INT = 0)
  refine malloc_forall hs.nodup (fun b hb _ => h b hb) ?_
    fun c hc => ⟨?_, (Block.rest_size_le hc).trans ht⟩
  · exact ⟨h₁.trans <| Block.le_front_size hle, Block.front_size_le.trans ht⟩
  · have ⟨hs, hc⟩ := Block.mem_rest.mp hc
    simp only [hc, Block.Splits, SIZE_INT, sizeofDmemElem] at *
    omega

theorem Sized.free (h : a.Sized) (hb : b ∈ a.live) : (a.free b).Sized :=
  fun c hc => h c <| (free_perm hb).mem_iff.mp hc

theorem Sorted.insertHole (h : a.Sorted) : (a.insertHole b).Pairwise (·.size ≤ ·.size) :=
  h.insertBehind Nat.le_trans (fun c _ hc => by simpa using hc) fun c _ hc => by
    simpa using Nat.le_of_lt (by simpa using hc)

-- Holes stay sorted exactly as long as remainders are not too small for their place.
theorem sorted_malloc_iff (h : a.Sorted) : (a.malloc r ρ).Sorted ↔ a.RestInOrder r := by
  cases hf : a.fitting r
  case none =>
    simp only [RestInOrder, hf, Option.mem_def, reduceCtorEq, false_implies, implies_true, iff_true]
    rw [malloc_of_region hf, Sorted]
    cases (regionBlock ρ).rest r
    case none   => exact h
    case some c => exact h.insertHole
  case some b =>
    have ⟨hs₁, hs₂, hh, h₁, hb⟩ := fitting_some hf
    have ht : a.holes.takeWhile (·.size < r) = hs₁ := by
      have h₁ : ∀ g ∈ hs₁, decide (g.size < r) := by simpa using h₁
      simp [hh, List.takeWhile_append_of_pos h₁, Nat.not_lt.mpr hb]
    rw [Sorted, hh] at h
    have ⟨hp₁, hp₂, hp₁₂⟩ := List.pairwise_append.mp h
    have ⟨hb₂, hp₂⟩ := List.pairwise_cons.mp hp₂
    rw [malloc_of_hole hh h₁ hb hf, Sorted]
    simp only [RestInOrder, hf, Option.mem_def, Option.some.injEq, forall_eq', ht]
    cases hc : b.rest r
    case none =>
      have hp₁₂ g hg k hk := hp₁₂ g hg k (.tail _ hk)
      simpa using List.pairwise_append.mpr ⟨hp₁, hp₂, hp₁₂⟩
    case some c =>
      have hcb := Block.rest_size_le hc
      simp only [Option.toList_some, List.append_assoc, List.singleton_append, Option.some.injEq,
        forall_eq', List.pairwise_append, List.pairwise_cons, List.mem_cons, forall_eq_or_imp]
      constructor
      case mp => exact fun h g hg => (h.right.right g hg).left
      case mpr =>
        intro h
        refine ⟨hp₁, ⟨fun k hk => hcb.trans (hb₂ k hk), hp₂⟩, fun g hg => ⟨h g hg, fun k hk => ?_⟩⟩
        exact hp₁₂ g hg k (.tail _ hk)

theorem Sorted.free (h : a.Sorted) : (a.free b).Sorted :=
  h.insertHole

-- Among sorted holes, the first fit is a best fit.
theorem Sorted.bestFit (h : a.Sorted) (hf : a.fitting r = some b) :
    ∀ g ∈ a.holes, g.size < b.size → g.size < r := by
  have ⟨hs₁, hs₂, hh, h₁, _⟩ := fitting_some hf
  rw [Sorted, hh] at h
  have hb := (List.pairwise_cons.mp (List.pairwise_append.mp h).right.left).left
  intro g hg hgb
  simp only [hh, List.mem_append, List.mem_cons] at hg
  obtain hg | rfl | hg := hg
  · exact h₁ g hg
  · omega
  · have := hb g hg
    omega

end Pool
end MemList
