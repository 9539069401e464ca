import Kpr.MemList.Theorems.Runs

open Machine

namespace MemList

variable {s s' : Heap} {a : Pool} {b c : Block} {l : ListId} {n p r ρ : Nat}

namespace Heap

-- Both lists are well-formed and have no common element, the live blocks are sorted by address,
-- sizes are multiples of a word, and payloads are aligned.
structure WellFormed (s : Heap) : Prop where
  live      : Threaded s .processes (s.elements .processes)
  holes     : Threaded s .holes (s.elements .holes)
  disjoint  : ∀ e ∈ s.elements .processes, e ∉ s.elements .holes
  ascending : (s.elements .processes).Pairwise (· < ·)
  sized     : ∀ b ∈ s.pool.blocks, b.size % SIZE_INT = 0
  aligned   : ∀ b ∈ s.pool.blocks, b.payload % ALIGN = 0

structure Good (s : Heap) : Prop extends WellFormed s where
  apart : s.pool.blocks.Pairwise Block.Apart
  below : ∀ b ∈ s.pool.blocks, b.fin ≤ 2 ^ 32

-- The next region is as it should be and touches no block.
structure FreshRegion (s : Heap) : Prop where
  ok    : RegionOk s.nextRegion
  apart : ∀ b ∈ s.pool.blocks, Apart b.addr b.fin s.nextRegion (s.nextRegion + regionBytes)

theorem blocksOn_addr : (s.blocksOn l).map Block.addr = s.elements l := by
  simp [blocksOn, Function.comp_def]

theorem size_of_mem_pool (h : b ∈ s.pool.blocks) : s.size b.addr = b.size := by
  have hl {l} (hb : b ∈ s.blocksOn l) : s.size b.addr = b.size := by
    have ⟨e, _, he⟩ := List.mem_map.mp hb
    exact he ▸ rfl
  exact (Pool.mem_blocks.mp h).elim hl hl

theorem Good.consistent (h : s.Good) : s.Consistent where
  represents := by
    refine ⟨?_, ?_, fun b hb => size_of_mem_pool hb⟩
    · exact blocksOn_addr ▸ h.live
    · exact blocksOn_addr ▸ h.holes
  shaped := by
    constructor
    case ascending => exact List.pairwise_map.mp <| blocksOn_addr (s := s) ▸ h.ascending
    case aligned   => exact h.aligned
    case sized     => exact h.sized
    case below     => exact fun b hb => (Nat.le_add_right ..).trans (h.below b hb)
    case headers   => exact h.apart.imp Block.Apart.headersApart

theorem Consistent.wellFormed (h : s.Consistent) : s.WellFormed := by
  have hl : s.pool.live.map Block.addr = s.elements .processes := blocksOn_addr
  have hh : s.pool.holes.map Block.addr = s.elements .holes := blocksOn_addr
  constructor
  case live      => exact hl ▸ h.represents.live
  case holes     => exact hh ▸ h.represents.holes
  case disjoint  => exact hl ▸ hh ▸ fun e he => h.shaped.disjoint he
  case ascending => exact hl ▸ List.pairwise_map.mpr h.shaped.ascending
  case sized     => exact h.shaped.sized
  case aligned   => exact h.shaped.aligned

theorem Consistent.good (h : s.Consistent) (hs : s.pool.Separated) : s.Good :=
  { h.wellFormed with
    apart := hs.apart
    below := hs.below }

theorem Good.separated (h : s.Good) : s.pool.Separated where
  below := h.below
  apart := h.apart

theorem FreshRegion.headersFit (h : s.pool.fitting r = none → s.FreshRegion) (hg : s.Good)
    (hr : r % SIZE_INT = 0) : s.pool.HeadersFit r s.nextRegion := by
  refine hg.separated.headersFit hg.consistent.shaped hr fun hc => ?_
  have ⟨hok, ha⟩ := h hc
  have hi : ((regionBlock s.nextRegion).padded 0).Inside s.nextRegion := regionBlock_inside
  have hfin := Block.fin_le_padded.trans hi.right
  refine ⟨hfin.trans hok.below, fun d hd => ?_⟩
  have ha := ha d hd
  have hl : s.nextRegion ≤ (regionBlock s.nextRegion).addr := Nat.le_add_right ..
  simp only [Block.Apart, Apart] at *
  omega

end Heap

-- No element is lost or duplicated by a call which operates on `e`. At most one is cut off from the
-- extent of `e`, and at most one is made from a new region. All others stay on their list, with
-- their size and in their order.
structure Conserved (s : Heap) (e : Nat) (s' : Heap) : Prop where
  elements : ∃ cut made : Option Nat,
    (s'.pool.blocks.map Block.addr).Perm
      (cut.toList ++ made.toList ++ s.pool.blocks.map Block.addr) ∧
    (∀ p ∈ cut, e + sizeofDmemElem ≤ p) ∧
    (∀ p ∈ made, p = e ∧ p = align s.nextRegion ∧ s'.regions = s.nextRegion :: s.regions)
  live  : (s.pool.live.filter (·.addr ≠ e)).Sublist s'.pool.live
  holes : (s.pool.holes.filter (·.addr ≠ e)).Sublist s'.pool.holes

theorem Pool.malloc_holes_sublist : (a.holes.filter (·.addr ≠ (a.taken r ρ).addr)).Sublist
    (a.malloc r ρ).holes := by
  cases hc : a.fitting r
  case none =>
    rw [malloc_of_region hc]
    refine List.filter_sublist.trans ?_
    cases (regionBlock ρ).rest r
    case none   => exact .refl _
    case some c => exact List.sublist_insertBehind
  case some b =>
    have ⟨hs₁, hs₂, hh, h₁, hb⟩ := fitting_some hc
    rw [malloc_of_hole hh h₁ hb hc, taken, hc, hh, List.filter_append, List.append_assoc]
    simp only [Option.getD_some, ne_eq, decide_not, List.filter_cons, decide_true, Bool.not_true,
      Bool.false_eq_true, if_false]
    exact List.filter_sublist.append <| List.filter_sublist.trans (List.sublist_append_right ..)

-- The element on which `malloc` operates is the one whose payload it returns.
theorem conserved_of_malloc (hp : s'.pool = s.pool.malloc r s.nextRegion)
    (hr : s.pool.fitting r = none → RegionOk s.nextRegion ∧ s'.regions = s.nextRegion :: s.regions) :
    Conserved s (s.pool.taken r s.nextRegion).addr s' := by
  have hperm := Pool.malloc_addrs_perm s.pool r s.nextRegion
  constructor
  case live => exact hp ▸ List.filter_sublist.trans List.sublist_insertBehind
  case holes => exact hp ▸ Pool.malloc_holes_sublist
  case elements =>
    rw [hp]
    have hcut : ∀ p ∈ ((s.pool.taken r s.nextRegion).rest r).map Block.addr,
        (s.pool.taken r s.nextRegion).addr + sizeofDmemElem ≤ p := by
      intro p hc
      have ⟨c, hc, hcp⟩ := Option.mem_map.mp hc
      exact hcp ▸ Block.le_rest_addr hc
    cases hc : s.pool.fitting r
    case some b =>
      refine ⟨_, none, ?_, hcut, nofun⟩
      simpa [Pool.added, Pool.taken, hc, Option.toList_map] using hperm
    case none =>
      obtain ⟨hok, hregions⟩ := hr hc
      refine ⟨_, some (regionBlock s.nextRegion).addr, ?_, hcut, ?_⟩
      · refine hperm.trans <| .append_right _ ?_
        simpa [Pool.added, Pool.taken, hc, Option.toList_map] using
          (List.perm_append_singleton (regionBlock s.nextRegion).addr
            (((regionBlock s.nextRegion).rest r).toList.map Block.addr)).symm
      · rintro _ ⟨⟩
        exact ⟨by simp [Pool.taken, hc], hok.align_eq.symm, hregions⟩

theorem conserved_of_free (hs : s.pool.Shaped) (hb : b ∈ s.pool.live)
    (hp : s'.pool = s.pool.free b) : Conserved s b.addr s' := by
  constructor
  case elements =>
    exact ⟨none, none, by simpa [hp] using (Pool.free_perm hb).map Block.addr, nofun, nofun⟩
  case live =>
    have hn := (List.nodup_append.mp hs.nodup).left
    rw [hp, Pool.free, hn.erase_eq_filter]
    refine List.monotone_filter_right _ fun c hc => ?_
    have hc : c.addr ≠ b.addr := by simpa using hc
    simpa using fun e => hc (congrArg Block.addr e)
  case holes => exact hp ▸ List.filter_sublist.trans List.sublist_insertBehind

-- From a good state, each call which returns does to the lists what it is meant to do to the
-- blocks.
theorem calls_refine (h : s.Good) :
    (∀ n p s', n ≤ EXT_MEM → malloc s n = .ok (p, s') → (s'.regions ≠ s.regions → s.FreshRegion) →
      s'.WellFormed ∧ s'.pool = s.pool.malloc (rounded n) s.nextRegion ∧
      ∃ b ∈ s'.pool.live, b.pointer = p ∧ n ≤ b.size ∧ Conserved s b.addr s') ∧
    (∀ b ∈ s.pool.live, ∀ s', free s b.pointer = .ok s' →
      s'.WellFormed ∧ s'.pool = s.pool.free b ∧ Conserved s b.addr s') := by
  have ⟨hrep, hs⟩ := h.consistent
  constructor
  case left =>
    intro n p s' hn he hfresh
    have hr := (rounded_spec n).left
    have hfresh (hc : s.pool.fitting (rounded n) = none) : s.FreshRegion := by
      refine hfresh fun hr => ?_
      have hsuf : s.nextRegion :: s.regions <:+ s'.regions := malloc_extends hrep hs hn hc _ he
      rw [hr] at hsuf
      exact absurd hsuf.length_le (by simp)
    have hf := Heap.FreshRegion.headersFit hfresh h hr
    have hρ hc := (hfresh hc).ok
    have hl (hc : s.pool.fitting (rounded n) = none) (hh : s.pool.holes ≠ []) : s.pool.live ≠ [] :=
      fun hl => nomatch he.symm.trans (malloc_fault hrep hs hn hf hρ hc hh hl)
    have ⟨s₁, he₁, h₁, ht₁⟩ := malloc_spec hrep hs hn hf hρ hl
    cases Except.ok.inj (he.symm.trans he₁)
    have hs₁ := hs.malloc hr hf hρ
    have hp := h₁.pool_eq hs₁
    refine ⟨(h₁.consistent hs₁).wellFormed, hp,
      (s.pool.taken (rounded n) s.nextRegion).front (rounded n), ?_, ?_, ?_, ?_⟩
    · exact hp ▸ List.mem_insertBehind.mpr (.inl rfl)
    · simp [Block.pointer]
    · exact (rounded_spec n).right.left.trans <|
        Block.le_front_size <| Pool.le_taken_size <| rounded_le hn
    · rw [Block.front_addr]
      exact conserved_of_malloc hp fun hc => ⟨hρ hc, ht₁.regions.trans <| by rw [if_pos hc]; rfl⟩
  case right =>
    intro b hb s' he
    have ⟨s₁, he₁, h₁, _⟩ := free_spec hrep hs hb
    cases Except.ok.inj (he.symm.trans he₁)
    have hp := h₁.pool_eq (hs.free hb)
    exact ⟨(h₁.consistent (hs.free hb)).wellFormed, hp, conserved_of_free hs hb hp⟩

-- A hole of 44 bytes, with a live block behind it, is split.
theorem refines_after_run : ∃ s p s', malloc s 12 = .ok (p, s') ∧ s'.WellFormed ∧
    ∃ b ∈ s'.pool.live, b.pointer = p ∧ 12 ≤ b.size ∧ Conserved s b.addr s' := by
  have ⟨s, h, hb, ha, he⟩ := exists_run EXT_MEM Heap.HeadersFit .boot
    [.malloc 44, .malloc 8, .free 65552] (fun s => (∀ b ∈ s.pool.blocks, b.fin ≤ 2 ^ 32) ∧
      s.pool.blocks.Pairwise Block.Apart ∧
      (malloc s 12).toOption.any (fun x => x.2.regions = s.regions) = true) (by decide +kernel)
  have ⟨⟨p, s'⟩, he, hr⟩ := exists_ok (fun x : Nat × Heap => x.2.regions = s.regions) he
  have ⟨hw, _, hc⟩ := (calls_refine <| (consistent_of_run h).good ⟨hb, ha⟩).left 12 p s' (by decide)
    he (absurd hr)
  exact ⟨s, p, s', he, hw, hc⟩

end MemList
