import Kpr.MemList.Theorems.Runs
import Mathlib.Data.List.Perm.Basic

open Machine

namespace MemList

variable {s s' : Heap} {a a' a'' : Pool} {b : Block} {c : Call} {cs cs' : List Call}
  {r ρ : Nat} {kernel : Nat → DataspaceReply} {mem : Memory}

-- A block which is cut only makes room for one more header.
theorem Block.cut_size {n : Nat} : sizeofDmemElem + (b.front r).size +
      (b.rest r).toList.foldr (fun c n => sizeofDmemElem + c.size + n) n =
    sizeofDmemElem + b.size + n := by
  by_cases h : b.Splits r
  case neg => simp [front, rest, if_neg h]
  case pos =>
    simp only [front, rest, if_pos h, Option.toList_some, List.foldr_cons, List.foldr_nil]
    simp only [Splits] at h
    omega

namespace Pool

instance : LeftCommutative fun (b : Block) n => sizeofDmemElem + b.size + n where
  left_comm _ _ _ := Nat.add_left_comm ..

theorem total_free (h : b ∈ a.live) : (a.free b).total = a.total :=
  (free_perm h).foldr_eq _

-- What is added is the block of the region, if there is need for one.
theorem total_malloc : (a.malloc r ρ).total =
    a.total + if a.fitting r = none then sizeofDmemElem + EXT_MEM else 0 := by
  have ⟨cs, h₁, h₂⟩ := a.malloc_perm r ρ
  rw [total, h₂.foldr_eq, total, h₁.foldr_eq, List.foldr_cons, List.foldr_append, Block.cut_size]
  cases hf : a.fitting r
  case some b => simp [taken, hf]
  case none   => simp [taken, hf, regionBlock, Nat.add_comm]

namespace Cut

theorem refl : a.Cut a :=
  fun b hb => ⟨b, hb, rfl, Nat.le_refl _⟩

theorem trans (h : a.Cut a') (h' : a'.Cut a'') : a.Cut a'' := by
  intro b hb
  obtain ⟨c, hc, hcb, hle⟩ := h b hb
  obtain ⟨d, hd, hdc, hle'⟩ := h' c hc
  exact ⟨d, hd, hdc.trans hcb, hle'.trans hle⟩

theorem of_perm (h : a'.blocks.Perm a.blocks) : a.Cut a' :=
  fun b hb => ⟨b, h.mem_iff.mpr hb, rfl, Nat.le_refl _⟩

end Cut

theorem cut_malloc : a.Cut (a.malloc r ρ) := by
  have ⟨cs, h₁, h₂⟩ := a.malloc_perm r ρ
  intro b hb
  cases List.mem_append.mp (h₁.mem_iff.mp hb)
  case inl hf =>
    have hf := Option.mem_toList.mp hf
    have ht : a.taken r ρ = b := by rw [taken, Option.mem_def.mp hf, Option.getD_some]
    exact ⟨b.front r, h₂.mem_iff.mpr (ht ▸ List.mem_cons_self), Block.front_addr,
      Block.front_size_le⟩
  case inr hc =>
    refine ⟨b, h₂.mem_iff.mpr ?_, rfl, Nat.le_refl _⟩
    exact List.mem_cons_of_mem _ (List.mem_append_right _ hc)

theorem cut_free (h : b ∈ a.live) : a.Cut (a.free b) :=
  .of_perm (free_perm h)

-- The pointer of a block which is too small is not returned.
theorem Shaped.pointer_ne (h : a.Shaped) (hf : a.HeadersFit r ρ) (hr : r ≤ EXT_MEM)
    (hb : b ∈ a.blocks) (hlt : b.size < r) : (a.taken r ρ).pointer ≠ b.pointer := by
  have hbelow : (a.taken r ρ).payload ≤ 2 ^ 32 := by
    refine taken_forall h.below fun hn => ?_
    simpa [taken, hn] using (hf _ (mem_added_front hn)).left
  intro he
  have haddr : (a.taken r ρ).addr = b.addr := by
    rw [← Block.sub_pointer hbelow, he, Block.sub_pointer (h.below b hb)]
  cases hn : a.fitting r
  case none =>
    have hne := ((hf _ (mem_added_front hn)).right b hb).ne
    rw [Block.front_addr] at hne
    exact hne haddr.symm
  case some c =>
    have hc : a.taken r ρ = c := by rw [taken, hn, Option.getD_some]
    have hcb : c ≠ b := by
      rintro rfl
      exact Nat.not_lt.mpr (hc ▸ le_taken_size hr) hlt
    exact (h.headers.forall (fitting_mem hn) hb hcb).ne (hc ▸ haddr)

end Pool

theorem Served.total (h : Served s c s')
    (hs : s.pool.total = s.regions.length * (sizeofDmemElem + EXT_MEM)) :
    s'.pool.total = s'.regions.length * (sizeofDmemElem + EXT_MEM) := by
  cases h
  case hole hf hr hp   => rw [hp, hr, Pool.total_malloc, if_neg hf, hs, Nat.add_zero]
  case region hf hr hp => rw [hp, hr, Pool.total_malloc, if_pos hf, hs, List.length_cons, Nat.succ_mul]
  case free hb hr hp   => rw [hp, hr, Pool.total_free hb, hs]

theorem Served.cut (h : Served s c s') : s.pool.Cut s'.pool := by
  cases h
  case hole hp   => exact hp ▸ Pool.cut_malloc
  case region hp => exact hp ▸ Pool.cut_malloc
  case free hb _ hp => exact hp ▸ Pool.cut_free hb

theorem total_init : (Heap.init kernel mem).pool.total =
    (Heap.init kernel mem).regions.length * (sizeofDmemElem + EXT_MEM) := by
  have hr : (Heap.init kernel mem).regions = [] := rfl
  rw [pool_init, hr, List.length_nil, Nat.zero_mul]
  rfl

-- The recorded sizes of all blocks add up to the sizes of the regions.
theorem total_of_run
    (h : Run (Guarded Heap.HeadersFit (Transition EXT_MEM)) (.init kernel mem) cs s) :
    s.pool.total = s.regions.length * (sizeofDmemElem + EXT_MEM) := by
  have ⟨_, h⟩ := h.invariant (P := fun s =>
      s.Consistent ∧ s.pool.total = s.regions.length * (sizeofDmemElem + EXT_MEM))
    ⟨consistent_init, total_init⟩ fun ⟨hc, ht⟩ ⟨hg, hs⟩ =>
      have ⟨hc', hv, _⟩ := hs.served hc hg
      ⟨hc', hv.total ht⟩
  exact h

theorem total_of_three_calls : ∃ s, Run (Guarded Heap.HeadersFit (Transition EXT_MEM)) .boot
    [.malloc 20, .malloc 60, .free 65552] s ∧ s.pool.total = sizeofDmemElem + EXT_MEM := by
  have ⟨s, h, hr⟩ := exists_run EXT_MEM Heap.HeadersFit .boot
    [.malloc 20, .malloc 60, .free 65552] (fun s => s.regions.length = 1) (by decide +kernel)
  exact ⟨s, h, by rw [total_of_run h, hr, Nat.one_mul]⟩

-- Blocks are never merged. Hence, one which has become too small for a request never serves it
-- again, even if everything around it is freed.
theorem cut_of_run
    (h : Run (Guarded Heap.HeadersFit (Transition EXT_MEM)) (.init kernel mem) cs s)
    (h' : Run (Guarded Heap.HeadersFit (Transition EXT_MEM)) s cs' s') :
    s.pool.Cut s'.pool ∧ ∀ n p s'', malloc s'.clear n = .ok (p, s'') →
      Guarded Heap.HeadersFit (Transition EXT_MEM) s' (.malloc n) s'' →
      ∀ b ∈ s.pool.blocks, b.size < n → p ≠ b.pointer := by
  have ⟨hc, hcut⟩ := h'.invariant (P := fun s' => s'.Consistent ∧ s.pool.Cut s'.pool)
    ⟨consistent_of_run h, .refl⟩ fun ⟨hc, ht⟩ ⟨hg, hs⟩ =>
      have ⟨hc', hv, _⟩ := hs.served hc hg
      ⟨hc', ht.trans hv.cut⟩
  refine ⟨hcut, fun n p s'' he ⟨hg, ht⟩ b hb hlt => ?_⟩
  obtain ⟨d, hd, hdb, hle⟩ := hcut b hb
  obtain ⟨rfl, _⟩ := malloc_returns hc.represents.clear hc.shaped ht.admits (hg _ rfl) he
    ht.regions.ok
  have hlt : d.size < rounded n := Nat.lt_of_le_of_lt hle <|
    Nat.lt_of_lt_of_le hlt (rounded_spec n).right.left
  have hne := hc.shaped.pointer_ne (hg _ rfl) (rounded_le ht.admits) hd hlt
  have hp : d.pointer = b.pointer := congrArg (Word.add · sizeofDmemElem) hdb
  exact hp ▸ hne

-- The first two blocks are freed.
theorem cut_of_two_frees : ∃ s s', Run (Guarded Heap.HeadersFit (Transition EXT_MEM)) .boot
      [.malloc 20, .malloc 60] s ∧
    Run (Guarded Heap.HeadersFit (Transition EXT_MEM)) s [.free 65552, .free 65584] s' ∧
    s.pool.Cut s'.pool := by
  have ⟨s, h, hs⟩ := exists_run EXT_MEM Heap.HeadersFit .boot [.malloc 20, .malloc 60]
    (fun s => ([Call.free 65552, .free 65584].foldlM (transit EXT_MEM Heap.HeadersFit) s).any
      (fun _ => true) = true) (by decide +kernel)
  have ⟨s', h', _⟩ := exists_run EXT_MEM Heap.HeadersFit s [.free 65552, .free 65584]
    (fun _ => True) (by simpa using hs)
  exact ⟨s, s', h, h', (cut_of_run h h').left⟩

end MemList
