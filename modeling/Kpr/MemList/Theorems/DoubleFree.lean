import Kpr.MemList.Client
import Kpr.MemList.Theorems.Simulation

open Machine Except

namespace MemList

variable {S : Set Nat} {s : Heap} {a : Pool} {b : Block} {l : ListId} {es₁ es₂ : List Nat} {e : Nat}

-- An element is unlinked from the ring it is on, whatever list it is meant to be removed from.
theorem removeFrom_other (hS : Headers S) (hr : LinkRing s.next s.prev (es₁ ++ e :: es₂))
    (hs : ∀ x ∈ es₁ ++ e :: es₂, x ∈ S) (hh : e ≠ s.head l) :
    removeFrom l s e = .ok ((s.unlinked e).detached e) := by
  have he : e ∈ es₁ ++ e :: es₂ := by simp
  have heS := hs e he
  have hpS := hs _ (hr.prev_mem he)
  have hnS := hs _ (hr.next_mem he)
  have hunlink : unlink s e = .ok (s.unlinked e) := by
    by_cases h : es₁ ++ es₂ = []
    case neg => exact hS.unlink_eq hpS hnS heS (hr.prev_ne h)
    case pos =>
      obtain ⟨rfl, rfl⟩ := List.append_eq_nil_iff.mp h
      have ⟨hn, hp⟩ := LinkRing.singleton_iff.mp hr
      simp [unlink, Heap.unlinked, hS.load_eq heS, hS.store_eq heS, hS.word_put heS heS, hn, hp]
  have hhu : (s.unlinked e).head l = s.head l := by simp [Heap.unlinked]
  simp only [removeFrom, hunlink, ok_bind, pure_eq_ok, andAlso, hh, decide_false, if_false, hhu,
    Bool.false_eq_true, hS.store_eq heS]
  rfl

-- The search for its place begins at the element itself, which is not linked any more.
theorem insertIntoHoles_fault (hS : Headers S) (he : e ∈ S) (hh : s.head .holes = e)
    (hn : s.next e = NULL) : insertIntoHoles s e = .error .nullDeref := by
  have hb : loopBound = (2 ^ 32 - 2) + 1 + 1 := by
    simp only [loopBound, Nat.reducePow, Nat.reduceSub, Nat.reduceAdd]
  have hne : NULL ≠ e := (hS.ne_null e he).symm
  have hnull (f : Field) : s.load NULL f = .error .nullDeref := if_pos rfl
  simp only [insertIntoHoles, insertInto, hh, hb, advance, hS.load_eq he, hn, ok_bind, pure_eq_ok,
    andAlso_ok, hne, hnull, ne_eq, not_false_eq_true, decide_true, Bool.true_and, Nat.le_refl,
    if_true]
  rfl

namespace Pool

theorem freeAgain_perm (h : b ∈ a.holes) : (a.freeAgain b).blocks.Perm a.blocks :=
  .append_left _ <| List.insertBehind_perm.trans (List.perm_cons_erase h).symm

theorem Shaped.freeAgain (h : a.Shaped) (hb : b ∈ a.holes) : (a.freeAgain b).Shaped where
  ascending    := h.ascending
  aligned c hc := h.aligned c <| (freeAgain_perm hb).mem_iff.mp hc
  sized c hc   := h.sized c <| (freeAgain_perm hb).mem_iff.mp hc
  below c hc   := h.below c <| (freeAgain_perm hb).mem_iff.mp hc
  headers      := ((freeAgain_perm hb).pairwise_iff fun h => Std.Symm.symm _ _ h).mpr h.headers

end Pool

section

variable (h : Represents s a) (hs : a.Shaped) (hb : b ∈ a.holes)
include h hs hb

-- The first of the two calls in `free`. What remains of the holes is only put in order again if the
-- hole is not the first one.
theorem removeFrom_hole : ∃ s', removeFromProcesses s b.addr = .ok s' ∧
    Relinked a.addrs {x | x ∈ a.holes.map Block.addr} s s' ∧ (∀ l, s'.head l = s.head l) ∧
    s'.next b.addr = NULL ∧
    (a.holes.head? ≠ some b → Threaded s' .holes ((a.holes.erase b).map Block.addr)) := by
  have hS := hs.headers_addrs
  have hbm : b.addr ∈ a.holes.map Block.addr := List.mem_map_of_mem hb
  have hhS : ∀ x ∈ a.holes.map Block.addr, x ∈ a.addrs := fun _ => Pool.mem_addrs_holes
  have hbS := hhS _ hbm
  have ht := h.holes
  have hp := ht.ring.prev_mem hbm
  have hn := ht.ring.next_mem hbm
  have hhead (l : ListId) : ((s.unlinked b.addr).detached b.addr).head l = s.head l := by
    simp [Heap.unlinked, Heap.detached]
  have hnd : a.holes.Nodup := (List.nodup_append.mp hs.nodup).right.left
  have hlive : b.addr ≠ s.head .processes := by
    rw [h.live.head]
    cases hl : a.live
    case nil       => exact hS.ne_null _ hbS
    case cons c ls =>
      intro (he : b.addr = c.addr)
      exact hs.disjoint (by simp [hl]) (he ▸ hbm)
  obtain ⟨hs₁, hs₂, hh⟩ := List.append_of_mem hb
  have herase : a.holes.erase b = hs₁ ++ hs₂ := by
    have hb₁ : b ∉ hs₁ := by
      rw [hh] at hnd
      exact fun hb₁ => (List.nodup_append.mp hnd).right.right b hb₁ b (by simp) rfl
    rw [hh, List.erase_append_right _ hb₁, List.erase_cons_head]
  have hrel : Relinked a.addrs {x | x ∈ a.holes.map Block.addr} s _ :=
    (hS.unlinked_relinked (hhS _ hp) (hhS _ hn) <| Set.insert_subset hp <|
      Set.singleton_subset_iff.mpr hn).trans (hS.detached_relinked hbS hbm)
  rw [hh, List.map_append, List.map_cons] at ht hhS
  refine ⟨_, removeFrom_other hS ht.ring hhS hlive, hrel, hhead, ?_, fun hf => ?_⟩
  · simp [Heap.detached, hS.word_put hbS hbS]
  · rw [herase, List.map_append]
    cases hs₁
    case nil         => exact absurd (congrArg List.head? hh) hf
    case cons c hs₁ =>
      have hne : (c :: hs₁).map Block.addr ++ hs₂.map Block.addr ≠ [] := by simp
      exact ⟨(hhead _).trans ht.head, ht.ring.remove <| unlinked_removed hS ht hhS hne⟩

theorem free_first_hole (hf : a.holes.head? = some b) : free s b.pointer = .error .nullDeref := by
  have ⟨s₁, he, _, hhead, hnext, _⟩ := removeFrom_hole h hs hb
  have hbm := Pool.mem_blocks.mpr <| .inr hb
  have hbS := Pool.mem_addrs hbm
  have hfirst : s₁.holesHead = b.addr := by
    refine (hhead .holes).trans <| h.holes.head.trans ?_
    rw [List.headD_eq_head?_getD, List.head?_map, hf]
    rfl
  have hnull : s₁.holesHead ≠ NULL := hfirst ▸ hs.headers_addrs.ne_null _ hbS
  simp only [free, Block.sub_pointer (hs.below b hbm), he, ok_bind, if_neg hnull]
  exact insertIntoHoles_fault hs.headers_addrs hbS hfirst hnext

theorem free_other_hole (hf : a.holes.head? ≠ some b) :
    ∃ s', free s b.pointer = .ok s' ∧ Represents s' (a.freeAgain b) ∧
      Touched a.addrs a.addrs s s' := by
  have ⟨s₁, he₁, hr₁, hhead, _, ht₁⟩ := removeFrom_hole h hs hb
  have hS := hs.headers_addrs
  have hbm := Pool.mem_blocks.mpr <| .inr hb
  have hhS : ∀ x ∈ a.holes.map Block.addr, x ∈ a.addrs := fun _ => Pool.mem_addrs_holes
  have hlS : ∀ x ∈ a.live.map Block.addr, x ∈ a.addrs := fun _ => Pool.mem_addrs_live
  have hsz₁ : ∀ c ∈ a.blocks, s₁.size c.addr = c.size :=
    fun c hc => (hr₁.size _ <| Pool.mem_addrs hc).trans (h.sizes c hc)
  have hnd : a.holes.Nodup := (List.nodup_append.mp hs.nodup).right.left
  have hmem {c} (hc : c ∈ a.holes.erase b) : c ∈ a.blocks ∧ c ≠ b := by
    obtain ⟨hne, hc⟩ := hnd.mem_erase_iff.mp hc
    exact ⟨Pool.mem_blocks.mpr <| .inr hc, hne⟩
  have hrest : ∀ x ∈ (a.holes.erase b).map Block.addr, x ∈ a.addrs ∧ x ≠ b.addr := by
    intro x hx
    obtain ⟨c, hc, hcx⟩ := List.mem_map.mp hx
    obtain ⟨hc, hne⟩ := hmem hc
    exact hcx ▸ ⟨Pool.mem_addrs hc, (hs.headers.forall hc hbm hne).ne⟩
  obtain ⟨s₂, he₂, hr₂, ht₂, hh₂⟩ := enterHoles_spec hS (fun x hx => (hrest x hx).left)
    (Pool.mem_addrs hbm) (fun hx => (hrest _ hx).right rfl) (ht₁ hf) (hsz₁ b hbm)
    fun c hc => hsz₁ c (hmem hc).left
  have hlive : Threaded s₁ .processes (a.live.map Block.addr) :=
    h.live.frame hr₁.toTouched (hhead _) hlS fun x hx => hs.disjoint hx
  have hperm := Pool.freeAgain_perm hb
  refine ⟨s₂, ?_, ⟨?_, ht₂, fun c hc => ?_⟩, ?_⟩
  · simp only [free, Block.sub_pointer (hs.below b hbm), he₁, ok_bind]
    exact he₂
  · exact hlive.frame hr₂.toTouched hh₂ hlS fun x hx => (hs.freeAgain hb).disjoint hx
  · have hc := hperm.mem_iff.mp hc
    exact (hr₂.size _ <| Pool.mem_addrs hc).trans (hsz₁ c hc)
  · refine .trans (hr₁.toTouched.mono hhS) <| hr₂.toTouched.mono fun x hx => ?_
    obtain ⟨c, hc, hcx⟩ := Pool.mem_addrs_holes (a := a.freeAgain b) hx
    exact ⟨c, hperm.mem_iff.mp hc, hcx⟩

end

end MemList
