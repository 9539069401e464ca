import Kpr.MemList.Theorems.Search
import Kpr.MemList.Theorems.Pool

open Machine

namespace MemList

variable {S : Set Nat} {s s' : Heap} {a : Pool} {b c : Block} {l : ListId} {es es₁ es₂ : List Nat}
  {e n r x ρ : Nat}

-- The addresses at which the blocks have their headers.
def Pool.addrs (a : Pool) : Set Nat :=
  {p | ∃ b ∈ a.blocks, b.addr = p}

theorem Pool.mem_addrs (h : b ∈ a.blocks) : b.addr ∈ a.addrs :=
  ⟨b, h, rfl⟩

theorem Pool.mem_addrs_iff : x ∈ a.addrs ↔ x ∈ a.blocks.map Block.addr :=
  List.mem_map.symm

theorem Pool.mem_addrs_live (h : x ∈ a.live.map Block.addr) : x ∈ a.addrs := by
  have ⟨b, hb, h⟩ := List.mem_map.mp h
  exact h ▸ mem_addrs (mem_blocks.mpr <| .inl hb)

theorem Pool.mem_addrs_holes (h : x ∈ a.holes.map Block.addr) : x ∈ a.addrs := by
  have ⟨b, hb, h⟩ := List.mem_map.mp h
  exact h ▸ mem_addrs (mem_blocks.mpr <| .inr hb)

theorem Pool.Shaped.headers_addrs (h : a.Shaped) : Headers a.addrs where
  ne_null := by
    intro p ⟨b, hb, hp⟩
    have := h.aligned b hb
    simp only [← hp, Block.payload, ALIGN, sizeofDmemElem, NULL] at *
    omega
  below := fun p ⟨b, hb, hp⟩ => hp ▸ h.below b hb
  apart := by
    intro p ⟨b, hb, hp⟩ q ⟨c, hc, hq⟩ hpq
    have hbc : b ≠ c := fun e => hpq <| hp ▸ hq ▸ e ▸ rfl
    exact hp ▸ hq ▸ h.headers.forall hb hc hbc

theorem Pool.Shaped.nodup_addr (h : a.Shaped) : (a.blocks.map Block.addr).Nodup :=
  List.pairwise_map.mpr <| h.headers.imp fun h => h.ne

theorem Pool.addrs_subset_malloc : a.addrs ⊆ (a.malloc r ρ).addrs := by
  intro x hx
  refine mem_addrs_iff.mpr <| (malloc_addrs_perm a r ρ).mem_iff.mpr ?_
  exact List.mem_append_right _ (mem_addrs_iff.mp hx)

theorem Pool.mem_addrs_malloc (h : c ∈ a.added r ρ) : c.addr ∈ (a.malloc r ρ).addrs := by
  refine mem_addrs_iff.mpr <| (malloc_addrs_perm a r ρ).mem_iff.mpr ?_
  exact List.mem_append_left _ (List.mem_map_of_mem h)

theorem Pool.Shaped.added_new (h : (a.malloc r ρ).Shaped) (hc : c ∈ a.added r ρ) :
    c.addr ∉ a.blocks.map Block.addr := by
  have hn := (malloc_addrs_perm a r ρ).nodup_iff.mp h.nodup_addr
  exact fun hb => (List.nodup_append.mp hn).right.right _ (List.mem_map_of_mem hc) _ hb rfl

theorem Pool.Shaped.disjoint (h : a.Shaped) (hl : x ∈ a.live.map Block.addr) :
    x ∉ a.holes.map Block.addr := by
  have hn := h.nodup_addr
  rw [blocks, List.map_append] at hn
  exact fun hh => (List.nodup_append.mp hn).right.right x hl x hh rfl

-- Walking along a well-formed list yields its elements.
theorem walk_eq (es₁ : List Nat) (ht : Threaded s l (es₁ ++ x :: es₂)) (hf : es₂.length < n) :
    s.walk l n x = x :: es₂ := by
  induction es₂ generalizing es₁ x n <;> cases n <;> try contradiction
  case nil.succ n =>
    have hn : s.next x = s.head l := by
      rw [ht.ring.next_last, ht.head]
      cases es₁ <;> rfl
    simp [Heap.walk, hn]
  case cons.succ c es₂ hi n =>
    have hn : s.next x = c := ht.ring.linked_of_append.left
    have hc : c ≠ s.head l := by
      have := ht.ring.nodup
      rw [ht.head]
      cases es₁ <;> grind
    have hi := hi (es₁ ++ [x]) (by simpa using ht) (n := n) (by simpa using hf)
    simp [Heap.walk, hn, hc, hi]

theorem Threaded.elements_eq (h : Threaded s l es) (hS : Headers S) (hs : ∀ x ∈ es, x ∈ S) :
    s.elements l = es := by
  have hl := length_le_loopBound hS hs h.ring.nodup
  have hn := h.head_eq_null_iff hS hs
  cases es
  case nil => exact if_pos (hn.mpr rfl)
  case cons x es =>
    have hh : s.head l = x := h.head
    rw [Heap.elements, if_neg (hn.not.mpr (by simp)), hh]
    exact walk_eq [] h hl

namespace Represents

theorem blocksOn_eq {bs : List Block} (he : s.elements l = bs.map Block.addr)
    (h : ∀ b ∈ bs, s.size b.addr = b.size) : s.blocksOn l = bs := by
  rw [Heap.blocksOn, he, List.map_map]
  have hm : ∀ b ∈ bs, { addr := b.addr, size := s.size b.addr } = b := fun b hb => by rw [h b hb]
  exact (List.map_congr_left hm).trans (List.map_id bs)

theorem pool_eq (h : Represents s a) (hs : a.Shaped) : s.pool = a := by
  have hl := h.live.elements_eq hs.headers_addrs fun x => Pool.mem_addrs_live
  have hh := h.holes.elements_eq hs.headers_addrs fun x => Pool.mem_addrs_holes
  have hbl := blocksOn_eq hl fun b hb => h.sizes b <| Pool.mem_blocks.mpr <| .inl hb
  have hbh := blocksOn_eq hh fun b hb => h.sizes b <| Pool.mem_blocks.mpr <| .inr hb
  rw [Heap.pool, hbl, hbh]

end Represents

-- The two insertions, including the case of an empty list which is left to the callers.

theorem enter_spec (passes before : Heap → Nat → Nat → Except Fault Bool) {p : Nat → Bool}
    (hS : Headers S) (ht : Threaded s l es) (hs : ∀ x ∈ es, x ∈ S) (he : e ∈ S) (hn : e ∉ es)
    (hp : ∀ t, Relinked S {x | x = e ∨ x ∈ es} s t → ∀ x ∈ es, passes t x e = .ok (p x))
    (hb : ∀ t, Relinked S {x | x = e ∨ x ∈ es} s t → ∀ x ∈ es, before t x e = .ok !(p x)) :
    ∃ s', (if s.head l = NULL then startList l s e else insertInto l passes before s e) = .ok s' ∧
      Relinked S {x | x ∈ es.insertBehind p e} s s' ∧ Threaded s' l (es.insertBehind p e) ∧
      ∀ k ≠ l, s'.head k = s.head k := by
  simp only [List.mem_insertBehind]
  have hnull := ht.head_eq_null_iff hS hs
  cases es
  case nil =>
    rw [if_pos (hnull.mpr rfl), startList_eq hS he]
    exact ⟨_, rfl, started_relinked hS he (.inl rfl), started_threaded hS he, fun k => started_head⟩
  case cons x es =>
    rw [if_neg (hnull.not.mpr (by simp))]
    exact insertInto_spec hS ht (by simp) hs he hn (length_le_loopBound hS hs ht.ring.nodup) hp hb

-- The comparisons of the two search loops, and the opposite ones which are made behind them. The
-- sizes are not affected by the links which have been written by then.

theorem processes_before (hn : e ∉ es) (hx : x ∈ es) : decide (x > e) = !decide (x < e) := by
  have hxe : x ≠ e := fun h => hn (h ▸ hx)
  by_cases h : x < e <;> simp [h] <;> omega

section

variable {T : Set Nat} {t : Heap} (hS : Headers S) (hx : x ∈ S) (he : e ∈ S)
  (hr : Relinked S T s t)
include hS hx he hr

theorem holes_passes : (do return (← t.load x .size) ≤ (← t.load e .size) : Except Fault Bool) =
    .ok (s.size x ≤ s.size e) := by
  simp [hS.load_eq hx, hS.load_eq he, hr.size x hx, hr.size e he]

theorem holes_before : (do return (← t.load x .size) > (← t.load e .size) : Except Fault Bool) =
    .ok !(s.size x ≤ s.size e) := by
  have hlt : decide (s.size e < s.size x) = !decide (s.size x ≤ s.size e) := by
    rw [← decide_not, decide_eq_decide, Nat.not_le]
  simpa [hS.load_eq hx, hS.load_eq he, hr.size x hx, hr.size e he] using hlt

end

section

variable {bs : List Block} (hS : Headers S) (hs : ∀ x ∈ bs.map Block.addr, x ∈ S) (hb : b.addr ∈ S)
  (hn : b.addr ∉ bs.map Block.addr)
include hS hs hb hn

theorem enterProcesses_spec (ht : Threaded s .processes (bs.map Block.addr)) :
    ∃ s', (if s.processesHead = NULL then startList .processes s b.addr
        else insertIntoProcesses s b.addr) = .ok s' ∧
      Relinked S {x | x ∈ (bs.insertBehind (·.addr < b.addr) b).map Block.addr} s s' ∧
      Threaded s' .processes ((bs.insertBehind (·.addr < b.addr) b).map Block.addr) ∧
      s'.holesHead = s.holesHead := by
  have ⟨s', he, hr, ht, hh⟩ := enter_spec (p := fun x => x < b.addr)
    (fun _ x e => return x < e) (fun _ x e => return x > e) hS ht hs hb hn
    (fun _ _ _ _ => rfl) (fun _ _ x hx => congrArg Except.ok (processes_before hn hx))
  rw [List.map_insertBehind fun _ _ => rfl] at hr ht
  exact ⟨s', he, hr, ht, hh .holes (by simp)⟩

theorem enterHoles_spec (ht : Threaded s .holes (bs.map Block.addr)) (hsize : s.size b.addr = b.size)
    (hsizes : ∀ c ∈ bs, s.size c.addr = c.size) :
    ∃ s', (if s.holesHead = NULL then startList .holes s b.addr
        else insertIntoHoles s b.addr) = .ok s' ∧
      Relinked S {x | x ∈ (bs.insertBehind (·.size ≤ b.size) b).map Block.addr} s s' ∧
      Threaded s' .holes ((bs.insertBehind (·.size ≤ b.size) b).map Block.addr) ∧
      s'.processesHead = s.processesHead := by
  have ⟨s', he, hr, ht, hh⟩ := enter_spec (p := fun x => s.size x ≤ s.size b.addr)
    (fun s x e => return (← s.load x .size) ≤ (← s.load e .size))
    (fun s x e => return (← s.load x .size) > (← s.load e .size)) hS ht hs hb hn
    (fun _ ht x hx => holes_passes hS (hs x hx) hb ht)
    (fun _ ht x hx => holes_before hS (hs x hx) hb ht)
  rw [List.map_insertBehind (p := fun c => c.size ≤ b.size) fun c hc => by
    simp only [hsizes c hc, hsize]] at hr ht
  exact ⟨s', he, hr, ht, hh .processes (by simp)⟩

end

end MemList
