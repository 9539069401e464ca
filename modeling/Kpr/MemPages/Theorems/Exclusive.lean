import Kpr.MemPages.Theorems.Calls
import Mathlib.Data.List.Pairwise

open Machine

namespace MemPages

variable {s s' : Session} {t t₁ : Heap} {b b' i j k m n p size : Nat} {bs : List Nat} {c d : Chunk}
  {ns : List Nat} {kernel : Nat → DataspaceReply}

instance : Std.Symm fun b c => Apart b (b + regionBytes) c (c + regionBytes) :=
  ⟨fun _ _ => Apart.symm⟩

theorem RegionsOk.ne (h : RegionsOk (bs ++ [b])) (hb : b' ∈ bs) : b' ≠ b := by
  rintro rfl
  have ha := (List.pairwise_append.mp h.apart).right.right _ hb _ List.mem_cons_self
  simp only [Apart, regionBytes, sizeofDmemElem] at ha
  omega

theorem address_eq (h : b + regionBytes ≤ 2 ^ 32)
    (hf : offset i + size ≤ BLOCK_SIZE) : address b i = b + sizeofDmemElem + offset i := by
  simp only [address, offset, regionBytes, sizeofDmemElem, PAGE_SIZE, BLOCK_SIZE] at *
  omega

-- Chunks which do not leave their block have as many bits as they need.
theorem le_of_fits (hf : offset i + size ≤ BLOCK_SIZE) (hs : PAGE_SIZE * (n - 1) ≤ size)
    (hn : n ≤ 6) : i + n ≤ 8 := by
  simp only [offset, sizeofDmemElem, PAGE_SIZE, BLOCK_SIZE] at *
  omega

-- The chunk begins with the `i`-th page of the block `b`, and the bits of `n` pages are set for it.
structure Chunk.Slot (c : Chunk) (t : Heap) (b i n : Nat) : Prop where
  addr : c.addr = b + sizeofDmemElem + offset i
  size : c.size ≤ PAGE_SIZE * n
  fits : offset i + c.size ≤ BLOCK_SIZE
  pos  : 0 < n
  set  : ∀ j, i ≤ j → j < i + n → (t.bitmap b).getLsbD j = true

namespace Chunk

theorem Slot.within (h : c.Slot t b i n) : c.Within b := by
  have ⟨ha, _, hf, _, _⟩ := h
  constructor
  case header => omega
  case fin    =>
    simp only [fin, regionBytes]
    omega

theorem Within.apartFrom (hc : c.Within b) (hd : d.Within b')
    (h : Apart b (b + regionBytes) b' (b' + regionBytes)) : c.ApartFrom d := by
  have ⟨hc₁, hc₂⟩ := hc
  have ⟨hd₁, hd₂⟩ := hd
  simp only [ApartFrom, Apart] at *
  omega

-- The pages of a block are further apart than their size.
theorem Slot.apartFrom (hc : c.Slot t b i n) (hd : d.Slot t₁ b j m)
    (h : Apart i (i + n) j (j + m)) : c.ApartFrom d := by
  have ⟨hc₁, hc₂, _, _, _⟩ := hc
  have ⟨hd₁, hd₂, _, _, _⟩ := hd
  simp only [ApartFrom, Apart, fin, offset, sizeofDmemElem, PAGE_SIZE] at *
  omega

end Chunk

namespace Session

-- In addition, all chunks have their bits.
structure Consistent (s : Session) : Prop where
  regions : RegionsOk s.heap.blocks
  apart   : s.live.Pairwise Chunk.ApartFrom
  slots   : ∀ c ∈ s.live, ∃ b ∈ s.heap.blocks, ∃ i n, c.Slot s.heap b i n

theorem boot_consistent : (boot kernel).Consistent where
  regions := ⟨nofun, nofun, .nil⟩
  apart   := .nil
  slots   := nofun

theorem Consistent.exclusive (h : s.Consistent) : s.Exclusive where
  apart  := h.apart
  within := by
    intro c hc
    have ⟨b, hb, _, _, hs⟩ := h.slots c hc
    exact ⟨b, hb, hs.within⟩

end Session

-- The elements which have been there before are not affected by a new one.
theorem old_bitmap (h : t₁ = t ∨ Extended t t₁ b) (hr : RegionsOk t₁.blocks) (hb : b' ∈ t.blocks) :
    b' ∈ t₁.blocks ∧ t₁.bitmap b' = t.bitmap b' := by
  obtain rfl | he := h
  case inl => exact ⟨hb, rfl⟩
  case inr =>
    rw [he.blocks] at hr ⊢
    rw [he.bitmap, Function.update_of_ne (hr.ne hb)]
    exact ⟨List.mem_append_left _ hb, rfl⟩

-- The pages are free in the bitmap in which they are marked.
theorem clear_of_fits (hk : t.firstFit size = some k) (hr : requiredPages size = n + 2)
    (hi : (k + 1) % 8 + n ≤ 8)
    (hf : (k + requiredPages size - 1) / 8 = t.blocks.length ∨
      (k + requiredPages size - 1) / 8 = (k + 1) / 8)
    (h : t₁ = t ∨ Extended t t₁ b) (hb : t₁.blocks[(k + requiredPages size - 1) / 8]? = some b) :
    Clear (t₁.bitmap b).getLsbD ((k + 1) % 8) n := by
  intro j hj
  obtain rfl | he := h
  case inl =>
    obtain hf | hf := hf
    case inl => simp [hf] at hb
    case inr =>
      have ⟨_, hc, _⟩ := firstRun_eq_some_iff.mp hk
      have hadd : 8 * ((k + 1) / 8) + ((k + 1) % 8 + j) = k + (j + 1) := by omega
      rw [← bit_eq (hf ▸ hb) (by omega), hadd]
      exact hc (j + 1) (by omega)
  case inr =>
    rw [he.bitmap, Function.update_self]
    exact BitVec.getLsbD_zero

-- The new chunk gets bits which were clear.
theorem malloc_slot (ha : size < 6 * PAGE_SIZE) (hg : s.Fits size)
    (hm : malloc s.heap size = some (p, t)) (hr : RegionsOk t.blocks) :
    ∃ t₁ b i n, (t₁ = s.heap ∨ Extended s.heap t₁ b) ∧ b ∈ t.blocks ∧ Marked t₁ t b i n ∧
      Clear (t₁.bitmap b).getLsbD i n ∧ Chunk.Slot ⟨p, size⟩ t b i n := by
  obtain ⟨k, t₁, b, idx, hk, ht₁, hb, hset, rfl⟩ := malloc_spec ha hm
  obtain ⟨n, hreq, hn, hn₆, hle, hge⟩ := requiredPages_spec ha
  obtain ⟨hfit, hblock⟩ := hg k hk
  have hi : (k + 1) % 8 < 8 := Nat.mod_lt _ (by decide)
  have hi₈ := le_of_fits hfit hge hn₆
  have hnull := ne_null_of_setBack hset (by omega)
  obtain ⟨t', hset', hmarked⟩ := setBack_spec (s := t₁) hnull hi hi₈
  have hlast : (k + requiredPages size - 1) % 8 = ((k + 1) % 8 + n) % 8 := by omega
  have hcount : requiredPages size - 2 = n := by omega
  rw [hlast, hcount, hset'] at hset
  cases hset
  have hmem : b ∈ t.blocks := hmarked.blocks ▸ List.mem_of_getElem? hb
  refine ⟨t₁, b, _, n, ht₁, hmem, hmarked, clear_of_fits hk hreq hi₈ hblock ht₁ hb, ?_⟩
  constructor
  case addr => exact address_eq (hr.le b hmem) hfit
  case size => exact hle
  case fits => exact hfit
  case pos  => exact hn
  case set  =>
    intro j hj hj'
    rw [hmarked.bitmap, decide_eq_true ⟨rfl, hj, hj'⟩, Bool.true_or]

theorem Transition.consistent (h : s.Consistent) (hg : s.Fits size) (ht : Transition s size s') :
    s'.Consistent := by
  obtain ⟨⟨p, t⟩, hm, hs'⟩ := Option.bind_eq_some_iff.mp ht.result
  cases hs'
  have hr : RegionsOk t.blocks := ht.regions
  obtain ⟨t₁, b, i, n, ht₁, hb, hmarked, hclear, hnew⟩ := malloc_slot ht.admits hg hm hr
  have hold {b'} (hb' : b' ∈ s.heap.blocks) :=
    old_bitmap ht₁ (hmarked.blocks ▸ hr) hb'
  constructor
  case regions => exact hr
  case apart   =>
    refine List.pairwise_cons.mpr ⟨fun c hc => ?_, h.apart⟩
    obtain ⟨b', hb', j, m, hslot⟩ := h.slots c hc
    by_cases heq : b = b'
    case pos =>
      subst heq
      have hset := hslot.set
      rw [← (hold hb').right] at hset
      exact hnew.apartFrom hslot <| hclear.apart hset hnew.pos <| Nat.lt_add_of_pos_right hslot.pos
    case neg =>
      have hb' : b' ∈ t.blocks := hmarked.blocks ▸ (hold hb').left
      exact hnew.within.apartFrom hslot.within (hr.apart.forall hb hb' heq)
  case slots =>
    intro c hc
    obtain rfl | hc := List.mem_cons.mp hc
    case inl => exact ⟨b, hb, i, n, hnew⟩
    case inr =>
      obtain ⟨b', hb', j, m, hslot⟩ := h.slots c hc
      refine ⟨b', hmarked.blocks ▸ (hold hb').left, j, m, { hslot with set := fun l hl hl' => ?_ }⟩
      rw [hmarked.bitmap, (hold hb').right, hslot.set l hl hl', Bool.or_true]

-- No page is handed out twice in runs in which all chunks fit.
theorem exclusive_of_fits (h : Run (Guarded Session.Fits Transition) (.boot kernel) ns s) :
    s.Exclusive :=
  (h.invariant Session.boot_consistent fun hc hs => hs.step.consistent hc hs.guard).exclusive

-- An environment which grants regions at the multiples of 64 KiB.
def Session.ample : Session :=
  .boot fun i => .granted (2 ^ 16 * (i + 1))

-- The second chunk is put behind a guard at the end of the first block, and the third one obtains
-- another block although seven pages of the second block are free.
theorem exclusive_of_three_calls : ∃ s, Run (Guarded Session.Fits Transition) .ample
    [24000, 100, 20480] s ∧ s.Exclusive := by
  have ⟨s, h, _⟩ : ∃ s, Run (Guarded Session.Fits Transition) .ample [24000, 100, 20480] s ∧ True :=
    Run.exists_of_foldlM transit_spec (by decide +kernel)
  exact ⟨s, h, exclusive_of_fits h⟩

-- Another call finds these seven pages together with the first one of the third block. It marks the
-- pages of the third block which are in use, and returns the same pointer again.
theorem page_shared : ¬∀ kernel ns s, Run Transition (.boot kernel) ns s → s.Exclusive := by
  intro h
  have ⟨s, hr, hs⟩ : ∃ s, Run (Guarded (fun _ _ => True) Transition) .ample
      [24000, 100, 20480, 20480] s ∧ ¬s.live.Pairwise Chunk.ApartFrom :=
    Run.exists_of_foldlM transit_spec (by decide +kernel)
  exact hs (h _ _ s <| hr.mono (·.step)).apart

end MemPages
