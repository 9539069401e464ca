import Kpr.MemList.Theorems.DoubleFree
import Kpr.MemList.Theorems.Fragmentation
import Kpr.MemList.Theorems.Overlap

open Machine Except

namespace MemList

variable {P : Heap → Prop} {m : Memory}

-- Since it was `m`, the memory has only changed in the headers on record.
def Framed (m : Memory) (s : Heap) : Prop :=
  ∀ a, s.mem a = m a ∨ ∃ p ∈ s.written, ∃ f : Field, Word.add p f.offset = a

theorem framed_stable : Stable (Framed m) where
  put {s} p f v h := by
    intro a
    by_cases ha : a = Word.add p f.offset
    case pos => exact .inr ⟨p, List.mem_cons_self, f, ha.symm⟩
    case neg =>
      have hput : (s.put p f v).mem a = s.mem a := Function.update_of_ne ha ..
      rw [hput]
      exact (h a).imp_right fun ⟨q, hq, hf⟩ => ⟨q, List.mem_cons_of_mem _ hq, hf⟩
  setHead l _ h := by cases l <;> exact h
  addSize _ _ h := h
  subSize _ _ h := h
  extend h      := h

-- The blocks do not overlap, no byte is lost, and all pointers are still those of blocks.
structure Client.Sound (s : Client) : Prop where
  consistent : s.heap.Consistent
  separated  : s.heap.pool.Separated
  written    : ∀ p ∈ s.heap.written, p ∈ s.heap.pool.addrs
  total      : s.heap.pool.total = s.heap.regions.length * (sizeofDmemElem + EXT_MEM)
  got        : ∀ p ∈ s.got, ∃ b ∈ s.heap.pool.blocks, b.pointer = p

namespace Client

variable {s s' : Client} {a : Pool} {b : Block} {c : Action} {cs cs' : List Action} {n p v : Nat}
  {kernel : Nat → DataspaceReply} {mem : Memory}

theorem sound_init : (init kernel mem).Sound where
  consistent := consistent_init
  separated  := by constructor <;> simp [init, pool_init, Pool.blocks, Pool.empty]
  written    := nofun
  total      := total_init
  got        := nofun

namespace Sound

section

variable (h : s.Sound)
include h

-- Some blocks have only changed their places on the lists.
theorem rearranged {t : Heap} (hr : Represents t a) (hs : a.Shaped)
    (hp : a.blocks.Perm s.heap.pool.blocks) (hregions : t.regions = s.heap.regions)
    (hw : ∀ p ∈ t.written, p ∈ s.heap.pool.addrs) : t.pool = a ∧ Sound { s with heap := t } := by
  have he := hr.pool_eq hs
  refine ⟨he, ?_⟩
  constructor <;> dsimp only
  case consistent => exact hr.consistent hs
  case separated =>
    rw [he]
    constructor
    · exact fun c hc => h.separated.below c <| hp.mem_iff.mp hc
    · exact (hp.pairwise_iff fun h => Std.Symm.symm _ _ h).mpr h.separated.apart
  case written =>
    intro p hp'
    have ⟨c, hc, hcp⟩ := hw p hp'
    exact he ▸ ⟨c, hp.mem_iff.mpr hc, hcp⟩
  case total =>
    rw [he, hregions, ← h.total]
    exact hp.foldr_eq _
  case got =>
    intro p hp'
    have ⟨b, hb, hbp⟩ := h.got p hp'
    exact ⟨b, he ▸ hp.mem_iff.mpr hb, hbp⟩

-- What happens if any of the pointers is freed.
theorem free (hp : p ∈ s.got) : ∃ b ∈ s.heap.pool.blocks, b.pointer = p ∧
    (s.heap.pool.holes.head? = some b → MemList.free s.heap.clear p = .error .nullDeref) ∧
    (s.heap.pool.holes.head? ≠ some b → ∃ t, MemList.free s.heap.clear p = .ok t ∧
      t.pool = (if b ∈ s.heap.pool.live then s.heap.pool.free b else s.heap.pool.freeAgain b) ∧
      Sound { s with heap := t }) := by
  have ⟨b, hb, hbp⟩ := h.got p hp
  refine ⟨b, hb, hbp, ?_⟩
  subst hbp
  have hrep := h.consistent.represents.clear
  have hs := h.consistent.shaped
  have hdisjoint {c d} (hl : c ∈ s.heap.pool.live) (hh : d ∈ s.heap.pool.holes) : c ≠ d :=
    (List.nodup_append.mp hs.nodup).right.right c hl d hh
  cases Pool.mem_blocks.mp hb
  case inl hl =>
    have ⟨t, he, hr, ht⟩ := free_spec hrep hs hl
    refine ⟨fun hf => absurd rfl <| hdisjoint hl (List.mem_of_head? hf), fun _ => ⟨t, he, ?_⟩⟩
    rw [if_pos hl]
    exact h.rearranged hr (hs.free hl) (Pool.free_perm hl) ht.regions
      fun p hp => (ht.written p hp).resolve_left nofun
  case inr hh =>
    have hl : b ∉ s.heap.pool.live := fun hl => hdisjoint hl hh rfl
    refine ⟨free_first_hole hrep hs hh, fun hf => ?_⟩
    have ⟨t, he, hr, ht⟩ := free_other_hole hrep hs hh hf
    refine ⟨t, he, ?_⟩
    rw [if_neg hl]
    exact h.rearranged hr (hs.freeAgain hh) (Pool.freeAgain_perm hh) ht.regions
      fun p hp => (ht.written p hp).resolve_left nofun

theorem malloc {t : Heap} (hg : s.PaddingFits (.malloc n)) (hn : n ≤ EXT_MEM)
    (he : MemList.malloc s.heap.clear n = .ok (p, t)) (hr : RegionsOk t.regions) :
    t.pool = s.heap.pool.malloc (rounded n) s.heap.nextRegion ∧
      Sound { heap := t, got := p :: s.got } := by
  have hf := Heap.PaddingFits.headersFit hg h.separated h.consistent.shaped
  have ht : Transition EXT_MEM s.heap (.malloc n) t := ⟨hn, step_malloc.mpr ⟨p, he⟩, hr⟩
  obtain ⟨hc, hv, _, hw⟩ := ht.served h.consistent hf
  have hpool : t.pool = s.heap.pool.malloc (rounded n) s.heap.nextRegion := by
    cases hv <;> assumption
  have hsep := h.separated.served h.consistent.shaped hg hv
  refine ⟨hpool, hc, hsep, hw, hv.total h.total, fun q hq => ?_⟩
  cases List.mem_cons.mp hq
  case inl hq =>
    have ⟨hp, _⟩ := malloc_returns h.consistent.represents.clear h.consistent.shaped hn (hf _ rfl)
      he hr.ok
    refine ⟨(s.heap.pool.taken (rounded n) s.heap.nextRegion).front (rounded n), ?_, ?_⟩
    · exact hpool ▸ Pool.mem_blocks.mpr (.inl <| List.mem_insertBehind.mpr <| .inl rfl)
    · rw [hq, hp, Block.pointer, Block.front_addr]
      rfl
  case inr hq =>
    have ⟨b, hb, hbp⟩ := h.got q hq
    have ⟨d, hd, hda, _⟩ := hv.cut b hb
    exact ⟨d, hd, (congrArg (Word.add · sizeofDmemElem) hda).trans hbp⟩

-- No word of a header lies within a payload.
theorem header_ne (hb : b ∈ s.heap.pool.blocks) (hl : b.payload ≤ n) (hu : n < b.fin)
    (hp : p ∈ s.heap.pool.addrs) (f : Field) : Word.add p f.offset ≠ n := by
  rw [h.consistent.shaped.headers_addrs.fieldAddr_eq hp]
  obtain ⟨c, hc, rfl⟩ := hp
  have hf : f.offset < sizeofDmemElem := by cases f <;> decide
  by_cases hcb : c = b
  case pos =>
    rw [hcb]
    simp only [Block.payload] at hl
    omega
  case neg =>
    have ha := h.separated.apart.forall hc hb hcb
    simp only [Block.Apart, Apart, Block.fin, Block.payload] at *
    omega

theorem write (ho : s.Owns b n) : (s.heap.poke n v).pool = s.heap.pool ∧
    Sound { s with heap := s.heap.poke n v } := by
  have hb := Pool.mem_blocks.mpr <| .inl ho.live
  have hw (p) (hp : p ∈ s.heap.pool.addrs) (f) : (s.heap.poke n v).word p f = s.heap.word p f :=
    Function.update_of_ne (h.header_ne hb ho.le ho.lt hp f) ..
  have hrep := h.consistent.represents
  refine h.rearranged ⟨?_, ?_, ?_⟩ h.consistent.shaped (.refl _) rfl h.written
  · exact hrep.live.congr rfl fun p hp => hw p (Pool.mem_addrs_live hp)
  · exact hrep.holes.congr rfl fun p hp => hw p (Pool.mem_addrs_holes hp)
  · exact fun c hc => (hw _ (Pool.mem_addrs hc) .size).trans (hrep.sizes c hc)

-- The payloads are not affected by changes to headers.
theorem kept (hf : Framed m s.heap) (hb : b ∈ s.heap.pool.blocks) (hl : b.payload ≤ n)
    (hu : n < b.fin) : s.heap.mem n = m n :=
  (hf n).resolve_right fun ⟨p, hp, f, he⟩ => h.header_ne hb hl hu (h.written p hp) f he

theorem step (hs : Guarded PaddingFits (Step EXT_MEM) s c s') : s'.Sound := by
  obtain ⟨hg, hs⟩ := hs
  cases hs
  case malloc hn he hr => exact (h.malloc hg hn he hr).right
  case write ho        => exact (h.write ho).right
  case free p t hp he  =>
    have ⟨b, _, _, hfirst, hother⟩ := h.free hp
    by_cases hf : s.heap.pool.holes.head? = some b
    case pos => exact nomatch he.symm.trans (hfirst hf)
    case neg =>
      have ⟨t', he', _, ht'⟩ := hother hf
      cases Except.ok.inj (he.symm.trans he')
      exact ht'

-- What a block contains is not changed by anything but a write to it, and it stays live until it is
-- freed.
theorem step_kept (hs : Guarded PaddingFits (Step EXT_MEM) s c s') (ho : s.Owns b n)
    (hf : c ≠ .free b.pointer) (hw : ∀ v, c ≠ .write n v) :
    s'.Owns b n ∧ s'.heap.mem n = s.heap.mem n := by
  have h' := h.step hs
  have hlive : b ∈ s'.heap.pool.live → s'.Owns b n := fun hb => ⟨hb, ho.aligned, ho.le, ho.lt⟩
  have hmem (hb : b ∈ s'.heap.pool.live) (hm : Framed s.heap.mem s'.heap) :
      s'.heap.mem n = s.heap.mem n :=
    h'.kept hm (Pool.mem_blocks.mpr <| .inl hb) ho.le ho.lt
  have hclear : Framed s.heap.mem s.heap.clear := fun _ => .inl rfl
  obtain ⟨hg, hs⟩ := hs
  cases hs
  case malloc n p t hn he hr =>
    have hb : b ∈ t.pool.live := by
      rw [(h.malloc hg hn he hr).left]
      exact List.mem_insertBehind.mpr <| .inr ho.live
    exact ⟨hlive hb, hmem hb <| framed_stable.malloc hclear _ he⟩
  case free p t hp he =>
    have ⟨d, _, hdp, hfirst, hother⟩ := h.free hp
    have hdb : b ≠ d := fun hdb => hf <| hdb ▸ hdp ▸ rfl
    have hb : b ∈ t.pool.live := by
      by_cases hh : s.heap.pool.holes.head? = some d
      case pos => exact nomatch he.symm.trans (hfirst hh)
      case neg =>
        obtain ⟨t', he', hpool, _⟩ := hother hh
        cases Except.ok.inj (he.symm.trans he')
        rw [hpool]
        split
        case isTrue  => exact (List.mem_erase_of_ne hdb).mpr ho.live
        case isFalse => exact ho.live
    exact ⟨hlive hb, hmem hb <| framed_stable.free hclear _ he⟩
  case write d k v hd =>
    refine ⟨hlive ((h.write hd).left ▸ ho.live), Function.update_of_ne ?_ ..⟩
    exact fun hk => hw v (hk ▸ rfl)

end

theorem of_run (h : Run (Guarded PaddingFits (Step EXT_MEM)) (init kernel mem) cs s) : s.Sound :=
  h.invariant sound_init fun hs ht => hs.step ht

end Sound

-- Pointers may be freed again and again: the blocks are still kept apart. A call faults if the
-- pointer is that of the first hole, and it only changes the order of the holes if it is that of
-- another one.
theorem intact_of_run (h : Run (Guarded PaddingFits (Step EXT_MEM)) (init kernel mem) cs s) :
    s.heap.NoOverlap ∧ s.heap.pool.total = s.heap.regions.length * (sizeofDmemElem + EXT_MEM) ∧
    ∀ p ∈ s.got, ∃ b ∈ s.heap.pool.blocks, b.pointer = p ∧
      (s.heap.pool.holes.head? = some b → MemList.free s.heap.clear p = .error .nullDeref) ∧
      (s.heap.pool.holes.head? ≠ some b → ∃ t, MemList.free s.heap.clear p = .ok t ∧
        t.pool = if b ∈ s.heap.pool.live then s.heap.pool.free b else s.heap.pool.freeAgain b) := by
  have h := Sound.of_run h
  refine ⟨h.separated.noOverlap h.written, h.total, fun p hp => ?_⟩
  have ⟨b, hb, hbp, hfirst, hother⟩ := h.free hp
  refine ⟨b, hb, hbp, hfirst, fun hf => ?_⟩
  have ⟨t, he, ht, _⟩ := hother hf
  exact ⟨t, he, ht⟩

-- Both blocks are freed, and the second one once more. It is not the first hole, but the other is.
theorem intact_of_five_calls : ∃ s, Run (Guarded PaddingFits (Step EXT_MEM)) boot
      [.malloc 20, .malloc 60, .free 65552, .free 65584, .free 65584] s ∧
    s.heap.NoOverlap ∧ MemList.free s.heap.clear 65552 = .error .nullDeref := by
  have ⟨s, h, hg, hf⟩ := exists_run boot
    [.malloc 20, .malloc 60, .free 65552, .free 65584, .free 65584]
    (fun s => 65552 ∈ s.got ∧ ∀ b ∈ s.heap.pool.blocks, b.pointer = 65552 →
      s.heap.pool.holes.head? = some b) (by decide +kernel)
  have ⟨ho, _, hp⟩ := intact_of_run h
  have ⟨b, hb, hbp, hfirst, _⟩ := hp _ hg
  exact ⟨s, h, ho, hfirst (hf b hb hbp)⟩

-- What has been written to a block is there until the block is freed, whatever else is allocated,
-- freed and written.
theorem kept_of_run (h : Run (Guarded PaddingFits (Step EXT_MEM)) (init kernel mem) cs s)
    (h' : Run (Guarded PaddingFits (Step EXT_MEM)) s cs' s') (ho : s.Owns b n)
    (hc : ∀ c ∈ cs', c ≠ .free b.pointer ∧ ∀ v, c ≠ .write n v) :
    s'.Owns b n ∧ s'.heap.mem n = s.heap.mem n := by
  have hs := Sound.of_run h
  suffices hkept : s'.Sound ∧ s'.Owns b n ∧ s'.heap.mem n = s.heap.mem n from hkept.right
  induction h'
  case refl => exact ⟨hs, ho, rfl⟩
  case snoc cs₁ s₁ c s₂ _ ht hi =>
    have ⟨h₁, ho₁, hm₁⟩ := hi fun c hc' => hc c <| List.mem_append_left _ hc'
    have ⟨hf, hw⟩ := hc c <| List.mem_append_right _ List.mem_cons_self
    have ⟨ho₂, hm₂⟩ := h₁.step_kept ht ho₁ hf hw
    exact ⟨h₁.step ht, ho₂, hm₂.trans hm₁⟩

-- The block behind is freed and taken again, and another word of the first block is written.
theorem kept_of_three_actions : ∃ s s', s.heap.mem 65552 = 7 ∧
    Run (Guarded PaddingFits (Step EXT_MEM)) s [.free 65584, .malloc 12, .write 65556 3] s' ∧
    s'.heap.mem 65552 = s.heap.mem 65552 := by
  have ⟨s, h, hm, hb, hs⟩ := exists_run boot [.malloc 20, .malloc 60, .write 65552 7]
    (fun s => s.heap.mem 65552 = 7 ∧ (∃ b ∈ s.heap.pool.live, s.Owns b 65552 ∧ b.pointer = 65552) ∧
      ([Action.free 65584, .malloc 12, .write 65556 3].foldlM transit s).any (fun _ => true) = true)
    (by decide +kernel)
  have ⟨b, _, ho, hbp⟩ := hb
  have ⟨s', h', _⟩ := exists_run s [.free 65584, .malloc 12, .write 65556 3] (fun _ => True)
    (by simpa using hs)
  exact ⟨s, s', hm, h', (kept_of_run h h' ho (by simp [hbp])).right⟩

end Client
end MemList
