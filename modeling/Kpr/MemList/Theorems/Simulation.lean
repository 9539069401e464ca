import Kpr.MemList.Theorems.Represents
import Kpr.MemList.Theorems.Split
import Kpr.MemList.Theorems.Unlink
import Mathlib.Data.List.Find

open Machine Except

namespace MemList

variable {S : Set Nat} {s s' : Heap} {a : Pool} {b c : Block} {es₁ es₂ : List Nat}
  {hs₁ hs₂ : List Block} {e n r ρ : Nat}

-- The block `b` of a ring is cut if this is possible.
structure Cut (S : Set Nat) (es₁ es₂ : List Nat) (b : Block) (r : Nat) (s s' : Heap) : Prop where
  ring    : LinkRing s'.next s'.prev
              (es₁ ++ b.addr :: ((b.rest r).toList.map Block.addr ++ es₂))
  front   : s'.size b.addr = (b.front r).size
  rest    : ∀ c ∈ b.rest r, s'.size c.addr = c.size
  kept    : ∀ p ∈ S, p ≠ b.addr → (∀ c ∈ b.rest r, p ≠ c.addr) → s'.size p = s.size p
  head    : ∀ l, s'.head l = s.head l
  touched : Touched S {x | x ∈ es₁ ++ b.addr :: ((b.rest r).toList.map Block.addr ++ es₂)} s s'

theorem cut_of_not_splits (ht : LinkRing s.next s.prev (es₁ ++ b.addr :: es₂))
    (hsize : s.size b.addr = b.size) (h : ¬b.Splits r) : Cut S es₁ es₂ b r s s where
  ring           := by simpa [Block.rest, h] using ht
  front          := by simpa [Block.front_size, h] using hsize
  rest c hc      := absurd (Block.mem_rest.mp hc).left h
  kept _ _ _ _   := rfl
  head _         := rfl
  touched        := .refl

-- The alignment of the second header amounts to the padding.
theorem align_rest (hb : b.payload % ALIGN = 0) (hr : r % SIZE_INT = 0) (hc : c ∈ b.rest r)
    (h : c.payload ≤ 2 ^ 32) : align (Word.add (Word.add b.addr sizeofDmemElem) r) = c.addr := by
  have ⟨_, hc⟩ := Block.mem_rest.mp hc
  simp only [hc, Block.payload] at *
  have h₁ : Word.add b.addr sizeofDmemElem = b.addr + sizeofDmemElem := by
    apply Word.add_of_lt
    simp only [sizeofDmemElem] at *
    omega
  have h₂ : Word.add (b.addr + sizeofDmemElem) r = b.addr + sizeofDmemElem + r := by
    apply Word.add_of_lt
    simp only [sizeofDmemElem] at *
    omega
  have h₃ : (b.addr + sizeofDmemElem + r + sizeofDmemElem) % SIZE_INT = 0 := by
    simp only [sizeofDmemElem, SIZE_INT, ALIGN] at *
    omega
  rw [h₁, h₂, align_eq h₃ (by omega), Block.padding]
  have h₄ : (b.addr + sizeofDmemElem + r + sizeofDmemElem) % ALIGN = 0 ↔ ¬r % ALIGN = 0 := by
    simp only [sizeofDmemElem, SIZE_INT, ALIGN] at *
    omega
  by_cases h : r % ALIGN = 0 <;> simp [h₄, h]

theorem split_spec (hS : Headers S) (ht : LinkRing s.next s.prev (es₁ ++ b.addr :: es₂))
    (hs : ∀ x ∈ es₁ ++ b.addr :: es₂, x ∈ S) (hsize : s.size b.addr = b.size)
    (hb : b.payload % ALIGN = 0) (hr : r % SIZE_INT = 0)
    (hc : c ∈ b.rest r) (hcS : c.addr ∈ S) (hcn : c.addr ∉ es₁ ++ b.addr :: es₂) :
    ∃ s', split s b.addr r = .ok s' ∧ Cut S es₁ es₂ b r s s' := by
  have ⟨hsp, hce⟩ := Block.mem_rest.mp hc
  have hrest : b.rest r = some c := hc
  have hbm : b.addr ∈ es₁ ++ b.addr :: es₂ := by simp
  have hne : c.addr ≠ b.addr := fun e => hcn (e ▸ hbm)
  have hx := hs _ (ht.next_mem hbm)
  have hcx : c.addr ≠ s.next b.addr := fun e => hcn (e ▸ ht.next_mem hbm)
  have ha : align (Word.add (Word.add b.addr sizeofDmemElem) r) = c.addr :=
    align_rest hb hr hc (hS.below _ hcS)
  have hfit : r + sizeofDmemElem ≤ s.size b.addr := hsize ▸ Nat.le_of_lt hsp
  have heq := hS.split_eq (hs _ hbm) hcS hx hne ha hfit
  have hsz {p} (hp : p ∈ S) := hS.splitAt_size (r := r) (v := s.size b.addr - r - sizeofDmemElem)
    (hs _ hbm) hcS hx hp
  refine ⟨_, heq, ?_, ?_, ?_, ?_, fun l => ?_, ?_⟩
  · simpa [hrest] using splitAt_ring hS ht hs hcS hcn
  · rw [hsz (hs _ hbm), if_pos rfl, Block.front_size, if_pos hsp]
  · intro c' hc'
    cases Option.mem_unique hc hc'
    rw [hsz hcS, if_neg hne, if_pos rfl, hsize, hce]
  · intro p hp hpb hpc
    rw [hsz hp, if_neg hpb, if_neg (hpc c hc)]
  · simp [Heap.splitAt]
  · refine hS.splitAt_touched (hs _ hbm) hcS hx ?_
    have hx : s.next b.addr ∈ es₁ ++ b.addr :: es₂ := ht.next_mem hbm
    simp only [List.mem_append, List.mem_cons] at hx
    obtain hx | hx | hx := hx <;> simp [Set.insert_subset_iff, hrest, hx]

-- Cutting a block behind the test which both paths of `malloc` make.
theorem cut_spec (hS : Headers S) (ht : LinkRing s.next s.prev (es₁ ++ b.addr :: es₂))
    (hs : ∀ x ∈ es₁ ++ b.addr :: ((b.rest r).toList.map Block.addr ++ es₂), x ∈ S)
    (hn : (es₁ ++ b.addr :: ((b.rest r).toList.map Block.addr ++ es₂)).Nodup)
    (hsize : s.size b.addr = b.size) (hb : b.payload % ALIGN = 0)
    (hr : r % SIZE_INT = 0) :
    ∃ s', (if b.size - r > sizeofDmemElem then split s b.addr r else .ok s) = .ok s' ∧
      Cut S es₁ es₂ b r s s' := by
  have hiff : b.size - r > sizeofDmemElem ↔ b.Splits r := by
    simp only [Block.Splits]
    omega
  by_cases hsp : b.Splits r
  case neg =>
    rw [if_neg (hiff.not.mpr hsp)]
    exact ⟨s, rfl, cut_of_not_splits ht hsize hsp⟩
  case pos =>
    rw [if_pos (hiff.mpr hsp)]
    have hc := Block.mem_rest.mpr ⟨hsp, rfl⟩
    generalize Block.mk _ _ = c at hc
    have hrest : b.rest r = some c := hc
    simp only [hrest, Option.toList_some, List.map_cons, List.map_nil, List.singleton_append] at hs hn
    have hp : (es₁ ++ b.addr :: c.addr :: es₂).Perm (c.addr :: (es₁ ++ b.addr :: es₂)) :=
      (List.Perm.append_left es₁ (.swap ..)).trans List.perm_middle
    have hcn := (List.nodup_cons.mp <| hp.nodup_iff.mp hn).left
    exact split_spec hS ht (fun x hx => hs x (by simp at hx ⊢; tauto)) hsize hb hr hc
      (hs _ (by simp)) hcn

-- The headers while the hole `b` is taken: its remainder comes right behind it.
theorem malloc_addrs_of_hole (hh : a.holes = hs₁ ++ b :: hs₂) (hf : a.fitting r = some b) :
    ((a.malloc r ρ).blocks.map Block.addr).Perm (a.live.map Block.addr ++
      (hs₁.map Block.addr ++ b.addr :: ((b.rest r).toList.map Block.addr ++ hs₂.map Block.addr))) := by
  have hp := Pool.malloc_addrs_perm a r ρ
  have hb : a.blocks.map Block.addr = a.live.map Block.addr ++
      (hs₁.map Block.addr ++ b.addr :: hs₂.map Block.addr) := by
    simp [Pool.blocks, hh]
  have ha : a.added r ρ = (b.rest r).toList := by simp [Pool.added, hf]
  rw [ha, hb] at hp
  refine hp.trans <| (List.perm_append_comm_assoc ..).trans <| .append_left _ ?_
  exact (List.perm_append_comm_assoc ..).trans <| .append_left _ List.perm_middle

theorem takeHole_spec (h : Represents s a) (hs : a.Shaped) (hs' : (a.malloc r ρ).Shaped)
    (hr : r % SIZE_INT = 0) (hf : a.fitting r = some b) :
    ∃ s', takeHole s b.addr r = .ok (b.pointer, s') ∧ Represents s' (a.malloc r ρ) ∧
      Touched (a.malloc r ρ).addrs (a.malloc r ρ).addrs s s' := by
  have ⟨hs₁, hs₂, hh, h₁, hb⟩ := Pool.fitting_some hf
  have hS := hs'.headers_addrs
  have hp : ((a.malloc r ρ).blocks.map Block.addr).Perm _ := malloc_addrs_of_hole hh hf
  have ⟨_, hnd, hd⟩ := List.nodup_append.mp <| hp.nodup_iff.mp hs'.nodup_addr
  have hmem x := fun hx => Pool.mem_addrs_iff.mpr <| hp.mem_iff (a := x) |>.mpr hx
  have hL x hx := hmem x (List.mem_append_left _ hx)
  have hE x hx := hmem x (List.mem_append_right _ hx)
  have hLE : ∀ x ∈ a.live.map Block.addr, x ∉ hs₁.map Block.addr ++
      b.addr :: ((b.rest r).toList.map Block.addr ++ hs₂.map Block.addr) :=
    fun x hx hx' => hd x hx x hx' rfl
  have hbm := Pool.fitting_mem hf
  have htaken : a.taken r ρ = b := by simp [Pool.taken, hf]
  have hholes := hh ▸ h.holes
  rw [List.map_append, List.map_cons] at hholes
  have hlive : (a.malloc r ρ).live = a.insertLive (b.front r) :=
    congrArg Pool.live (Pool.malloc_of_hole hh h₁ hb hf)
  have hholes' : (a.malloc r ρ).holes.map Block.addr = hs₁.map Block.addr ++
      ((b.rest r).toList.map Block.addr ++ hs₂.map Block.addr) := by
    simp [Pool.malloc_of_hole hh h₁ hb hf]
  generalize hs₁.map Block.addr = es₁ at *
  generalize hs₂.map Block.addr = es₂ at *
  obtain ⟨s₁, he₁, hc⟩ := cut_spec hS hholes.ring hE hnd (h.sizes b hbm)
    (hs.aligned b hbm) hr
  have ht₁ : Threaded s₁ .holes (es₁ ++ b.addr :: ((b.rest r).toList.map Block.addr ++ es₂)) := by
    refine ⟨(hc.head _).trans <| hholes.head.trans ?_, hc.ring⟩
    cases es₁ <;> rfl
  have hl₁ := h.live.frame hc.touched (hc.head _) hL hLE
  obtain ⟨s₂, he₂, hr₂, ht₂, hh₂⟩ := removeFrom_spec hS ht₁ hE
  have hl₂ := hl₁.frame hr₂.toTouched (hh₂ _ (by simp)) hL hLE
  have hbL : b.addr ∉ a.live.map Block.addr := fun hx => hLE _ hx (by simp)
  obtain ⟨s₃, he₃, hr₃, ht₃, hh₃⟩ := enterProcesses_spec (b := b.front r) hS hL
    (by simpa using hE b.addr (by simp)) (by simpa using hbL) hl₂
  have hE' : ∀ x ∈ es₁ ++ ((b.rest r).toList.map Block.addr ++ es₂),
      x ∈ es₁ ++ b.addr :: ((b.rest r).toList.map Block.addr ++ es₂) := fun x hx => by
    simp only [List.mem_append, List.mem_cons] at hx ⊢
    tauto
  have hsize : ∀ x ∈ (a.malloc r ρ).addrs, s₃.size x = s₁.size x := fun x hx =>
    (hr₃.size x hx).trans (hr₂.size x hx)
  refine ⟨s₃, ?_, ⟨?_, ?_, ?_⟩, ?_⟩
  · rw [Block.front_addr] at he₃
    simp only [takeHole, hS.load_eq (hE b.addr (by simp)), ok_bind, h.sizes b hbm,
      Heap.subSize_of_le hb, pure_eq_ok]
    refine (ite_bind he₁).trans ?_
    simp only [removeFromHoles, he₂, ok_bind]
    exact ite_bind he₃
  · exact hlive ▸ ht₃
  · refine hholes' ▸ ht₂.frame hr₃.toTouched hh₃ (fun x hx => hE x (hE' x hx)) fun x hx hx' => ?_
    exact hs'.disjoint (hlive ▸ hx') (hholes' ▸ hx)
  · refine Pool.malloc_forall hs.nodup (fun d hd hne => ?_) ?_ fun c hcr => ?_
    · have hdb : d ≠ b := fun e => hne (e ▸ hf)
      rw [hsize _ (Pool.addrs_subset_malloc (Pool.mem_addrs hd)), ← h.sizes d hd]
      refine hc.kept _ (Pool.addrs_subset_malloc (Pool.mem_addrs hd))
        (hs.headers.forall hd hbm hdb).ne fun c hcr e => ?_
      exact hs'.added_new (Pool.mem_added_rest (htaken ▸ hcr)) (e ▸ List.mem_map_of_mem hd)
    · rw [htaken, Block.front_addr, hsize _ (hE _ (by simp)), hc.front]
    · rw [htaken] at hcr
      rw [hsize _ (Pool.mem_addrs_malloc <| Pool.mem_added_rest (htaken ▸ hcr)), hc.rest c hcr]
  · refine .trans (hc.touched.mono hE) <| .trans (hr₂.toTouched.mono hE) <| hr₃.toTouched.mono ?_
    exact fun x hx => Pool.mem_addrs_live (hlive ▸ hx)

-- A block outside of the lists is cut, and its remainder becomes a hole before `malloc` continues.
theorem keepRest_spec {bs : List Block} (hS : Headers S) (ht : Threaded s .holes (bs.map Block.addr))
    (hne : bs ≠ []) (hring : LinkRing s.next s.prev [b.addr]) (hbS : b.addr ∈ S)
    (hs : ∀ x ∈ bs.map Block.addr, x ∈ S) (hn : b.addr ∉ bs.map Block.addr)
    (hrS : ∀ c ∈ b.rest r, c.addr ∈ S) (hrn : ∀ c ∈ b.rest r, c.addr ∉ bs.map Block.addr)
    (hsize : s.size b.addr = b.size) (hsizes : ∀ c ∈ bs, s.size c.addr = c.size)
    (hb : b.payload % ALIGN = 0) (hr : r % SIZE_INT = 0) :
    ∃ s', (∀ f : Heap → Except Fault (Nat × Heap), (if b.size - r > sizeofDmemElem then do
        let s ← split s b.addr r
        insertIntoHoles s (s.word b.addr .next) >>= f
      else f s) = f s') ∧
      Threaded s' .holes (((b.rest r).elim bs fun c =>
        bs.insertBehind (·.size ≤ c.size) c).map Block.addr) ∧
      s'.size b.addr = (b.front r).size ∧ (∀ c ∈ b.rest r, s'.size c.addr = c.size) ∧
      (∀ c ∈ bs, s'.size c.addr = c.size) ∧
      s'.processesHead = s.processesHead ∧
      Touched S {x | x = b.addr ∨ (∃ c ∈ b.rest r, x = c.addr) ∨ x ∈ bs.map Block.addr} s s' := by
  have hnull := ht.head_eq_null_iff hS hs
  by_cases hsp : b.Splits r
  case neg =>
    have hrest : b.rest r = none := if_neg hsp
    have hc : ¬b.size - r > sizeofDmemElem := by
      simp only [Block.Splits] at hsp
      omega
    refine ⟨s, fun _ => if_neg hc, by simpa [hrest] using ht, ?_, by simp [hrest], hsizes, rfl, .refl⟩
    rw [hsize, Block.front_size, if_neg hsp]
  case pos =>
    have hcond : b.size - r > sizeofDmemElem := by
      simp only [Block.Splits] at hsp
      omega
    have hc := Block.mem_rest.mpr ⟨hsp, rfl⟩
    generalize Block.mk _ _ = c at hc
    have hrest : b.rest r = some c := hc
    have hbc : c.addr ≠ b.addr := by
      have := Block.le_rest_addr hc
      simp only [Block.payload, sizeofDmemElem] at this
      omega
    obtain ⟨s₁, he₁, hcut⟩ : ∃ s₁, split s b.addr r = .ok s₁ ∧ Cut S [] [] b r s s₁ :=
      split_spec hS hring (by simpa using hbS) hsize hb hr hc (hrS c hc) (by simpa using hbc)
    have hnext : s₁.word b.addr .next = c.addr := by
      have hring := hcut.ring
      simp only [hrest] at hring
      exact (hring.linked_of_append (k := [])).left
    have hne₁ : ∀ x ∈ bs.map Block.addr, x ≠ b.addr ∧ x ≠ c.addr :=
      fun x hx => ⟨fun e => hn (e ▸ hx), fun e => hrn c hc (e ▸ hx)⟩
    have ht₁ : Threaded s₁ .holes (bs.map Block.addr) := by
      refine ht.frame hcut.touched (hcut.head _) hs fun x hx => ?_
      simpa [hrest] using hne₁ x hx
    have hsz₁ : ∀ d ∈ bs, s₁.size d.addr = d.size := by
      intro d hd
      obtain ⟨hdb, hdc⟩ := hne₁ _ (List.mem_map_of_mem hd)
      refine (hcut.kept _ (hs _ <| List.mem_map_of_mem hd) hdb fun c' hc' => ?_).trans (hsizes d hd)
      exact Option.mem_unique hc hc' ▸ hdc
    obtain ⟨s₂, he₂, hr₂, ht₂, hh₂⟩ := enterHoles_spec hS hs (hrS c hc) (hrn c hc) ht₁
      (hcut.rest c hc) hsz₁
    have hhead : s₁.holesHead ≠ NULL := by
      have hh : s₁.holesHead = s.holesHead := hcut.head .holes
      exact hh ▸ hnull.not.mpr (by simpa using hne)
    rw [if_neg hhead] at he₂
    refine ⟨s₂, ?_, by simpa [hrest] using ht₂, ?_, ?_, ?_, ?_, ?_⟩
    · have he₂ : insertIntoHoles s₁ c.addr = .ok s₂ := he₂
      intro f
      rw [if_pos hcond, he₁, ok_bind, hnext, he₂, ok_bind]
    · exact (hr₂.size _ hbS).trans hcut.front
    · exact fun c hc => (hr₂.size _ (hrS c hc)).trans (hcut.rest c hc)
    · exact fun d hd => (hr₂.size _ (hs _ <| List.mem_map_of_mem hd)).trans (hsz₁ d hd)
    · exact hh₂.trans (hcut.head .processes)
    · refine .trans (hcut.touched.mono ?_) (hr₂.toTouched.mono ?_)
      · simp [Set.subset_def, hrest]
      · intro x hx
        obtain ⟨d, hd, hx⟩ := List.mem_map.mp hx
        cases List.mem_insertBehind.mp hd
        case inl hd => exact .inr <| .inl ⟨c, hc, hd ▸ hx.symm⟩
        case inr hd => exact .inr <| .inr <| List.mem_map.mpr ⟨d, hd, hx⟩

-- The heap after `extendMem` has been called.
def Heap.extended (s : Heap) : Heap :=
  { s with regions := s.nextRegion :: s.regions }

-- The writes which make a region a block of its own, outside of the lists.
def Heap.made (s : Heap) (e : Nat) : Heap :=
  ((s.put e .size EXT_MEM).put e .next e).put e .prev e

theorem made_ring (hS : Headers S) (he : e ∈ S) : LinkRing (s.made e).next (s.made e).prev [e] :=
  LinkRing.singleton_iff.mpr <| by simp [Heap.made, hS.word_put he he]

theorem made_size (hS : Headers S) (he : e ∈ S) : (s.made e).size e = EXT_MEM := by
  simp [Heap.made, hS.word_put he he]

theorem made_touched (hS : Headers S) (he : e ∈ S) {T : Set Nat} (ht : e ∈ T) :
    Touched S T s (s.made e) :=
  Touched.refl |>.put hS he ht |>.put hS he ht |>.put hS he ht

-- Nothing changes for the blocks which are present already.
theorem Represents.made (h : Represents s a) (hS : Headers S) (he : e ∈ S)
    (ha : ∀ x ∈ a.blocks.map Block.addr, x ∈ S) (hn : e ∉ a.blocks.map Block.addr) :
    Threaded (s.extended.made e) .processes (a.live.map Block.addr) ∧
      Threaded (s.extended.made e) .holes (a.holes.map Block.addr) ∧
      ∀ c ∈ a.blocks, (s.extended.made e).size c.addr = c.size := by
  have ht : Touched S {e} s.extended (s.extended.made e) := made_touched hS he rfl
  have hne : ∀ x ∈ a.blocks.map Block.addr, x ≠ e := fun x hx hxe => hn (hxe ▸ hx)
  have hlm : ∀ x ∈ a.live.map Block.addr, x ∈ a.blocks.map Block.addr :=
    fun x hx => Pool.mem_addrs_iff.mp (Pool.mem_addrs_live hx)
  have hhm : ∀ x ∈ a.holes.map Block.addr, x ∈ a.blocks.map Block.addr :=
    fun x hx => Pool.mem_addrs_iff.mp (Pool.mem_addrs_holes hx)
  refine ⟨?_, ?_, fun c hc => ?_⟩
  · exact Threaded.frame (s := s.extended) ⟨h.live.head, h.live.ring⟩ ht (by simp [Heap.made])
      (fun x hx => ha x (hlm x hx)) fun x hx => hne x (hlm x hx)
  · exact Threaded.frame (s := s.extended) ⟨h.holes.head, h.holes.ring⟩ ht (by simp [Heap.made])
      (fun x hx => ha x (hhm x hx)) fun x hx => hne x (hhm x hx)
  · have hx := List.mem_map_of_mem (f := Block.addr) hc
    exact (ht.word _ (ha _ hx) (hne _ hx) .size).trans (h.sizes c hc)

theorem RegionOk.align_eq (h : RegionOk ρ) : align ρ = (regionBlock ρ).addr := by
  have hb : regionBytes = 36864 := rfl
  obtain ⟨_, hp, hbelow⟩ := h
  have h₁ : (ρ + sizeofDmemElem) % SIZE_INT = 0 := by
    simp only [sizeofDmemElem, SIZE_INT]
    omega
  have h₂ : ¬(ρ + sizeofDmemElem) % ALIGN = 0 := by
    simp only [sizeofDmemElem, ALIGN]
    omega
  have h₃ : ρ + sizeofDmemElem ≤ 2 ^ 32 := by
    simp only [sizeofDmemElem]
    omega
  rw [MemList.align_eq h₁ h₃, if_neg h₂]
  rfl

-- The region becomes a block, its remainder a hole. It is left to enter the block as a live one.
theorem takeRegion_eq (h : Represents s a) (hρ : RegionOk s.nextRegion) (hs : a.Shaped)
    (hs' : (a.malloc r s.nextRegion).Shaped) (hr : r % SIZE_INT = 0) (hr' : r ≤ EXT_MEM)
    (hf : a.fitting r = none) (hh : a.holes ≠ []) :
    ∃ s', (takeRegion s r = do
        let t ← insertIntoProcesses s' (regionBlock s.nextRegion).addr
        return ((regionBlock s.nextRegion).pointer, t)) ∧
      Threaded s' .processes (a.live.map Block.addr) ∧
      Threaded s' .holes ((a.malloc r s.nextRegion).holes.map Block.addr) ∧
      (∀ c ∈ (a.malloc r s.nextRegion).blocks, s'.size c.addr = c.size) ∧
      Touched (a.malloc r s.nextRegion).addrs (a.malloc r s.nextRegion).addrs s.extended s' := by
  have hS := hs'.headers_addrs
  have hmalloc : a.malloc r s.nextRegion = _ := Pool.malloc_of_region hf
  have halign := hρ.align_eq
  have haligned := hρ.block_aligned
  have hadded {c} : c ∈ a.added r s.nextRegion ↔
      c = (regionBlock s.nextRegion).front r ∨ c ∈ (regionBlock s.nextRegion).rest r := by
    simp [Pool.added, hf]
  have htaken : a.taken r s.nextRegion = regionBlock s.nextRegion := by simp [Pool.taken, hf]
  have hsize : (regionBlock s.nextRegion).size = EXT_MEM := rfl
  generalize regionBlock s.nextRegion = b at hmalloc halign haligned hadded htaken hsize ⊢
  have hbS : b.addr ∈ (a.malloc r s.nextRegion).addrs :=
    Block.front_addr (r := r) ▸ Pool.mem_addrs_malloc (hadded.mpr <| .inl rfl)
  have hbn : b.addr ∉ a.blocks.map Block.addr :=
    Block.front_addr (r := r) ▸ hs'.added_new (hadded.mpr <| .inl rfl)
  have hrS c hc := Pool.mem_addrs_malloc (hadded (c := c).mpr <| .inr hc)
  have hrn c hc := hs'.added_new (hadded (c := c).mpr <| .inr hc)
  generalize hSdef : (a.malloc r s.nextRegion).addrs = S at hS hbS hrS ⊢
  have haS : ∀ x ∈ a.blocks.map Block.addr, x ∈ S :=
    fun x hx => hSdef ▸ Pool.addrs_subset_malloc (Pool.mem_addrs_iff.mpr hx)
  have hlm : ∀ x ∈ a.live.map Block.addr, x ∈ a.blocks.map Block.addr :=
    fun x hx => Pool.mem_addrs_iff.mp (Pool.mem_addrs_live hx)
  have hhm : ∀ x ∈ a.holes.map Block.addr, x ∈ a.blocks.map Block.addr :=
    fun x hx => Pool.mem_addrs_iff.mp (Pool.mem_addrs_holes hx)
  have hlS x hx := haS x (hlm x hx)
  have hhS x hx := haS x (hhm x hx)
  obtain ⟨hl₁, hh₁, hsz₁⟩ := h.made hS hbS haS hbn
  have ht₁ : Touched S {b.addr} s.extended (s.extended.made b.addr) := made_touched hS hbS rfl
  have hbsz : (s.extended.made b.addr).size b.addr = EXT_MEM := made_size hS hbS
  obtain ⟨s₂, he₂, hh₂, hf₂, hr₂, hb₂, hp₂, ht₂⟩ := keepRest_spec hS hh₁ hh (made_ring hS hbS) hbS hhS
    (fun hx => hbn (hhm _ hx)) hrS (fun c hc hx => hrn c hc (hhm _ hx)) (hbsz.trans hsize.symm)
    (fun c hc => hsz₁ c <| Pool.mem_blocks.mpr <| .inr hc) haligned hr
  have hlT : ∀ x ∈ a.live.map Block.addr,
      ¬(x = b.addr ∨ (∃ c ∈ b.rest r, x = c.addr) ∨ x ∈ a.holes.map Block.addr) := by
    intro x hx
    rintro (rfl | ⟨c, hc, rfl⟩ | hx')
    · exact hbn (hlm _ hx)
    · exact hrn c hc (hlm _ hx)
    · exact hs.disjoint hx hx'
  refine ⟨s₂, ?_, hl₁.frame ht₂ hp₂ hlS hlT, hmalloc ▸ hh₂, ?_, ?_⟩
  · have hext : extendMem s = (s.nextRegion, s.extended) := rfl
    have hmade : ((s.extended.put b.addr .size EXT_MEM).put b.addr .next b.addr).put b.addr .prev
      b.addr = s.extended.made b.addr := rfl
    simp only [takeRegion, hext, halign, hS.store_eq hbS, hS.load_eq hbS, ok_bind, pure_eq_ok, hmade,
      hbsz, Heap.subSize_of_le hr']
    exact hsize ▸ he₂ _
  · refine Pool.malloc_forall hs.nodup (fun c hc _ => ?_) ?_ fun c hc => ?_
    · cases Pool.mem_blocks.mp hc
      case inr hc => exact hb₂ c hc
      case inl hcl =>
        have hx := List.mem_map_of_mem (f := Block.addr) hcl
        exact (ht₂.word _ (hlS _ hx) (hlT _ hx) .size).trans (hsz₁ c hc)
    · rw [htaken, Block.front_addr, hf₂]
    · exact hr₂ c (htaken ▸ hc)
  · refine .trans (ht₁.mono ?_) (ht₂.mono ?_)
    · exact Set.singleton_subset_iff.mpr hbS
    · rintro x (hx | ⟨c, hc, hx⟩ | hx)
      · exact hx ▸ hbS
      · exact hx ▸ hrS c hc
      · exact hhS x hx

section

variable (h : Represents s a) (hρ : RegionOk s.nextRegion) (hs : a.Shaped)
  (hs' : (a.malloc r s.nextRegion).Shaped) (hr : r % SIZE_INT = 0) (hr' : r ≤ EXT_MEM)
  (hf : a.fitting r = none) (hh : a.holes ≠ [])
include h hρ hs hs' hr hr' hf hh

theorem takeRegion_spec (hl : a.live ≠ []) :
    ∃ s', takeRegion s r = .ok ((regionBlock s.nextRegion).pointer, s') ∧
      Represents s' (a.malloc r s.nextRegion) ∧
      Touched (a.malloc r s.nextRegion).addrs (a.malloc r s.nextRegion).addrs s.extended s' := by
  have ⟨s₁, he₁, hl₁, hh₁, hsz₁, ht₁⟩ := takeRegion_eq h hρ hs hs' hr hr' hf hh
  have hS := hs'.headers_addrs
  have hmem : (regionBlock s.nextRegion).front r ∈ a.added r s.nextRegion := by
    simp [Pool.added, hf]
  have hbS := Pool.mem_addrs_malloc hmem
  have hbn := hs'.added_new hmem
  have hlS : ∀ x ∈ a.live.map Block.addr, x ∈ (a.malloc r s.nextRegion).addrs :=
    fun x hx => Pool.addrs_subset_malloc (Pool.mem_addrs_live hx)
  have hnull := hl₁.head_eq_null_iff hS hlS
  obtain ⟨s₂, he₂, hr₂, ht₂, hh₂⟩ := enterProcesses_spec hS hlS hbS
    (fun hx => hbn <| by simp [Pool.blocks] at hx ⊢; exact .inl hx) hl₁
  have hhead : s₁.processesHead ≠ NULL := hnull.not.mpr (by simpa using hl)
  rw [if_neg hhead, Block.front_addr] at he₂
  have hlive : (a.malloc r s.nextRegion).live = a.insertLive ((regionBlock s.nextRegion).front r) :=
    congrArg Pool.live (Pool.malloc_of_region hf)
  refine ⟨s₂, by rw [he₁, he₂]; rfl, ⟨hlive ▸ ht₂, ?_, fun c hc => ?_⟩, ?_⟩
  · exact hh₁.frame hr₂.toTouched hh₂ (fun x => Pool.mem_addrs_holes) fun x hx hx' =>
      hs'.disjoint (hlive ▸ hx') hx
  · exact (hr₂.size _ (Pool.mem_addrs hc)).trans (hsz₁ c hc)
  · exact ht₁.trans <| hr₂.toTouched.mono fun x hx => Pool.mem_addrs_live (hlive ▸ hx)

-- Without live blocks, there is no list which the block could be inserted into.
theorem takeRegion_fault (hl : a.live = []) : takeRegion s r = .error .nullDeref := by
  have ⟨s₁, he₁, hl₁, _⟩ := takeRegion_eq h hρ hs hs' hr hr' hf hh
  have hhead : s₁.head .processes = NULL := by simpa [hl] using hl₁.head
  have hb : loopBound = (2 ^ 32 - 1) + 1 := by
    simp only [loopBound, Nat.reducePow, Nat.reduceSub, Nat.reduceAdd]
  rw [he₁, insertIntoProcesses, insertInto, hhead, hb, advance, Heap.load, if_pos rfl]
  rfl

end

-- A pool without holes, after a region has been made its only hole.
def Pool.refilled (a : Pool) (ρ : Nat) : Pool where
  live  := a.live
  holes := [regionBlock ρ]

namespace Pool

theorem refilled_fitting (hr : r ≤ EXT_MEM) : (a.refilled ρ).fitting r = some (regionBlock ρ) := by
  have hr : r ≤ (regionBlock ρ).size := hr
  simp [refilled, fitting, hr]

variable (hh : a.holes = [])
include hh

theorem refilled_malloc (hr : r ≤ EXT_MEM) : (a.refilled ρ).malloc r ρ = a.malloc r ρ := by
  have hf : a.fitting r = none := by simp [fitting, hh]
  have hf' : (a.refilled ρ).fitting r = _ := refilled_fitting hr
  have hh' : (a.refilled ρ).holes = [] ++ regionBlock ρ :: [] := rfl
  rw [malloc_of_hole hh' (List.forall_mem_nil _) hr hf', malloc_of_region hf]
  cases (regionBlock ρ).rest r <;> simp [refilled, insertLive, insertHole, hh, List.insertBehind]

theorem Shaped.refilled (h : a.Shaped) (hρ : RegionOk ρ) (hf : a.HeadersFit r ρ) :
    (a.refilled ρ).Shaped := by
  have hn : a.fitting r = none := by simp [fitting, hh]
  have hb : a.blocks = a.live := by simp [blocks, hh]
  obtain ⟨hp, ha⟩ := hf ((regionBlock ρ).front r) (by simp [added, hn])
  have hforall {P : Block → Prop} (hl : ∀ b ∈ a.blocks, P b) (hr : P (regionBlock ρ)) :
      ∀ b ∈ (a.refilled ρ).blocks, P b := by
    simpa [blocks, Pool.refilled, or_imp, forall_and] using ⟨hb ▸ hl, hr⟩
  constructor
  case ascending => exact h.ascending
  case aligned   => exact hforall h.aligned hρ.block_aligned
  case sized     => exact hforall h.sized (by decide : EXT_MEM % SIZE_INT = 0)
  case below     => exact hforall h.below (by simpa using hp)
  case headers   =>
    refine List.pairwise_append.mpr ⟨hb ▸ h.headers, List.pairwise_singleton .., fun b hb' c hc => ?_⟩
    have ha := ha b (hb ▸ hb')
    simpa [List.mem_singleton.mp hc, Block.HeadersApart] using ha

end Pool

-- The first region serves as the only hole.
theorem createHoles_spec (h : Represents s a) (hh : a.holes = []) (hρ : RegionOk s.nextRegion)
    (hS : Headers S) (haS : a.addrs ⊆ S) (hb : (regionBlock s.nextRegion).addr ∈ S)
    (hbn : (regionBlock s.nextRegion).addr ∉ a.blocks.map Block.addr) :
    ∃ s', createHoles s = .ok s' ∧ Represents s' (a.refilled s.nextRegion) ∧
      Touched S S s.extended s' := by
  have halign := hρ.align_eq
  have hsize : (regionBlock s.nextRegion).size = EXT_MEM := rfl
  have hrefilled :
      a.refilled s.nextRegion = { live := a.live, holes := [regionBlock s.nextRegion] } :=
    rfl
  rw [hrefilled]
  generalize regionBlock s.nextRegion = b at *
  let s₁ := (s.extended.setHead .holes b.addr).put b.addr .size EXT_MEM
  have ht₁ : Touched S {b.addr} s.extended s₁ :=
    Heap.setHead_relinked.toTouched |>.put hS hb (Set.mem_singleton _)
  have hr₂ : Relinked S {b.addr} s₁ (s₁.started .holes b.addr) := started_relinked hS hb rfl
  have ht₂ := ht₁.trans hr₂.toTouched
  have hlS : ∀ x ∈ a.live.map Block.addr, x ∈ S := fun x hx => haS (Pool.mem_addrs_live hx)
  have hlb : ∀ x ∈ a.live.map Block.addr, x ≠ b.addr :=
    fun x hx e => hbn <| by rwa [Pool.blocks, hh, List.append_nil, ← e]
  refine ⟨s₁.started .holes b.addr, ?_, ⟨?_, started_threaded hS hb, ?_⟩, ht₂.mono ?_⟩
  · have hext : extendMem s = (s.nextRegion, s.extended) := rfl
    have hhead : (s.extended.setHead .holes b.addr).holesHead = b.addr := rfl
    have hhead₁ : s₁.holesHead = b.addr := rfl
    simp only [createHoles, hext, halign, hhead, hS.store_eq hb, ok_bind]
    exact hhead₁ ▸ startList_eq hS hb
  · exact Threaded.frame (s := s.extended) ⟨h.live.head, h.live.ring⟩ ht₂ rfl hlS hlb
  · intro c hc
    cases Pool.mem_blocks.mp hc
    case inl hc =>
      have hx := List.mem_map_of_mem (f := Block.addr) hc
      refine (ht₂.word _ (hlS _ hx) (hlb _ hx) .size).trans <| h.sizes c ?_
      exact Pool.mem_blocks.mpr <| .inl hc
    case inr hc =>
      rw [List.mem_singleton.mp hc]
      refine (hr₂.size _ hb).trans ?_
      simp [s₁, hS.word_put hb hb, hsize]
  · exact Set.singleton_subset_iff.mpr hb

theorem findHole_eq (h : Represents s a) (hs : a.Shaped) (hh : a.holes ≠ []) :
    findHole s r loopBound s.holesHead = .ok ((a.fitting r).map Block.addr) := by
  have hS := hs.headers_addrs
  have hhS : ∀ x ∈ a.holes.map Block.addr, x ∈ a.addrs := fun x => Pool.mem_addrs_holes
  have hlen := length_le_loopBound hS hhS h.holes.ring.nodup
  have hfind : (a.holes.map Block.addr).find? (r ≤ s.size ·) = (a.fitting r).map Block.addr := by
    rw [List.find?_map, Pool.fitting]
    refine congrArg _ <| List.find?_congr fun c hc => ?_
    simp [h.sizes c (Pool.mem_blocks.mpr <| .inr hc)]
  have ht := h.holes
  cases hc : a.holes
  case nil        => contradiction
  case cons c hs =>
    rw [hc, List.map_cons] at ht hhS hlen hfind
    have hhead : s.holesHead = c.addr := ht.head
    rw [hhead, findHole_spec [] hS ht hhS hlen, hfind]

theorem holesHead_eq_null_iff (h : Represents s a) (hs : a.Shaped) :
    s.holesHead = NULL ↔ a.holes = [] :=
  (h.holes.head_eq_null_iff hs.headers_addrs fun _ => Pool.mem_addrs_holes).trans List.map_eq_nil_iff

-- With some hole, `malloc` is decided by the search.
theorem malloc_of_holes (h : Represents s a) (hs : a.Shaped) (hn : n ≤ EXT_MEM) (hh : a.holes ≠ []) :
    malloc s n =
      match a.fitting (rounded n) with
      | some b => takeHole s b.addr (rounded n)
      | none   => takeRegion s (rounded n) := by
  have hnull := (holesHead_eq_null_iff h hs).not.mpr hh
  simp only [malloc, alignSize_eq hn]
  simp only [if_neg hnull, pure_eq_ok, findHole_eq h hs hh, ok_bind]
  cases a.fitting (rounded n) <;> rfl

section

variable (h : Represents s a) (hs : a.Shaped) (hn : n ≤ EXT_MEM)
  (hf : a.HeadersFit (rounded n) s.nextRegion)
  (hρ : a.fitting (rounded n) = none → RegionOk s.nextRegion)
include h hs hn hf hρ

-- Without any hole, the first region is made one.
theorem malloc_of_no_holes (hh : a.holes = []) :
    ∃ s', malloc s n = .ok ((a.taken (rounded n) s.nextRegion).pointer, s') ∧
      Represents s' (a.malloc (rounded n) s.nextRegion) ∧
      Touched (a.malloc (rounded n) s.nextRegion).addrs (a.malloc (rounded n) s.nextRegion).addrs
        s.extended s' := by
  have hr := (rounded_spec n).left
  have hr' := rounded_le hn
  have hs' := hs.malloc hr hf hρ
  have hc : a.fitting (rounded n) = none := by simp [Pool.fitting, hh]
  have hmem : (regionBlock s.nextRegion).front (rounded n) ∈ a.added (rounded n) s.nextRegion := by
    simp [Pool.added, hc]
  obtain ⟨s₁, he₁, h₁, ht₁⟩ := createHoles_spec h hh (hρ hc) hs'.headers_addrs
    Pool.addrs_subset_malloc (Block.front_addr ▸ Pool.mem_addrs_malloc hmem)
    (Block.front_addr ▸ hs'.added_new hmem)
  have hs₁ := Pool.Shaped.refilled hh hs (hρ hc) hf
  have hf₁ : (a.refilled s.nextRegion).fitting (rounded n) = _ := Pool.refilled_fitting hr'
  have hm₁ : (a.refilled s.nextRegion).malloc (rounded n) s.nextRegion = _ :=
    Pool.refilled_malloc hh hr'
  obtain ⟨s₂, he₂, h₂, ht₂⟩ := takeHole_spec h₁ hs₁ (hm₁ ▸ hs') hr hf₁
  rw [hm₁] at h₂ ht₂
  refine ⟨s₂, ?_, h₂, ht₁.trans ht₂⟩
  simp only [malloc, alignSize_eq hn]
  refine (if_pos <| (holesHead_eq_null_iff h hs).mpr hh).trans ?_
  rw [he₁, ok_bind, findHole_eq h₁ hs₁ (by simp [Pool.refilled]), hf₁, Pool.taken, hc]
  exact he₂

theorem malloc_spec (hl : a.fitting (rounded n) = none → a.holes ≠ [] → a.live ≠ []) :
    ∃ s', malloc s n = .ok ((a.taken (rounded n) s.nextRegion).pointer, s') ∧
      Represents s' (a.malloc (rounded n) s.nextRegion) ∧
      Touched (a.malloc (rounded n) s.nextRegion).addrs (a.malloc (rounded n) s.nextRegion).addrs
        (if a.fitting (rounded n) = none then s.extended else s) s' := by
  have hr := (rounded_spec n).left
  have hs' := hs.malloc hr hf hρ
  by_cases hh : a.holes = []
  case pos =>
    have hc : a.fitting (rounded n) = none := by simp [Pool.fitting, hh]
    rw [if_pos hc]
    exact malloc_of_no_holes h hs hn hf hρ hh
  case neg =>
    rw [malloc_of_holes h hs hn hh, Pool.taken]
    cases hc : a.fitting (rounded n)
    case some b => exact takeHole_spec h hs hs' hr hc
    case none   => exact takeRegion_spec h (hρ hc) hs hs' hr (rounded_le hn) hc hh (hl hc hh)

theorem malloc_fault (hc : a.fitting (rounded n) = none) (hh : a.holes ≠ []) (hl : a.live = []) :
    malloc s n = .error .nullDeref := by
  have hr := (rounded_spec n).left
  rw [malloc_of_holes h hs hn hh, hc]
  exact takeRegion_fault h (hρ hc) hs (hs.malloc hr hf hρ) hr (rounded_le hn) hc hh hl

end

theorem free_spec (h : Represents s a) (hs : a.Shaped) (hb : b ∈ a.live) :
    ∃ s', free s b.pointer = .ok s' ∧ Represents s' (a.free b) ∧ Touched a.addrs a.addrs s s' := by
  have hS := hs.headers_addrs
  have hbm := Pool.mem_blocks.mpr <| .inl hb
  have hlS : ∀ x ∈ a.live.map Block.addr, x ∈ a.addrs := fun x => Pool.mem_addrs_live
  have hhS : ∀ x ∈ a.holes.map Block.addr, x ∈ a.addrs := fun x => Pool.mem_addrs_holes
  have hp := Block.sub_pointer (hs.below b hbm)
  have ⟨ls₁, ls₂, hl⟩ := List.append_of_mem hb
  have hn := hs.nodup_addr
  rw [Pool.blocks, List.map_append] at hn
  have hnl := (List.nodup_append.mp hn).left
  have ht := h.live
  rw [hl, List.map_append, List.map_cons] at ht hlS hnl
  obtain ⟨s₁, he₁, hr₁, ht₁, hh₁⟩ := removeFrom_spec hS ht hlS
  have hholes : Threaded s₁ .holes (a.holes.map Block.addr) := by
    refine h.holes.frame hr₁.toTouched (hh₁ _ (by simp)) hhS fun x hx hx' => ?_
    exact hs.disjoint (by simpa [hl] using hx') hx
  have hsz₁ : ∀ c ∈ a.blocks, s₁.size c.addr = c.size :=
    fun c hc => (hr₁.size _ <| Pool.mem_addrs hc).trans (h.sizes c hc)
  obtain ⟨s₂, he₂, hr₂, ht₂, hh₂⟩ := enterHoles_spec hS hhS (Pool.mem_addrs hbm)
    (hs.disjoint <| List.mem_map_of_mem hb) hholes (hsz₁ b hbm)
    fun c hc => hsz₁ c <| Pool.mem_blocks.mpr <| .inr hc
  have herase : (a.live.erase b).map Block.addr = ls₁.map Block.addr ++ ls₂.map Block.addr := by
    have hb₁ : b ∉ ls₁ := fun hb₁ =>
      (List.nodup_append.mp hnl).right.right _ (List.mem_map_of_mem hb₁) b.addr (by simp) rfl
    rw [hl, List.erase_append_right _ hb₁, List.erase_cons_head, List.map_append]
  have hfree : (a.free b).addrs = a.addrs := by
    simp only [Pool.addrs, (Pool.free_perm hb).mem_iff]
  have ht₁ : Threaded s₁ .processes ((a.free b).live.map Block.addr) := herase ▸ ht₁
  refine ⟨s₂, ?_, ⟨?_, ht₂, fun c hc => ?_⟩, ?_⟩
  · simp only [free, hp, removeFromProcesses, he₁, ok_bind]
    exact he₂
  · exact ht₁.frame hr₂.toTouched hh₂ (fun x hx => hfree ▸ Pool.mem_addrs_live hx)
      fun x hx => (hs.free hb).disjoint hx
  · have hc := (Pool.free_perm hb).mem_iff.mp hc
    exact (hr₂.size _ <| Pool.mem_addrs hc).trans (hsz₁ c hc)
  · refine .trans (hr₁.toTouched.mono hlS) <| hr₂.toTouched.mono fun x hx => ?_
    exact hfree ▸ Pool.mem_addrs_holes (a := a.free b) hx

end MemList
