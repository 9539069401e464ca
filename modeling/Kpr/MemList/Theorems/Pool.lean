import Kpr.MemList.Pool
import Mathlib.Data.List.Pairwise

open Machine

namespace MemList

variable {a : Pool} {b c : Block} {r ρ : Nat} {bs hs₁ hs₂ : List Block}

namespace Block

instance : Std.Symm Block.Apart where
  symm _ _ := Machine.Apart.symm

instance : Std.Symm Block.HeadersApart where
  symm _ _ := Machine.Apart.symm

theorem HeadersApart.ne (h : b.HeadersApart c) : b.addr ≠ c.addr := by
  simp only [HeadersApart, Machine.Apart, payload, sizeofDmemElem] at h
  omega

theorem Apart.headersApart (h : b.Apart c) : b.HeadersApart c := by
  simp only [Apart, HeadersApart, Machine.Apart, fin, payload] at *
  omega

-- A header is found again from the pointer behind it.
theorem sub_pointer (h : b.payload ≤ 2 ^ 32) : Word.sub b.pointer sizeofDmemElem = b.addr := by
  apply Word.sub_add_cancel _ (by decide)
  simp only [payload, sizeofDmemElem] at h
  omega

@[simp]
theorem front_addr : (b.front r).addr = b.addr := by
  simp only [front]
  split <;> rfl

@[simp]
theorem front_payload : (b.front r).payload = b.payload := by
  simp [payload]

theorem front_size : (b.front r).size = if b.Splits r then r else b.size := by
  simp only [front]
  split <;> rfl

theorem mem_rest : c ∈ b.rest r ↔ b.Splits r ∧
    c = { addr := b.payload + r + padding r, size := b.size - r - sizeofDmemElem } := by
  simp only [rest]
  split <;> simp_all [eq_comm]

theorem le_front_size (h : r ≤ b.size) : r ≤ (b.front r).size := by
  rw [front_size]
  split <;> omega

theorem front_size_le : (b.front r).size ≤ b.size := by
  rw [front_size]
  split
  case isTrue h  => exact Nat.le_of_lt <| Nat.lt_of_le_of_lt (Nat.le_add_right ..) h
  case isFalse _ => exact Nat.le_refl _

theorem rest_size_le (h : c ∈ b.rest r) : c.size ≤ b.size := by
  have ⟨_, h⟩ := mem_rest.mp h
  simp only [h]
  omega

theorem front_sized (hr : r % SIZE_INT = 0) (h : b.size % SIZE_INT = 0) :
    (b.front r).size % SIZE_INT = 0 := by
  rw [front_size]
  split <;> assumption

theorem rest_sized (hr : r % SIZE_INT = 0) (h : b.size % SIZE_INT = 0) (hc : c ∈ b.rest r) :
    c.size % SIZE_INT = 0 := by
  have ⟨_, hc⟩ := mem_rest.mp hc
  simp only [hc, SIZE_INT, sizeofDmemElem] at *
  omega

-- The padding serves its purpose.
theorem rest_aligned (hr : r % SIZE_INT = 0) (h : b.payload % ALIGN = 0) (hc : c ∈ b.rest r) :
    c.payload % ALIGN = 0 := by
  have ⟨_, hc⟩ := mem_rest.mp hc
  simp only [hc, payload, padding]
  split <;> simp only [payload, SIZE_INT, ALIGN, sizeofDmemElem] at * <;> omega

theorem front_apart_rest (hc : c ∈ b.rest r) : (b.front r).Apart c := by
  have ⟨hs, hc⟩ := mem_rest.mp hc
  simp only [hc, Apart, Machine.Apart, fin, front_payload, front_size, if_pos hs]
  omega

-- Both parts lie within the padded block.
theorem front_fin_le : (b.front r).fin ≤ (b.padded r).fin := by
  simp only [fin, front_payload, front_size, padded]
  split <;> simp only [payload, Splits] at * <;> omega

theorem rest_fin_eq (hc : c ∈ b.rest r) : c.fin = (b.padded r).fin := by
  have ⟨hs, hc⟩ := mem_rest.mp hc
  simp only [hc, fin, payload, padded, if_pos hs]
  simp only [Splits] at hs
  omega

theorem le_rest_addr (hc : c ∈ b.rest r) : b.payload ≤ c.addr := by
  have ⟨_, hc⟩ := mem_rest.mp hc
  simp only [hc]
  omega

@[simp]
theorem padded_addr : (b.padded r).addr = b.addr := by
  simp only [padded]
  split <;> rfl

end Block

theorem RegionOk.block_aligned (h : RegionOk ρ) : (regionBlock ρ).payload % ALIGN = 0 := by
  have := h.page
  simp only [regionBlock, Block.payload, ALIGN, sizeofDmemElem]
  omega

-- A region has room for its block and for the padding.
theorem regionBlock_inside : ((regionBlock ρ).padded r).Inside ρ := by
  have h : Block.padding r ≤ 4 := by
    simp only [Block.padding]
    split <;> omega
  have hb : regionBytes = 36864 := rfl
  simp only [Block.Inside, Block.padded]
  split <;> simp only [Block.fin, Block.payload, regionBlock, EXT_MEM, sizeofDmemElem] <;> omega

-- The rounded size is a multiple of a word which is only exceeded by its own size.
theorem rounded_spec (n : Nat) : rounded n % SIZE_INT = 0 ∧ n ≤ rounded n ∧ SIZE_INT ≤ rounded n := by
  by_cases h : n ≤ SIZE_INT
  case pos => simpa [rounded, if_pos h] using h
  case neg =>
    rw [rounded, if_neg h]
    simp only [SIZE_INT] at *
    omega

theorem rounded_le_of_le {n m : Nat} (h : n ≤ m) (h₁ : m % SIZE_INT = 0) (h₂ : SIZE_INT ≤ m) :
    rounded n ≤ m := by
  simp only [rounded]
  split <;> simp only [SIZE_INT] at * <;> omega

theorem rounded_le {n : Nat} (h : n ≤ EXT_MEM) : rounded n ≤ EXT_MEM :=
  rounded_le_of_le h (by decide) (by decide)

namespace Pool

theorem fitting_some (h : a.fitting r = some b) :
    ∃ hs₁ hs₂, a.holes = hs₁ ++ b :: hs₂ ∧ (∀ g ∈ hs₁, g.size < r) ∧ r ≤ b.size := by
  have ⟨hb, hs₁, hs₂, hh, hn⟩ := List.find?_eq_some_iff_append.mp h
  exact ⟨hs₁, hs₂, hh, by simpa using hn, by simpa using hb⟩

theorem fitting_none : a.fitting r = none ↔ ∀ g ∈ a.holes, g.size < r := by
  simp [fitting]

theorem malloc_of_hole (hh : a.holes = hs₁ ++ b :: hs₂) (h₁ : ∀ g ∈ hs₁, g.size < r)
    (hb : r ≤ b.size) (hf : a.fitting r = some b) : a.malloc r ρ =
      { live  := a.insertLive (b.front r)
        holes := hs₁ ++ (b.rest r).toList ++ hs₂ } := by
  have h₁ : ∀ g ∈ hs₁, decide (g.size < r) := by simpa using h₁
  have hb : ¬b.size < r := Nat.not_lt.mpr hb
  simp [malloc, taken, hf, hh, List.takeWhile_append_of_pos h₁, List.dropWhile_append_of_pos h₁, hb]

theorem malloc_of_region (hf : a.fitting r = none) : a.malloc r ρ =
      { live  := a.insertLive ((regionBlock ρ).front r)
        holes := ((regionBlock ρ).rest r).elim a.holes a.insertHole } := by
  have h : a.holes.dropWhile (·.size < r) = [] := by
    simpa [List.dropWhile_eq_nil_iff] using fitting_none.mp hf
  simp [malloc, taken, hf, h]

theorem insertLive_perm : (a.insertLive b).Perm (b :: a.live) :=
  List.insertBehind_perm

theorem insertHole_perm : (a.insertHole b).Perm (b :: a.holes) :=
  List.insertBehind_perm

-- One block is taken, and possibly cut in two. The others are kept.
theorem malloc_perm (a : Pool) (r ρ : Nat) :
    ∃ cs, a.blocks.Perm ((a.fitting r).toList ++ cs) ∧
      (a.malloc r ρ).blocks.Perm
        ((a.taken r ρ).front r :: (((a.taken r ρ).rest r).toList ++ cs)) := by
  cases hf : a.fitting r
  case some b =>
    have ⟨hs₁, hs₂, hh, h₁, hb⟩ := fitting_some hf
    refine ⟨a.live ++ (hs₁ ++ hs₂), ?_, ?_⟩
    · simp only [blocks, hh, Option.toList_some, List.singleton_append]
      exact (List.perm_middle.append_left _).trans List.perm_middle
    · simp only [malloc_of_hole hh h₁ hb hf, blocks, taken, hf, Option.getD_some]
      refine (insertLive_perm.append_right _).trans <| .cons _ ?_
      have h : (hs₁ ++ (b.rest r).toList).Perm ((b.rest r).toList ++ hs₁) := List.perm_append_comm
      refine (h.append_right hs₂ |>.append_left a.live).trans ?_
      simpa using (List.perm_append_comm_assoc ..)
  case none =>
    refine ⟨a.blocks, by simp, ?_⟩
    simp only [malloc_of_region hf, blocks, taken, hf, Option.getD_none]
    refine (insertLive_perm.append_right _).trans <| .cons _ ?_
    cases (regionBlock ρ).rest r
    case none   => exact .refl _
    case some c => exact (insertHole_perm.append_left _).trans List.perm_middle

-- Hence, the only new headers are those which are added.
theorem malloc_addrs_perm (a : Pool) (r ρ : Nat) : ((a.malloc r ρ).blocks.map Block.addr).Perm
    ((a.added r ρ).map Block.addr ++ a.blocks.map Block.addr) := by
  have ⟨cs, h₁, h₂⟩ := a.malloc_perm r ρ
  refine (h₂.map _).trans <| .trans ?_ <| ((h₁.map _).append_left _).symm
  cases hf : a.fitting r
  case some b => simpa [added, taken, hf] using List.perm_middle.symm
  case none   => simp [added, taken, hf]

theorem free_perm (h : b ∈ a.live) : (a.free b).blocks.Perm a.blocks := by
  have h : (b :: a.live.erase b).Perm a.live := (List.perm_cons_erase h).symm
  refine (insertHole_perm.append_left _).trans <| List.perm_middle.trans ?_
  exact h.append_right a.holes

theorem mem_blocks : b ∈ a.blocks ↔ b ∈ a.live ∨ b ∈ a.holes :=
  List.mem_append

theorem Shaped.nodup (h : a.Shaped) : a.blocks.Nodup :=
  h.headers.imp fun h => fun e => h.ne (congrArg Block.addr e)

theorem fitting_mem (h : a.fitting r = some b) : b ∈ a.blocks :=
  mem_blocks.mpr <| .inr <| List.mem_of_find?_eq_some h

theorem Shaped.fitting_not_live (h : a.Shaped) (hb : b ∈ a.live) : a.fitting r ≠ some b :=
  fun hf => (List.nodup_append.mp h.nodup).right.right b hb b (List.mem_of_find?_eq_some hf) rfl

theorem le_taken_size (h : r ≤ EXT_MEM) : r ≤ (a.taken r ρ).size := by
  cases hf : a.fitting r
  case some b =>
    have ⟨_, _, _, _, hb⟩ := fitting_some hf
    simpa [taken, hf] using hb
  case none => simpa [taken, hf, regionBlock] using h

theorem taken_forall {P : Block → Prop} (h : ∀ b ∈ a.blocks, P b)
    (hρ : a.fitting r = none → P (regionBlock ρ)) : P (a.taken r ρ) := by
  cases hf : a.fitting r
  case none   => simpa [taken, hf] using hρ hf
  case some b => simpa [taken, hf] using h b (fitting_mem hf)

theorem mem_malloc (hn : a.blocks.Nodup) (h : c ∈ (a.malloc r ρ).blocks) :
    c = (a.taken r ρ).front r ∨ c ∈ (a.taken r ρ).rest r ∨ c ∈ a.blocks ∧ a.fitting r ≠ some c := by
  have ⟨cs, h₁, h₂⟩ := a.malloc_perm r ρ
  simp only [h₂.mem_iff, List.mem_cons, List.mem_append, Option.mem_toList] at h
  refine h.imp_right <| .imp_right fun hc => ⟨?_, fun hf => ?_⟩
  · exact h₁.mem_iff.mpr <| List.mem_append_right _ hc
  · exact (List.nodup_append.mp <| h₁.nodup_iff.mp hn).right.right c (by simp [hf]) c hc rfl

theorem malloc_forall {P : Block → Prop} (hn : a.blocks.Nodup)
    (h : ∀ b ∈ a.blocks, a.fitting r ≠ some b → P b) (hf : P ((a.taken r ρ).front r))
    (hr : ∀ c ∈ (a.taken r ρ).rest r, P c) : ∀ b ∈ (a.malloc r ρ).blocks, P b := by
  intro b hb
  obtain rfl | hb | ⟨hb, hne⟩ := mem_malloc hn hb
  · exact hf
  · exact hr b hb
  · exact h b hb hne

-- A symmetric relation between the blocks is maintained if the two parts of the block which is
-- taken are related to each other and to the other blocks.
theorem malloc_pairwise {R : Block → Block → Prop} [Std.Symm R] (hn : a.blocks.Nodup)
    (h : a.blocks.Pairwise R)
    (hp : ∀ c ∈ (a.taken r ρ).rest r, R ((a.taken r ρ).front r) c)
    (ho : ∀ d ∈ a.blocks, a.fitting r ≠ some d →
      R d ((a.taken r ρ).front r) ∧ ∀ c ∈ (a.taken r ρ).rest r, R d c) :
    (a.malloc r ρ).blocks.Pairwise R := by
  have ⟨cs, h₁, h₂⟩ := a.malloc_perm r ρ
  have hn := h₁.nodup_iff.mp hn
  have hd : ∀ d ∈ cs, R d ((a.taken r ρ).front r) ∧ ∀ c ∈ (a.taken r ρ).rest r, R d c := by
    intro d hd
    refine ho d (h₁.mem_iff.mpr <| List.mem_append_right _ hd) fun hf => ?_
    exact (List.nodup_append.mp hn).right.right d (by simp [hf]) d hd rfl
  refine (h₂.pairwise_iff fun h => Std.Symm.symm _ _ h).mpr ?_
  refine List.pairwise_cons.mpr
    ⟨fun c hc => ?_, List.pairwise_append.mpr ⟨?_, ?_, fun c hc d hd' => ?_⟩⟩
  · cases List.mem_append.mp hc
    case inl hc => exact hp c (Option.mem_toList.mp hc)
    case inr hc => exact Std.Symm.symm _ _ (hd c hc).left
  · cases (a.taken r ρ).rest r <;> simp
  · exact (List.pairwise_append.mp <| (h₁.pairwise_iff fun h => Std.Symm.symm _ _ h).mp h).right.left
  · exact Std.Symm.symm _ _ <| (hd d hd').right c (Option.mem_toList.mp hc)

theorem mem_added_rest (h : c ∈ (a.taken r ρ).rest r) : c ∈ a.added r ρ := by
  cases hf : a.fitting r <;> simp_all [added, taken]

theorem mem_added_front (h : a.fitting r = none) : (a.taken r ρ).front r ∈ a.added r ρ := by
  simp [added, taken, h]

theorem Shaped.malloc (h : a.Shaped) (hr : r % SIZE_INT = 0) (hf : a.HeadersFit r ρ)
    (hρ : a.fitting r = none → RegionOk ρ) : (a.malloc r ρ).Shaped := by
  have hall {P : Block → Prop} (h : ∀ b ∈ a.blocks, P b)
      (hρ : a.fitting r = none → P (regionBlock ρ)) : P (a.taken r ρ) := taken_forall h hρ
  have haligned := hall h.aligned fun hf => (hρ hf).block_aligned
  have hsized   := hall h.sized fun _ => (by decide : EXT_MEM % SIZE_INT = 0)
  have hfront : ∀ d ∈ a.blocks, a.fitting r ≠ some d → d.HeadersApart ((a.taken r ρ).front r) := by
    intro d hd hne
    cases hb : a.fitting r
    case none => exact (hf _ (mem_added_front hb)).right d hd
    case some b =>
      have hdb : d ≠ b := fun e => hne (e ▸ hb)
      have hp := h.headers.forall hd (fitting_mem hb) hdb
      simpa [taken, hb, Block.HeadersApart] using hp
  constructor
  case ascending =>
    refine h.ascending.insertBehind Nat.lt_trans (fun y _ hy => by simpa using hy) fun y hy hle => ?_
    have hne := (hfront y (mem_blocks.mpr <| .inl hy) (h.fitting_not_live hy)).ne
    exact Nat.lt_of_le_of_ne (by simpa using hle) hne.symm
  case aligned =>
    exact malloc_forall h.nodup (fun b hb _ => h.aligned b hb) (by simpa using haligned)
      fun c => Block.rest_aligned hr haligned
  case sized =>
    exact malloc_forall h.nodup (fun b hb _ => h.sized b hb) (Block.front_sized hr hsized)
      fun c => Block.rest_sized hr hsized
  case below =>
    refine malloc_forall h.nodup (fun b hb _ => h.below b hb) ?_
      fun c hc => (hf c (mem_added_rest hc)).left
    rw [Block.front_payload]
    refine hall h.below fun hn => ?_
    simpa [taken, hn] using (hf _ (mem_added_front hn)).left
  case headers =>
    refine malloc_pairwise h.nodup h.headers
      (fun c hc => (Block.front_apart_rest hc).headersApart) fun d hd hne => ⟨hfront d hd hne, ?_⟩
    exact fun c hc => (hf c (mem_added_rest hc)).right d hd

theorem Shaped.free (h : a.Shaped) (hb : b ∈ a.live) : (a.free b).Shaped where
  ascending   := h.ascending.sublist List.erase_sublist
  aligned c hc := h.aligned c <| (free_perm hb).mem_iff.mp hc
  sized c hc   := h.sized c <| (free_perm hb).mem_iff.mp hc
  below c hc   := h.below c <| (free_perm hb).mem_iff.mp hc
  headers      := ((free_perm hb).pairwise_iff fun h => Std.Symm.symm _ _ h).mpr h.headers

end Pool
end MemList
