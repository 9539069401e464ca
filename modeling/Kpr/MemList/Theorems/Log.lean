import Kpr.MemList.Theorems.Stable
import Kpr.MemList.Represents

open Machine Except

namespace MemList

-- The records of a heap which only ever grow, whatever the lists look like: at least the regions
-- `ρs` are in its log, and if `w`, then sizes have wrapped around.
structure Logged (ρs : List Nat) (w : Bool) (s : Heap) : Prop where
  regions : ρs <:+ s.regions
  wrapped : w = true → s.wrapped = true

namespace Heap

variable {s : Heap} {l : ListId} {p q v a b : Nat} {f g : Field} {ρs : List Nat} {w : Bool}

@[simp]
theorem put_logged : Logged ρs w (s.put p f v) ↔ Logged ρs w s :=
  ⟨fun h => ⟨h.regions, h.wrapped⟩, fun h => ⟨h.regions, h.wrapped⟩⟩

@[simp]
theorem setHead_logged : Logged ρs w (s.setHead l v) ↔ Logged ρs w s := by
  cases l <;> exact ⟨fun h => ⟨h.regions, h.wrapped⟩, fun h => ⟨h.regions, h.wrapped⟩⟩

theorem subSize_logged (h : Logged ρs w s) : Logged ρs (w || decide (a < b)) (s.subSize a b).2 where
  regions   := h.regions
  wrapped h := by
    cases (Bool.or_eq_true ..).mp h
    case inl hw => simp [subSize, ‹Logged ρs w s›.wrapped hw]
    case inr hw => simp [subSize, of_decide_eq_true hw]

-- A field which has been written can be read back, even if other fields of the same header have
-- been written in the meantime.
@[simp]
theorem word_put_self : (s.put p f v).word p f = v := by
  simp [put, word]

@[simp]
theorem word_put_ne (h : g ≠ f) : (s.put p f v).word p g = s.word p g := by
  have h : Word.add p g.offset ≠ Word.add p f.offset := by
    cases f <;> cases g <;> simp only [Word.add, Field.offset, ne_eq] <;> first | omega | contradiction
  simp [put, word, h]

end Heap

namespace Logged

variable {s : Heap} {l : ListId} {e p r v a b : Nat} {ρs : List Nat} {w : Bool}

theorem of_or {w'} (h : Logged ρs (w || w') s) : Logged ρs w s where
  regions   := h.regions
  wrapped h := ‹Logged ρs (w || w') s›.wrapped (Bool.or_eq_true_iff.mpr <| .inl h)

theorem stable : Stable (Logged ρs w) where
  put _ _ _     := Heap.put_logged.mpr
  setHead _ _   := Heap.setHead_logged.mpr
  addSize _ _ h := ⟨h.regions, fun hw => by simp [Heap.addSize, h.wrapped hw]⟩
  subSize _ _ h := (Heap.subSize_logged h).of_or
  extend h      := ⟨h.regions.trans (List.suffix_cons ..), h.wrapped⟩

variable (h : Logged ρs w s)
include h

theorem startList : (startList l s e).Ensures (Logged ρs w) :=
  stable.startList h

theorem split : (split s e r).Ensures (Logged ρs w) :=
  stable.split h

theorem insertInto {passes before : Heap → Nat → Nat → Except Fault Bool} :
    (insertInto l passes before s e).Ensures (Logged ρs w) :=
  stable.insertInto h

theorem takeHole : (takeHole s p r).Ensures (Logged ρs w ·.2) :=
  stable.takeHole h

theorem extended : Logged (s.nextRegion :: s.regions) w (extendMem s).2 :=
  ⟨List.suffix_refl _, h.wrapped⟩

theorem createHoles : (createHoles s).Ensures (Logged (s.nextRegion :: s.regions) w) := by
  simp only [MemList.createHoles, ensures_bind, Heap.ensures_store]
  exact fun _ => startList (by simpa using h.extended)

-- The size of a region is never compared with the one which is requested.
theorem takeRegion : (takeRegion s r).Ensures
    (Logged (s.nextRegion :: s.regions) (w || decide (EXT_MEM < r)) ·.2) := by
  simp only [MemList.takeRegion, ensures_bind, Heap.ensures_load, Heap.ensures_store, ensures_ite,
    ensures_pure]
  intro _ _ _ _
  have hsize (t : Heap) q :
      (((t.put q .size EXT_MEM).put q .next q).put q .prev q).word q .size = EXT_MEM := by
    simp
  have hdiff {t : Heap} {q} (h : Logged (s.nextRegion :: s.regions) w t) :
      Logged (s.nextRegion :: s.regions) (w || decide (EXT_MEM < r))
        ((((t.put q .size EXT_MEM).put q .next q).put q .prev q).subSize EXT_MEM r).2 :=
    Heap.subSize_logged (by simpa using h)
  rw [hsize]
  have h := hdiff (q := align (extendMem s).1) h.extended
  exact ⟨fun _ => h.split.mono fun s h _ => h.insertInto.mono fun s h => h.insertInto,
    fun _ => h.insertInto⟩

end Logged

-- Whatever the search for a hole has found, a wraparound is not forgotten.
theorem Logged.wrapped_of_found {s : Heap} {ρs : List Nat} {r : Nat} (h : Logged ρs true s)
    (found : Option Nat) :
    (match found with
      | some e => MemList.takeHole s e r
      | none   => MemList.takeRegion s r).Ensures (·.2.wrapped = true) := by
  cases found
  case some e => exact h.takeHole.mono fun _ h => h.wrapped rfl
  case none   => exact h.takeRegion.mono fun _ h => h.wrapped rfl

-- The hole which is made from the first region has room for all requests that are not too large.
theorem createHoles_search {s : Heap} (r : Nat) : (createHoles s).Ensures fun s' =>
    findHole s' r loopBound s'.holesHead =
      .ok (if r ≤ EXT_MEM then some (align s.nextRegion) else none) := by
  have hhead (t : Heap) : t.holesHead = t.head .holes := rfl
  have hb : loopBound = (2 ^ 32 - 1) + 1 := by
    simp only [loopBound, Nat.reducePow, Nat.reduceSub, Nat.reduceAdd]
  have hcreate : (createHoles s).Ensures fun s' => s'.head .holes ≠ NULL ∧
      s'.size (s'.head .holes) = EXT_MEM ∧ s'.next (s'.head .holes) = s'.head .holes ∧
      s'.head .holes = align s.nextRegion := by
    simp +contextual [createHoles, startList, hhead, extendMem, Heap.nextRegion]
  refine hcreate.mono fun s' h => ?_
  obtain ⟨hn, hsize, hnext, he⟩ := h
  rw [← he]
  simp only [hb, findHole, hhead, Heap.load, if_neg hn, ok_bind, hsize, hnext, ge_iff_le, ne_eq,
    not_true_eq_false, if_false, pure_eq_ok]
  split <;> rfl

end MemList
