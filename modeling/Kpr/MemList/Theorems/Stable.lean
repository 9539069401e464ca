import Kpr.MemList.Theorems.Store
import Kpr.Lib.Ensures

open Machine Except

namespace MemList

-- What is preserved by all changes to a heap which the calls are made of.
structure Stable (P : Heap → Prop) : Prop where
  put     : ∀ {s} p f v, P s → P (s.put p f v)
  setHead : ∀ {s} l v, P s → P (s.setHead l v)
  addSize : ∀ {s} a b, P s → P (s.addSize a b).2
  subSize : ∀ {s} a b, P s → P (s.subSize a b).2
  extend  : ∀ {s}, P s → P (extendMem s).2

namespace Heap

variable {s : Heap} {p v : Nat} {f : Field}

@[simp]
theorem ensures_load {P : Nat → Prop} :
    (s.load p f).Ensures P ↔ (p ≠ NULL → P (s.word p f)) := by
  simp [load, ← ne_eq]

@[simp]
theorem ensures_store {P : Heap → Prop} :
    (s.store p f v).Ensures P ↔ (p ≠ NULL → P (s.put p f v)) := by
  simp [store, ← ne_eq]

end Heap

namespace Stable

variable {P : Heap → Prop} {s : Heap} {l : ListId} {e p r n : Nat} (hP : Stable P) (h : P s)
include hP h

theorem startList : (startList l s e).Ensures P := by
  simp only [MemList.startList, ensures_bind, Heap.ensures_store]
  intros
  iterate 2 refine hP.put _ _ _ ?_
  exact hP.setHead _ _ h

theorem split : (split s e r).Ensures P := by
  simp only [MemList.split, ensures_bind, Heap.ensures_load, Heap.ensures_store]
  intros
  iterate 6 refine hP.put _ _ _ ?_
  exact hP.subSize _ _ <| hP.subSize _ _ h

theorem linkBefore : (linkBefore s e r).Ensures P := by
  simp only [MemList.linkBefore, ensures_bind, Heap.ensures_load, Heap.ensures_store]
  intros
  iterate 4 refine hP.put _ _ _ ?_
  exact h

theorem exchange : (exchange s e r).Ensures P := by
  simp only [MemList.exchange, ensures_bind, Heap.ensures_load, Heap.ensures_store]
  intros
  iterate 6 refine hP.put _ _ _ ?_
  exact h

theorem insertInto {passes before : Heap → Nat → Nat → Except Fault Bool} :
    (insertInto l passes before s e).Ensures P := by
  simp only [MemList.insertInto, ensures_bind]
  refine .intro fun r => (hP.linkBefore h).mono fun s h => .intro fun atHead => ?_
  refine ensures_ite.mpr ⟨fun _ => ?_, fun _ => ?_⟩
  · exact ensures_pure.mpr <| hP.setHead _ _ h
  · simp only [ensures_bind, Heap.ensures_load]
    refine fun _ => .intro fun atEnd => ensures_ite.mpr ⟨fun _ => hP.exchange h, fun _ => ?_⟩
    exact ensures_pure.mpr h

theorem unlink : (unlink s e).Ensures P := by
  simp only [MemList.unlink, ensures_bind, Heap.ensures_load, Heap.ensures_store]
  intros
  iterate 2 refine hP.put _ _ _ ?_
  exact h

theorem removeFrom : (removeFrom l s e).Ensures P := by
  have detach {s : Heap} (h : P s) :
      (s.store e .next NULL >>= fun s => s.store e .prev NULL).Ensures P := by
    simp only [ensures_bind, Heap.ensures_store]
    exact fun _ _ => hP.put _ _ _ <| hP.put _ _ _ h
  simp only [MemList.removeFrom, ensures_bind]
  refine .intro fun only => ensures_ite.mpr ⟨fun _ => detach (hP.setHead _ _ h), fun _ => ?_⟩
  refine ensures_bind.mpr <| (hP.unlink h).mono fun s h => ensures_ite.mpr ⟨fun _ => ?_, fun _ => ?_⟩
  · exact ensures_bind.mpr <| Heap.ensures_load.mpr fun _ => detach (hP.setHead _ _ h)
  · exact detach h

theorem takeHole : (takeHole s p r).Ensures (P ·.2) := by
  have remove {s : Heap} (h : P s) : (removeFromHoles s p).Ensures fun s =>
      (s.processesHead = NULL → (MemList.startList .processes s p).Ensures P) ∧
      (¬s.processesHead = NULL → (insertIntoProcesses s p).Ensures P) :=
    (hP.removeFrom h).mono fun _ h => ⟨fun _ => hP.startList h, fun _ => hP.insertInto h⟩
  simp only [MemList.takeHole, ensures_bind, Heap.ensures_load, ensures_ite, ensures_pure]
  exact fun _ => ⟨fun _ => (hP.split <| hP.subSize _ _ h).mono fun s h => remove h,
    fun _ => remove <| hP.subSize _ _ h⟩

theorem createHoles : (createHoles s).Ensures P := by
  simp only [MemList.createHoles, ensures_bind, Heap.ensures_store]
  exact fun _ => hP.startList <| hP.put _ _ _ <| hP.setHead _ _ <| hP.extend h

theorem takeRegion : (takeRegion s r).Ensures (P ·.2) := by
  simp only [MemList.takeRegion, ensures_bind, Heap.ensures_load, Heap.ensures_store, ensures_ite,
    ensures_pure]
  intro _ _ _ _
  have h {q a : Nat} :
      P (((((extendMem s).2.put q .size EXT_MEM).put q .next q).put q .prev q).subSize a r).2 :=
    hP.subSize _ _ <| hP.put _ _ _ <| hP.put _ _ _ <| hP.put _ _ _ <| hP.extend h
  exact ⟨fun _ => (hP.split h).mono fun s h _ => (hP.insertInto h).mono fun s h => hP.insertInto h,
    fun _ => hP.insertInto h⟩

theorem malloc : (malloc s n).Ensures (P ·.2) := by
  have halign : P (alignSize s n).2 := by
    simp only [alignSize]
    split
    case isTrue  => exact h
    case isFalse =>
      split
      case isTrue  => exact hP.addSize _ _ h
      case isFalse => exact h
  simp only [MemList.malloc]
  refine ensures_ite.mpr ⟨fun _ => ?_, fun _ => ?_⟩
  · refine ensures_bind.mpr <| (hP.createHoles halign).mono fun s h => ?_
    refine ensures_bind.mpr <| .intro fun found => ?_
    cases found
    case some e => exact hP.takeHole h
    case none   => exact hP.takeRegion h
  · rw [pure_eq_ok, ok_bind]
    refine ensures_bind.mpr <| .intro fun found => ?_
    cases found
    case some e => exact hP.takeHole halign
    case none   => exact hP.takeRegion halign

theorem free : (free s p).Ensures P := by
  simp only [MemList.free, ensures_bind]
  refine (hP.removeFrom h).mono fun s h => ensures_ite.mpr ⟨fun _ => ?_, fun _ => ?_⟩
  · exact hP.startList h
  · exact hP.insertInto h

end Stable
end MemList
