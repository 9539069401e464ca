import Kpr.MemList.Runs
import Kpr.MemList.Theorems.Log
import Kpr.MemList.Theorems.Simulation
import Kpr.MemList.Theorems.Preservation

open Machine Except

namespace MemList

variable {s s' : Heap} {a : Pool} {b : Block} {c : Call} {cs : List Call} {n p r ρ : Nat}
  {kernel : Nat → DataspaceReply} {mem : Memory}

-- Both lists are well-formed, and so are the blocks on them.
structure Heap.Consistent (s : Heap) : Prop where
  represents : Represents s s.pool
  shaped     : s.pool.Shaped

theorem Represents.consistent (h : Represents s a) (hs : a.Shaped) : s.Consistent where
  represents := (h.pool_eq hs).symm ▸ h
  shaped     := (h.pool_eq hs).symm ▸ hs

@[simp] theorem Heap.clear_regions : s.clear.regions = s.regions := rfl
@[simp] theorem Heap.clear_nextRegion : s.clear.nextRegion = s.nextRegion := rfl

theorem Represents.clear (h : Represents s a) : Represents s.clear a :=
  ⟨⟨h.live.head, h.live.ring⟩, ⟨h.holes.head, h.holes.ring⟩, h.sizes⟩

theorem empty_shaped : Pool.empty.Shaped := by
  constructor <;> simp [Pool.empty, Pool.blocks]

theorem represents_init : Represents (.init kernel mem) .empty :=
  ⟨⟨rfl, .nil⟩, ⟨rfl, .nil⟩, nofun⟩

theorem consistent_init : (Heap.init kernel mem).Consistent :=
  represents_init.consistent empty_shaped

theorem pool_init : (Heap.init kernel mem).pool = .empty :=
  represents_init.pool_eq empty_shaped

-- The effect of a call on the blocks and on the log of regions.
inductive Served (s : Heap) : Call → Heap → Prop
  | hole {n : Nat} {s' : Heap} : s.pool.fitting (rounded n) ≠ none → s'.regions = s.regions →
    s'.pool = s.pool.malloc (rounded n) s.nextRegion → Served s (.malloc n) s'
  | region {n : Nat} {s' : Heap} : s.pool.fitting (rounded n) = none →
      s'.regions = s.nextRegion :: s.regions →
    s'.pool = s.pool.malloc (rounded n) s.nextRegion → Served s (.malloc n) s'
  | free {b : Block} {s' : Heap} : b ∈ s.pool.live → s'.regions = s.regions → s'.pool = s.pool.free b →
    Served s (.free b.pointer) s'

-- If no hole fits, then `extendMem` is called, even if its result is of no use.
theorem malloc_extends (h : Represents s a) (hs : a.Shaped) (hn : n ≤ EXT_MEM)
    (hc : a.fitting (rounded n) = none) :
    (malloc s n).Ensures (s.nextRegion :: s.regions <:+ ·.2.regions) := by
  have hlog : Logged [] false s := ⟨List.nil_suffix, nofun⟩
  by_cases hh : a.holes = []
  case neg =>
    rw [malloc_of_holes h hs hn hh, hc]
    exact hlog.takeRegion.mono fun _ h => h.regions
  case pos =>
    simp only [malloc, alignSize_eq hn, if_pos ((holesHead_eq_null_iff h hs).mpr hh),
      Except.ensures_bind]
    refine hlog.createHoles.mono fun s₁ h₁ => .intro fun o => ?_
    cases o
    case some p => exact h₁.takeHole.mono fun _ h => h.regions
    case none   =>
      exact h₁.takeRegion.mono fun _ h₂ => h₁.regions.trans <| (List.suffix_cons ..).trans h₂.regions

-- A call of `malloc` which returns, even if nothing is known of the region in advance.
theorem malloc_returns (h : Represents s a) (hs : a.Shaped) (hn : n ≤ EXT_MEM)
    (hf : a.HeadersFit (rounded n) s.nextRegion) (he : malloc s n = .ok (p, s'))
    (hr : ∀ ρ ∈ s'.regions, RegionOk ρ) :
    p = (a.taken (rounded n) s.nextRegion).pointer ∧
      Represents s' (a.malloc (rounded n) s.nextRegion) ∧
      Touched (a.malloc (rounded n) s.nextRegion).addrs (a.malloc (rounded n) s.nextRegion).addrs
        (if a.fitting (rounded n) = none then s.extended else s) s' := by
  have hρ (hc : a.fitting (rounded n) = none) : RegionOk s.nextRegion :=
    hr _ <| (malloc_extends h hs hn hc _ he).subset List.mem_cons_self
  have hl (hc : a.fitting (rounded n) = none) (hh : a.holes ≠ []) : a.live ≠ [] := by
    intro hl
    have := malloc_fault h hs hn hf hρ hc hh hl
    exact nomatch he.symm.trans this
  have ⟨s₁, he₁, h₁, ht₁⟩ := malloc_spec h hs hn hf hρ hl
  cases Except.ok.inj (he.symm.trans he₁)
  exact ⟨rfl, h₁, ht₁⟩

theorem step_malloc : step s (.malloc n) = .ok s' ↔ ∃ p, malloc s.clear n = .ok (p, s') := by
  cases h : malloc s.clear n
  case error e => exact iff_of_false (by simp only [step, h]; exact nofun) (by simp)
  case ok x    => simp only [step, h, ok_bind, pure_eq_ok, Except.ok.injEq, Prod.ext_iff]; simp

theorem step_malloc_error {f : Fault} (h : malloc s.clear n = .error f) :
    step s (.malloc n) = .error f := by
  simp only [step, h]
  rfl

-- As long as the headers fit, a call does to the lists what it is meant to do to the blocks.
theorem Transition.served (h : s.Consistent) (ht : Transition EXT_MEM s c s')
    (hf : s.HeadersFit c) : s'.Consistent ∧ Served s c s' ∧ s'.wrapped = false ∧
      ∀ p ∈ s'.written, p ∈ s'.pool.addrs := by
  have ⟨ha, he, hr⟩ := ht
  have hs := h.shaped
  have hrep := h.represents.clear
  cases c
  case malloc n =>
    have ⟨p, he⟩ := step_malloc.mp he
    have hf := hf _ rfl
    have ⟨_, h', ht'⟩ := malloc_returns hrep hs ha hf he hr.ok
    have hρ (hc : s.pool.fitting (rounded n) = none) : RegionOk s.nextRegion :=
      hr.ok _ <| (malloc_extends hrep hs ha hc _ he).subset List.mem_cons_self
    have hs' := hs.malloc (rounded_spec n).left hf hρ
    have hp := h'.pool_eq hs'
    refine ⟨h'.consistent hs', ?_, ?_, fun q hq => ?_⟩
    · by_cases hc : s.pool.fitting (rounded n) = none
      case pos => exact .region hc (ht'.regions.trans <| by rw [if_pos hc]; rfl) hp
      case neg => exact .hole hc (ht'.regions.trans <| by rw [if_neg hc]; rfl) hp
    · exact ht'.wrapped.trans <| by split <;> rfl
    · cases ht'.written q hq
      case inl hq => split at hq <;> exact nomatch hq
      case inr hq => exact hp ▸ hq
  case free p =>
    obtain ⟨b, hb, rfl⟩ := ha
    have ⟨s₁, he₁, h₁, ht₁⟩ := free_spec hrep hs hb
    cases Except.ok.inj (he.symm.trans he₁)
    have hc := h₁.consistent (hs.free hb)
    have hp := h₁.pool_eq (hs.free hb)
    refine ⟨hc, .free hb ht₁.regions hp, ht₁.wrapped, fun q hq => ?_⟩
    cases ht₁.written q hq
    case inl hq => exact nomatch hq
    case inr hq =>
      have ⟨d, hd, hq⟩ := hq
      exact hp ▸ ⟨d, (Pool.free_perm hb).mem_iff.mpr hd, hq⟩

theorem consistent_of_run
    (h : Run (Guarded Heap.HeadersFit (Transition EXT_MEM)) (.init kernel mem) cs s) : s.Consistent :=
  h.invariant (P := Heap.Consistent) consistent_init fun hc ⟨hg, ht⟩ => (ht.served hc hg).left

end MemList
