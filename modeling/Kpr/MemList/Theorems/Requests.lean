import Kpr.MemList.Theorems.Runs

open Machine Except

namespace MemList

variable {s s' : Heap} {a : Pool} {c : Call} {cs : List Call} {n p r size : Nat}
  {kernel : Nat → DataspaceReply} {mem : Memory}

-- Requests of no more than what a region holds.
def Call.Small : Call → Prop
  | .malloc size => size ≤ EXT_MEM
  | .free _      => True

instance : Decidable c.Small :=
  match c with
  | .malloc _ => inferInstanceAs (Decidable (_ ≤ _))
  | .free _   => inferInstanceAs (Decidable True)

def Heap.SmallHeadersFit (s : Heap) (c : Call) : Prop :=
  c.Small ∧ s.HeadersFit c

instance : Decidable (s.SmallHeadersFit c) :=
  inferInstanceAs (Decidable (_ ∧ _))

-- The outcome of `malloc(size)` is `NULL` or points to a live block of a suitable size, and the
-- sizes were computed without wrapping around.
structure Met (size p : Nat) (s' : Heap) : Prop where
  suitable : p = NULL ∨ ∃ b ∈ s'.pool.live, b.pointer = p ∧ size ≤ b.size ∧ b.size ≤ EXT_MEM
  exact    : s'.wrapped = false

theorem Transition.small (h : Transition (2 ^ 32 - 1) s c s') (hc : c.Small) :
    Transition EXT_MEM s c s' where
  admits  := by cases c <;> first | exact hc | exact h.admits
  returns := h.returns
  regions := h.regions

theorem empty_sized : Pool.empty.Sized :=
  nofun

theorem Pool.Sized.served (h : s.pool.Sized) (hs : s.pool.Shaped) (hc : c.Small)
    (hv : Served s c s') : s'.pool.Sized := by
  have hr := rounded_spec
  cases hv
  case hole n _ _ hp   => exact hp ▸ h.malloc hs (hr n).left (hr n).right.right (rounded_le hc)
  case region n _ _ hp => exact hp ▸ h.malloc hs (hr n).left (hr n).right.right (rounded_le hc)
  case free hb _ hp    => exact hp ▸ h.free hb

-- Rounding up a large request either wraps around or leaves a large size.
theorem alignSize_large (h : EXT_MEM < n) :
    (alignSize s n).2.wrapped = true ∨ EXT_MEM < (alignSize s n).1 ∧ (alignSize s n).2 = s := by
  have hn : ¬n ≤ SIZE_INT := by
    simp only [EXT_MEM, SIZE_INT] at *
    omega
  simp only [alignSize, if_neg hn]
  split
  case isFalse => exact .inr ⟨h, rfl⟩
  case isTrue  =>
    by_cases hw : 2 ^ 32 ≤ n + (SIZE_INT - n % SIZE_INT)
    case pos => exact .inl <| by simp only [Heap.addSize, decide_eq_true hw, Bool.or_true]
    case neg =>
      refine .inr ⟨?_, by simp only [Heap.addSize, decide_eq_false hw, Bool.or_false]⟩
      simp only [Heap.addSize, Word.add_of_lt (Nat.lt_of_not_le hw)]
      omega

-- A large request is served from a new region, the size of which is never checked.
theorem malloc_large (h : Represents s a) (hs : a.Shaped) (hz : a.Sized) (hn : EXT_MEM < n) :
    (malloc s n).Ensures (·.2.wrapped = true) := by
  have hlog : Logged [] false s := ⟨List.nil_suffix, nofun⟩
  simp only [malloc, Except.ensures_bind, Except.ensures_ite, Except.ensures_pure]
  cases alignSize_large hn (s := s)
  case inl hw =>
    have h : Logged [] true (alignSize s n).2 := ⟨List.nil_suffix, fun _ => hw⟩
    exact ⟨fun _ => h.createHoles.mono fun t ht => .intro fun o => ht.wrapped_of_found o,
      fun _ => .intro fun o => h.wrapped_of_found o⟩
  case inr hr =>
    obtain ⟨hr, heq⟩ := hr
    rw [heq]
    generalize (alignSize s n).1 = r at *
    have finish {t : Heap} {ρs} (ht : Logged ρs false t) :
        (takeRegion t r).Ensures (·.2.wrapped = true) :=
      ht.takeRegion.mono fun _ h => h.wrapped <| by simpa using hr
    refine ⟨fun _ t he => ?_, fun hnull => ?_⟩
    · have hsearch := createHoles_search r t he
      rw [if_neg (Nat.not_le.mpr hr)] at hsearch
      dsimp only
      rw [hsearch, ensures_ok]
      exact finish (hlog.createHoles t he)
    · have hf : a.fitting r = none := Pool.fitting_none.mpr fun g hg =>
        Nat.lt_of_le_of_lt (hz g <| Pool.mem_blocks.mpr <| .inr hg).right hr
      rw [findHole_eq h hs <| (holesHead_eq_null_iff h hs).not.mp hnull, hf, Option.map_none,
        ensures_ok]
      exact finish hlog

-- What is left by a run in which requests are small and the headers fit.
theorem sized_of_run
    (h : Run (Guarded Heap.SmallHeadersFit (Transition (2 ^ 32 - 1))) (.init kernel mem) cs s) :
    s.Consistent ∧ s.pool.Sized :=
  h.invariant (P := fun s => s.Consistent ∧ s.pool.Sized) ⟨consistent_init, pool_init ▸ empty_sized⟩
    fun ⟨hc, hz⟩ ⟨hg, ht⟩ =>
    have ⟨hc', hv, _⟩ := (ht.small hg.left).served hc hg.right
    ⟨hc', hz.served hc.shaped hg.left hv⟩

theorem met_of_small (hc : s.Consistent) (hz : s.pool.Sized) (hn : size ≤ EXT_MEM)
    (hf : s.HeadersFit (.malloc size)) (he : malloc s.clear size = .ok (p, s'))
    (hr : RegionsOk s'.regions) : Met size p s' := by
  have ht : Transition EXT_MEM s (.malloc size) s' := ⟨hn, step_malloc.mpr ⟨p, he⟩, hr⟩
  have ⟨_, hv, hw, _⟩ := ht.served hc hf
  have ⟨hp, _⟩ := malloc_returns hc.represents.clear hc.shaped hn (hf _ rfl) he hr.ok
  have hsmall : (Call.malloc size).Small := hn
  have hz' := hz.served hc.shaped hsmall hv
  have hpool : s'.pool = s.pool.malloc (rounded size) s.nextRegion := by cases hv <;> assumption
  have hb : (s.pool.taken (rounded size) s.nextRegion).front (rounded size) ∈ s'.pool.live := by
    rw [hpool]
    exact List.mem_insertBehind.mpr <| .inl rfl
  refine ⟨.inr ⟨_, hb, ?_, ?_, (hz' _ <| Pool.mem_blocks.mpr <| .inl hb).right⟩, hw⟩
  · rw [hp, Block.pointer, Block.front_addr]
    rfl
  · exact (rounded_spec size).right.left.trans <|
      Block.le_front_size <| Pool.le_taken_size <| rounded_le hn

-- After a run in which requests are small and the headers fit, a request is met if and only if it
-- is small, too.
theorem met_iff_small
    (h : Run (Guarded Heap.SmallHeadersFit (Transition (2 ^ 32 - 1))) (.init kernel mem) cs s)
    (hf : size ≤ EXT_MEM → s.HeadersFit (.malloc size)) (he : malloc s.clear size = .ok (p, s'))
    (hr : RegionsOk s'.regions) : Met size p s' ↔ size ≤ EXT_MEM := by
  have ⟨hc, hz⟩ := sized_of_run h
  constructor
  case mpr => exact fun hn => met_of_small hc hz hn (hf hn) he hr
  case mp =>
    refine fun hm => Nat.not_lt.mp fun hn => ?_
    have hw : s'.wrapped = true := malloc_large hc.represents.clear hc.shaped hz hn _ he
    exact absurd (hm.exact.symm.trans hw) Bool.false_ne_true

-- A block is freed and split again, and then all of a region is needed.
theorem met_after_four_calls : ∃ s p s', Run (Guarded Heap.SmallHeadersFit (Transition (2 ^ 32 - 1)))
      .boot [.malloc 44, .malloc 8, .free 65552, .malloc 12] s ∧
    malloc s.clear EXT_MEM = .ok (p, s') ∧ (Met EXT_MEM p s' ↔ EXT_MEM ≤ EXT_MEM) := by
  have ⟨s, h, hg, hm⟩ := exists_run (2 ^ 32 - 1) Heap.SmallHeadersFit .boot
    [.malloc 44, .malloc 8, .free 65552, .malloc 12]
    (fun s => s.HeadersFit (.malloc EXT_MEM) ∧
      (malloc s.clear EXT_MEM).toOption.any (fun x => RegionsOk x.2.regions) = true)
    (by decide +kernel)
  have ⟨⟨p, s'⟩, he, hr⟩ := exists_ok (x := malloc s.clear EXT_MEM)
    (fun x => RegionsOk x.2.regions) hm
  exact ⟨s, p, s', h, he, met_iff_small h (fun _ => hg) he hr⟩

-- Rounding up the largest sizes leaves nothing of them.
theorem request_not_met : ¬∀ kernel mem cs s,
    Run (Transition (2 ^ 32 - 1)) (.init kernel mem) cs s → ∀ size p s', size < 2 ^ 32 →
      malloc s.clear size = .ok (p, s') → RegionsOk s'.regions → Met size p s' := by
  intro h
  have ⟨⟨p, s'⟩, he, hr, hp, hb⟩ := exists_ok (x := malloc Heap.boot.clear (2 ^ 32 - 1))
    (fun x => RegionsOk x.2.regions ∧ x.1 ≠ NULL ∧ ∀ b ∈ x.2.pool.live, b.size < 2 ^ 32 - 1)
    (by decide +kernel)
  have ⟨hm, _⟩ := h _ _ _ _ .refl _ p s' (by decide) he hr
  cases hm
  case inl hm => exact hp hm
  case inr hm =>
    have ⟨b, hm, _, hle, _⟩ := hm
    exact Nat.not_le.mpr (hb b hm) hle

end MemList
