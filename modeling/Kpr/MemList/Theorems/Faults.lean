import Kpr.MemList.Theorems.Runs

open Machine

namespace MemList

variable {s : Heap} {c : Call} {cs : List Call} {kernel : Nat → DataspaceReply} {mem : Memory}

section

variable (h : Run (Guarded Heap.HeadersFit (Transition EXT_MEM)) (.init kernel mem) cs s)
  (ha : s.Admits EXT_MEM c) (hf : s.HeadersFit c) (hr : RegionsOk (s.nextRegion :: s.regions))
include h ha hf hr

theorem returns_of_liveAtHand (hl : s.LiveAtHand c) : ∃ s', step s c = .ok s' := by
  have hc := consistent_of_run h
  cases c
  case free p =>
    obtain ⟨b, hb, rfl⟩ := ha
    have ⟨s', he, _⟩ := free_spec hc.represents.clear hc.shaped hb
    exact ⟨s', he⟩
  case malloc n =>
    have ⟨s', he, _⟩ := malloc_spec hc.represents.clear hc.shaped ha (hf _ rfl)
      (fun _ => hr.ok _ List.mem_cons_self) (hl _ rfl)
    exact ⟨s', step_malloc.mpr ⟨_, he⟩⟩

-- After a run in which the headers fit, a call dereferences a `NULL` pointer if and only if it
-- needs a region while there are holes but no live blocks.
theorem nullDeref_iff : step s c ≠ .error .nullDeref ↔ s.LiveAtHand c := by
  constructor
  case mpr =>
    intro hl
    have ⟨s', he⟩ := returns_of_liveAtHand h ha hf hr hl
    simp [he]
  case mp =>
    intro hn r hc hfit hh hl
    cases c
    case free p   => exact nomatch hc
    case malloc n =>
      cases Option.mem_some.mp hc
      have hcs := consistent_of_run h
      have he := malloc_fault hcs.represents.clear hcs.shaped ha (hf _ rfl)
        (fun _ => hr.ok _ List.mem_cons_self) hfit hh hl
      exact hn (step_malloc_error he)

end

-- The only block is freed, and then more is requested than it left as holes.
theorem returns_of_third_call : ∃ s, Run (Guarded Heap.HeadersFit (Transition EXT_MEM)) .boot
    [.malloc 20000, .free 65552] s ∧ (step s (.malloc 20000) ≠ .error .nullDeref ↔
      s.LiveAtHand (.malloc 20000)) := by
  have ⟨s, h, hf, hr⟩ := exists_run EXT_MEM Heap.HeadersFit .boot [.malloc 20000, .free 65552]
    (fun s => s.HeadersFit (.malloc 20000) ∧ RegionsOk (s.nextRegion :: s.regions))
    (by decide +kernel)
  have h₂₀ : 20000 ≤ EXT_MEM := by decide
  exact ⟨s, h, nullDeref_iff (c := .malloc 20000) h h₂₀ hf hr⟩

-- The freed block and the remainder of its region are too small for the next request.
theorem null_deref_reached : ¬∀ kernel mem cs s c,
    Run (Transition EXT_MEM) (.init kernel mem) cs s → s.Admits EXT_MEM c →
      RegionsOk (s.nextRegion :: s.regions) → step s c ≠ .error .nullDeref := by
  intro h
  have ⟨s, hs, hr, he⟩ := exists_run EXT_MEM (fun _ _ => True) .boot [.malloc 20000, .free 65552]
    (fun s => RegionsOk (s.nextRegion :: s.regions) ∧
      faultOf (step s (.malloc 30000)) = some .nullDeref) (by decide +kernel)
  have h₃₀ : 30000 ≤ EXT_MEM := by decide
  exact h _ _ _ s (.malloc 30000) (hs.mono (·.step)) h₃₀ hr (eq_of_faultOf he)

end MemList
