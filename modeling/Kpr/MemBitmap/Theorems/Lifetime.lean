import Kpr.Lib.Packing
import Kpr.MemBitmap.Theorems.Addresses
import Kpr.MemBitmap.Theorems.Exclusive

open Machine

namespace MemBitmap

variable {s s' s₂ : Session} {c : Call} {cs : List Call} {n p : Nat} {mem : Memory} {bitmapAddr : Nat}
  {kernel : Nat → DataspaceReply}

-- Blocks are only freed if the bitmap is in front of the region.
def Session.FreesAbove (s : Session) : Call → Prop
  | .malloc _ => True
  | .free _   => s.arena.Above

def Call.isMalloc : Call → Bool
  | malloc _ => true
  | free _   => false

-- The words of all blocks, including the ones which contain their sizes.
def Session.words (s : Session) : Nat :=
  s.live.foldr (fun p n => s.arena.fin p - s.arena.first p + n) 0

namespace Session

theorem Exclusive.words_le (h : s.Exclusive) : s.words ≤ BITS :=
  sum_le_of_apart h.apart h.within

-- A session in which nothing is freed has the same arena, and all blocks which are live in the other one.
structure Forgets (s s₂ : Session) : Prop where
  consistent : s₂.Consistent
  arena      : s₂.arena = s.arena
  live       : s.live.Sublist s₂.live

theorem Forgets.malloc (h : Forgets s s₂) (ht : Transition s (.malloc n) s') :
    Transition s₂ (.malloc n) (step s₂ (.malloc n)) ∧ Forgets s' (step s₂ (.malloc n)) := by
  obtain ⟨hn, rfl, hp⟩ := ht
  have ha : (step s₂ (.malloc n)).arena = (step s (.malloc n)).arena := by
    simp only [step, h.arena]
  have ht : Transition s₂ (.malloc n) (step s₂ (.malloc n)) := ⟨hn, rfl, ha ▸ hp⟩
  refine ⟨ht, ht.consistent h.consistent trivial, ha, ?_⟩
  simp only [step, h.arena]
  split
  case isTrue  => exact h.live
  case isFalse => exact h.live.cons_cons _

-- The pointer is rejected.
theorem Forgets.free (h : Forgets s s₂) (ht : Transition s (.free p) s') (hf : s.arena.Above) :
    Forgets s' s₂ := by
  obtain ⟨hm, rfl, _⟩ := ht
  have ha : s.arena.Placed := h.arena ▸ h.consistent.placed_of_mem (h.live.subset hm)
  refine ⟨h.consistent, ?_, List.erase_sublist.trans h.live⟩
  simp only [step, free_rejected (ha.not_accepts_of_above hf), h.arena]

end Session

-- If the bitmap is in front of the region, then `free` has no effect at all: everything is as if
-- nothing had ever been freed. Hence, all blocks which have ever been handed out have
-- different words, and there is no more memory than that for as long as the program runs.
theorem forgets_of_run
    (h : Run (Guarded Session.FreesAbove Transition) (.boot mem bitmapAddr kernel) cs s) :
    ∃ s₂, Run Transition (.boot mem bitmapAddr kernel) (cs.filter Call.isMalloc) s₂ ∧
      s₂.arena = s.arena ∧ s.live.Sublist s₂.live ∧ s₂.Exclusive ∧ s₂.words ≤ BITS := by
  have ⟨s₂, hr, hf⟩ : ∃ s₂, Run Transition (.boot mem bitmapAddr kernel) (cs.filter Call.isMalloc) s₂ ∧
      s.Forgets s₂ := by
    induction h
    case refl => exact ⟨_, .refl, Session.boot_consistent, rfl, .refl _⟩
    case snoc cs s c s' _ hs ih =>
      have ⟨s₂, hr, hf⟩ := ih
      rw [List.filter_append]
      cases c
      case malloc n =>
        have ⟨ht, hf⟩ := hf.malloc hs.step
        exact ⟨_, hr.snoc ht, hf⟩
      case free p   =>
        refine ⟨s₂, ?_, hf.free hs.step hs.guard⟩
        exact (List.append_nil _).symm ▸ hr
  exact ⟨s₂, hr, hf.arena, hf.live, hf.consistent.toExclusive, hf.consistent.toExclusive.words_le⟩

namespace Transition

theorem malloc_guarded (h : Transition s (.malloc n) s') :
    Guarded Session.FreesAbove Transition s (.malloc n) s' :=
  ⟨trivial, h⟩

theorem free_guarded (hg : s.arena.Above) (h : Transition s (.free p) s') :
    Guarded Session.FreesAbove Transition s (.free p) s' :=
  ⟨hg, h⟩

end Transition

-- A session with memory which is zero, after it has obtained its region above the bitmap.
def Session.raised : Session where
  arena := { Arena.boot (fun _ => 0) (2 ^ 16) fun _ => .granted (2 ^ 20) with
    startAddr := 2 ^ 20
    inits     := 1 }
  live  := []

theorem step_raised : step (.boot (fun _ => 0) (2 ^ 16) fun _ => .granted (2 ^ 20)) (.malloc n) =
    step .raised (.malloc n) := by
  have hz : (Arena.boot (fun _ => 0) (2 ^ 16) fun _ => .granted (2 ^ 20)).startAddr = NULL := rfl
  have hinit : init (.boot (fun _ => 0) (2 ^ 16) fun _ => .granted (2 ^ 20)) =
      (1, Session.raised.arena) := by
    rw [init, initBitmap_zero (fun _ => rfl) (Nat.le_of_eq (Nat.zero_add _))]
    rfl
  have he : malloc (.boot (fun _ => 0) (2 ^ 16) fun _ => .granted (2 ^ 20)) n =
      malloc Session.raised.arena n := by
    rw [malloc, if_pos hz, hinit, malloc_ready (by decide)]
    rfl
  simp only [step, Session.boot, he]
  rfl

-- A block is freed and another one of the same size is needed afterwards.
theorem forgets_of_two_mallocs :
    ∃ s s₂ : Session, s.live = [2 ^ 20 + 12] ∧ Run Transition (.boot (fun _ => 0) (2 ^ 16) fun _ =>
      .granted (2 ^ 20)) [.malloc 4, .malloc 4] s₂ ∧ s₂.arena = s.arena ∧
      s.live.Sublist s₂.live ∧ s₂.Exclusive ∧ s₂.words ≤ BITS := by
  have h₁ : Transition (.boot (fun _ => 0) (2 ^ 16) fun _ => .granted (2 ^ 20)) (.malloc 4)
      (step .raised (.malloc 4)) := ⟨by decide, step_raised.symm, by decide +kernel⟩
  have h₂ : Transition (step .raised (.malloc 4)) (.free (2 ^ 20 + 4))
      (step (step .raised (.malloc 4)) (.free (2 ^ 20 + 4))) :=
    ⟨by decide +kernel, rfl, by decide +kernel⟩
  have h₃ : Transition (step (step .raised (.malloc 4)) (.free (2 ^ 20 + 4))) (.malloc 4)
      (step (step (step .raised (.malloc 4)) (.free (2 ^ 20 + 4))) (.malloc 4)) :=
    ⟨by decide, rfl, by decide +kernel⟩
  have hg : (step .raised (.malloc 4)).arena.bitmapAddr + 4 * BMP_SIZE ≤
      (step .raised (.malloc 4)).arena.startAddr := by decide +kernel
  have hr₁ := Run.refl.snoc <| Transition.malloc_guarded h₁
  have hr₂ := hr₁.snoc <| Transition.free_guarded hg h₂
  have hr  := hr₂.snoc <| Transition.malloc_guarded h₃
  have ⟨s₂, h⟩ := forgets_of_run hr
  exact ⟨_, s₂, by decide +kernel, h⟩

end MemBitmap
