import Kpr.EndToEnd.System
import Kpr.ConsoleServer.Theorems.Edge
import Kpr.Keyboard.Theorems.Tracking

open Keyboard ConsoleServer

namespace EndToEnd.System

variable {s s' : System} {c : ConsoleCtrl} {e : Event} {es : List Event} {l : List Nat} {buf : Nat}

-- A poll receives the whole list.
theorem received_dispatch : received (dispatch Protocol.Keycode l).snd = l := by
  rw [dispatch, if_neg (not_not_intro rfl)]
  exact List.take_length

-- How the keys which are held, the list and the edge detection fit together, where `c` are the
-- consoles at the start.
structure Linked (c : ConsoleCtrl) (s : System) : Prop where
  held      : Key.TAB.code ∈ s.currentlyPressed ↔ s.tab.down = true
  seen      : s.tab.down = true → s.tab.polled = true →
    s.lastTab = true ∧ c.Swapped s.tab.holds s.ctrl
  -- TAB has been pressed, but this has not been noticed yet.
  unseen    : s.tab.down = true → s.tab.polled = false →
    s.lastTab = false ∧ ∃ n, s.tab.holds = n + 1 ∧ c.Swapped n s.ctrl
  begun     : s.tab.down = true → 0 < s.tab.holds
  up        : s.tab.down = false → c.Swapped s.tab.holds s.ctrl
  -- Whether it is remembered from the last hold is only known once there has been a poll.
  forgotten : s.tab.down = false → s.tab.polled = true ∨ s.tab.holds = 0 → s.lastTab = false

theorem start_linked (h : c.OneActive) : Linked c (start c) where
  held          := by simp [start, Tab.start]
  seen          := nofun
  unseen        := nofun
  begun         := nofun
  up _          := h.swapped
  forgotten _ _ := rfl

theorem step_poll : s.step .poll = { s with
    ctrl    := (s.ctrl.poll s.lastTab s.currentlyPressed).fst
    lastTab := decide (Key.TAB.code ∈ s.currentlyPressed)
    tab     := { s.tab with polled := true } } := by
  simp only [step, received_dispatch, ConsoleCtrl.poll_eq, Tab.next]

namespace Linked

variable (h : Linked c s)
include h

theorem poll : Linked c (s.step .poll) := by
  have ⟨hh, hs, hu, hb, hup, hf⟩ := h
  rw [step_poll]
  constructor
  case held => exact hh
  case seen =>
    intro hd _
    have hm : Key.TAB.code ∈ s.currentlyPressed := hh.mpr hd
    refine ⟨decide_eq_true hm, ?_⟩
    cases hp : s.tab.polled
    case true =>
      have ⟨ht, hn⟩ := hs hd hp
      exact hn.poll_of_not_edge <| by simp [ht]
    case false =>
      have ⟨ht, n, he, hn⟩ := hu hd hp
      rw [he, ht]
      exact hn.poll_of_edge hm
  case unseen => exact nofun
  case begun  => exact hb
  case up =>
    intro hd
    have hm : Key.TAB.code ∉ s.currentlyPressed := hh.not.mpr (Bool.eq_false_iff.mp hd)
    exact (hup hd).poll_of_not_edge fun he => hm he.left
  case forgotten =>
    intro hd _
    exact decide_eq_false <| hh.not.mpr (Bool.eq_false_iff.mp hd)

theorem make (hg : s.Paced (.code Key.TAB.makeCode)) :
    Linked c (s.step (.code Key.TAB.makeCode)) := by
  have ⟨hh, hs, hu, hb, hup, hf⟩ := h
  have hm : Key.TAB.code ∈ handle Key.TAB.makeCode s.currentlyPressed :=
    code_mem_handle.mpr <| .inl rfl
  cases hd : s.tab.down
  case true =>
    -- The code is only repeated.
    have hn : s.tab.next (.code Key.TAB.makeCode) = s.tab := by
      simp [Tab.next, hd, Key.makeCode_ne_breakCode]
    simp only [step, hn]
    exact ⟨iff_of_true hm hd, hs, hu, hb, hup, hf⟩
  case false =>
    have hl : s.lastTab = false := by
      apply hf hd
      cases Nat.eq_zero_or_pos s.tab.holds
      case inl hz => exact .inr hz
      case inr hp => exact .inl <| hg.right rfl hd hp
    have hn : s.tab.next (.code Key.TAB.makeCode) =
        { down := true, holds := s.tab.holds + 1, polled := false } := by
      simp [Tab.next, hd]
    simp only [step, hn]
    constructor
    case held      => exact iff_of_true hm rfl
    case seen      => exact nofun
    case unseen    => exact fun _ _ => ⟨hl, _, rfl, hup hd⟩
    case begun     => exact fun _ => Nat.succ_pos _
    case up        => exact nofun
    case forgotten => exact nofun

theorem break' (hg : s.Paced (.code Key.TAB.breakCode)) :
    Linked c (s.step (.code Key.TAB.breakCode)) := by
  have ⟨hh, hs, hu, hb, hup, hf⟩ := h
  have hm : Key.TAB.code ∉ handle Key.TAB.breakCode s.currentlyPressed := fun hm =>
    (code_mem_handle.mp hm).elim (absurd · Key.makeCode_ne_breakCode.symm) (·.right rfl)
  cases hd : s.tab.down
  case false =>
    have hn : s.tab.next (.code Key.TAB.breakCode) = s.tab := by
      simp [Tab.next, hd, Key.makeCode_ne_breakCode.symm]
    simp only [step, hn]
    exact ⟨iff_of_false hm (Bool.eq_false_iff.mp hd), hs, hu, hb, hup, hf⟩
  case true =>
    have ⟨_, hsw⟩ := hs hd (hg.left rfl hd)
    have hn : s.tab.next (.code Key.TAB.breakCode) =
        { s.tab with down := false, polled := false } := by
      simp [Tab.next, hd, Key.makeCode_ne_breakCode.symm]
    simp only [step, hn]
    constructor
    case held      => exact iff_of_false hm Bool.false_ne_true
    case seen      => exact nofun
    case unseen    => exact nofun
    case begun     => exact nofun
    case up        => exact fun _ => hsw
    case forgotten =>
      intro _ hz
      cases hz
      case inl hp => contradiction
      case inr hz => exact absurd hz <| Nat.ne_of_gt <| hb hd

theorem other (hm : buf ≠ Key.TAB.makeCode) (hb : buf ≠ Key.TAB.breakCode) :
    Linked c (s.step (.code buf)) := by
  have ⟨hh, hs, hu, hb', hup, hf⟩ := h
  have hn : s.tab.next (.code buf) = s.tab := by
    simp [Tab.next, hm, hb]
  have hl : Key.TAB.code ∈ handle buf s.currentlyPressed ↔ s.tab.down = true := by
    rw [code_mem_handle, ← hh]
    simp [hm, hb]
  simp only [step, hn]
  exact ⟨hl, hs, hu, hb', hup, hf⟩

theorem step (hg : s.Paced e) (hs : Step s e s') : Linked c s' := by
  cases hs
  cases e
  case poll     => exact h.poll
  case code buf =>
    by_cases hm : buf = Key.TAB.makeCode
    case pos =>
      subst hm
      exact h.make hg
    case neg =>
      by_cases hb : buf = Key.TAB.breakCode
      case pos =>
        subst hb
        exact h.break' hg
      case neg => exact h.other hm hb

omit h in
theorem of_run (hc : c.OneActive) (hr : Run (Guarded Paced Step) (start c) es s) : Linked c s :=
  hr.invariant (start_linked hc) fun hl ht => hl.step ht.guard ht.step

-- When there has just been a poll, all holds have been noticed.
theorem swapped_holds (hp : s.tab.polled = true) : c.Swapped s.tab.holds s.ctrl := by
  cases hd : s.tab.down
  case true  => exact (h.seen hd hp).right
  case false => exact h.up hd

end Linked

-- In each run in which every hold of TAB and every gap between two holds contains a poll, the flags
-- have been swapped once for each hold after each poll.
theorem swaps_eq_holds_of_paced (hc : c.OneActive)
    (hr : Run (Guarded Paced Step) (start c) (es ++ [.poll]) s) :
    s.ctrl.swaps = c.swaps + s.tab.holds ∧ s.ctrl.flags = Prod.swap^[s.tab.holds] c.flags := by
  have hl := Linked.of_run hc hr
  have ⟨_, _, hs⟩ := hr.last
  have hp : s.tab.polled = true := by
    cases hs.step
    rfl
  have ⟨_, hn, hf⟩ := hl.swapped_holds hp
  exact ⟨hn, hf⟩

-- TAB is held twice and repeated, another key is pressed, repeated and released in between.
theorem swaps_eq_holds_of_two_holds : ∃ s, Run (Guarded Paced Step) (start (.setActive .boot 0 true))
    ([.code 15, .code 30, .poll, .code 15, .poll, .code 143, .code 30, .poll, .code 15, .code 158,
      .poll, .code 15] ++ [.poll]) s ∧
    s.tab.holds = 2 ∧ s.ctrl.swaps = 2 ∧ s.ctrl.flags = (true, false) := by
  have hc : (ConsoleCtrl.setActive .boot 0 true).OneActive := rfl
  have ⟨s, hr, hh⟩ : ∃ s, Run (Guarded Paced Step) (start (.setActive .boot 0 true))
      ([.code 15, .code 30, .poll, .code 15, .poll, .code 143, .code 30, .poll, .code 15, .code 158,
        .poll, .code 15] ++ [.poll]) s ∧ s.tab.holds = 2 :=
    Run.exists_of_foldlM pacedStep_spec (by decide)
  have ⟨hn, hf⟩ := swaps_eq_holds_of_paced hc hr
  rw [hh] at hn hf
  exact ⟨s, hr, hh, hn, hf⟩

end EndToEnd.System
