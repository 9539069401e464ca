import Kpr.ConsoleServer.Polling
import Kpr.ConsoleServer.Theorems.Switching

namespace ConsoleServer

variable {c c' : ConsoleCtrl} {its received : List Nat} {replies : List (List Nat)} {lastTab : Bool}
  {n : Nat}

namespace ConsoleCtrl

theorem checkTab_eq : checkTab lastTab its =
    if its = [] then lastTab else decide (Keyboard.Key.TAB.code ∈ its) := by
  induction its generalizing lastTab
  case nil => rfl
  case cons it its hi =>
    rw [checkTab, hi]
    by_cases h : it = Keyboard.Key.TAB.code
    case pos => simp [h]
    case neg => cases its <;> simp [h, eq_comm]

theorem OneActive.swap_swaps (h : c.OneActive) : c.swap.swaps = c.swaps + 1 := by
  have hc : (c.consoles 0).active ∨ (c.consoles 1).active := by
    rw [h]
    cases (c.consoles 1).active <;> simp
  rw [ConsoleCtrl.swap_swaps, if_pos hc]

theorem OneActive.swap_flags (h : c.OneActive) : c.swap.flags = c.flags.swap := by
  rw [flags, swap_active_zero, swap_active_one, h, flags, Prod.swap_prod_mk, h]
  cases (c.consoles 1).active <;> rfl

-- All that happens to the consoles in an iteration of `switch_loop` depends on whether TAB is in
-- the list which has been received.
theorem poll_eq : c.poll lastTab received =
    (if Keyboard.Key.TAB.code ∈ received ∧ lastTab = false then c.swap else c,
      decide (Keyboard.Key.TAB.code ∈ received)) := by
  rw [poll]
  split
  case isTrue h => simp [List.length_eq_zero_iff.mp h]
  case isFalse h =>
    have hr : received ≠ [] := fun e => h (e ▸ rfl)
    simp [switch_eq, checkTab_eq, hr]

theorem OneActive.poll_swaps (h : c.OneActive) : (c.poll lastTab received).fst.swaps =
    c.swaps + if Keyboard.Key.TAB.code ∈ received ∧ lastTab = false then 1 else 0 := by
  rw [poll_eq]
  dsimp only
  split
  case isTrue  => exact h.swap_swaps
  case isFalse => rfl

theorem pollSwaps_eq (h : c.OneActive) : c.pollSwaps lastTab received =
    if Keyboard.Key.TAB.code ∈ received ∧ lastTab = false then 1 else 0 := by
  rw [pollSwaps, h.poll_swaps, Nat.add_sub_cancel_left]

theorem OneActive.swap (h : c.OneActive) : c.swap.OneActive := by
  rw [OneActive, swap_active_zero, swap_active_one, h]
  cases (c.consoles 1).active <;> rfl

theorem OneActive.poll (h : c.OneActive) : (c.poll lastTab received).fst.OneActive := by
  rw [poll_eq]
  dsimp only
  split
  case isTrue  => exact h.swap
  case isFalse => exact h

-- From `c` to `c'`, the flags have been swapped `n` times.
structure Swapped (c : ConsoleCtrl) (n : Nat) (c' : ConsoleCtrl) : Prop where
  oneActive : c'.OneActive
  swaps     : c'.swaps = c.swaps + n
  flags     : c'.flags = Prod.swap^[n] c.flags

theorem OneActive.swapped (h : c.OneActive) : c.Swapped 0 c where
  oneActive := h
  swaps     := rfl
  flags     := rfl

theorem Swapped.swap (h : c.Swapped n c') : c.Swapped (n + 1) c'.swap where
  oneActive := h.oneActive.swap
  swaps     := h.oneActive.swap_swaps.trans <| congrArg (· + 1) h.swaps
  flags     := by rw [h.oneActive.swap_flags, h.flags, Function.iterate_succ_apply']

theorem Swapped.poll_of_edge (h : c.Swapped n c') (hm : Keyboard.Key.TAB.code ∈ received) :
    c.Swapped (n + 1) (c'.poll false received).fst := by
  rw [poll_eq, if_pos ⟨hm, rfl⟩]
  exact h.swap

theorem Swapped.poll_of_not_edge (h : c.Swapped n c')
    (hm : ¬(Keyboard.Key.TAB.code ∈ received ∧ lastTab = false)) :
    c.Swapped n (c'.poll lastTab received).fst := by
  rw [poll_eq, if_neg hm]
  exact h

theorem pollAll_append {received : List Nat} : c.pollAll lastTab (replies ++ [received]) =
    (c.pollAll lastTab replies).fst.poll (c.pollAll lastTab replies).snd received := by
  rw [pollAll, List.foldl_append]
  rfl

theorem OneActive.pollAll (h : c.OneActive) : (c.pollAll lastTab replies).fst.OneActive := by
  induction replies using List.reverseRecOn
  case nil => exact h
  case append_singleton replies received hi =>
    rw [pollAll_append]
    exact hi.poll

-- What is remembered of the replies is whether TAB was in the last one.
theorem pollAll_snd : (c.pollAll lastTab replies).snd = tabBefore lastTab replies := by
  induction replies using List.reverseRecOn
  case nil => rfl
  case append_singleton replies received _ =>
    rw [pollAll_append, poll_eq, tabBefore, List.getLast?_concat]

-- In each sequence of replies, the flags are swapped once whenever TAB is in a reply but was not in
-- the one before, and otherwise they are left alone.
theorem swapped_on_edge (h : c.OneActive) (lastTab : Bool) (replies : List (List Nat))
    (received : List Nat) :
    let s  := c.pollAll lastTab replies
    let s' := c.pollAll lastTab (replies ++ [received])
    let edge := Keyboard.Key.TAB.code ∈ received ∧ tabBefore lastTab replies = false
    s.fst.pollSwaps s.snd received = (if edge then 1 else 0) ∧
      s'.fst.flags = (if edge then s.fst.flags.swap else s.fst.flags) ∧
      s'.snd = decide (Keyboard.Key.TAB.code ∈ received) := by
  have hc : (c.pollAll lastTab replies).fst.OneActive := h.pollAll
  simp only [pollAll_append, poll_eq, pollAll_snd]
  refine ⟨pollSwaps_eq hc, ?_, trivial⟩
  split
  case isTrue  => exact hc.swap_flags
  case isFalse => rfl

-- TAB is released, and then pressed again together with another key.
theorem swapped_on_third_poll :
    let s := (boot.setActive 0 true).pollAll false [[4], []]
    s.fst.pollSwaps s.snd [1, 4] = 1 ∧ (s.fst.poll s.snd [1, 4]).fst.flags = (true, false) := by
  have h : (boot.setActive 0 true).OneActive := rfl
  have ⟨hn, hf, _⟩ := swapped_on_edge h false [[4], []] [1, 4]
  exact ⟨hn, pollAll_append ▸ hf⟩

end ConsoleCtrl
end ConsoleServer
