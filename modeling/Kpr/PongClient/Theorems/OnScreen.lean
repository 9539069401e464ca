import Kpr.PongClient.Paddle

namespace PongClient

theorem toInt_eq {n : Int} (h : -2 ^ 31 ≤ n) (h' : n < 2 ^ 31) : toInt n = n :=
  Int.bmod_eq_of_le (by omega) (by omega)

theorem toInt_lt {n : Int} : toInt n < 2 ^ 31 :=
  Int.bmod_lt (by decide)

theorem toInt_of_le {n : Int} (h : 2 ^ 31 ≤ n) (h' : n < 2 ^ 32) : toInt n = n - 2 ^ 32 := by
  rw [← toInt_eq (n := n - 2 ^ 32) (by omega) (by omega)]
  exact (Int.sub_bmod_right n (2 ^ 32)).symm

namespace Paddle

variable {p p' : Paddle} {e : Event} {es : List Event}

-- What is known about the position in front of each statement.
structure Consistent (p : Paddle) : Prop where
  speed    : p.speed = 30
  range    : p.pos < 2 ^ 31
  move     : p.next = .move → 0 ≤ p.pos ∧ p.pos ≤ 1023
  upper    : p.next = .upper → 0 ≤ p.pos
  onScreen : p.OnScreen

theorem start_consistent : (start 30).Consistent where
  speed    := rfl
  range    := by decide
  move _   := by decide
  upper    := nofun
  onScreen := nofun

-- The next position which `run` passes to `move`, unless it is changed before.

theorem mem_moves_of_move (hn : p.next = .move) : p.pos ∈ p.run.run.moves := by
  simp [run, hn]

theorem mem_moves_of_upper (hn : p.next = .upper) (hp : p.pos ≤ 1023) :
    p.pos ∈ p.run.run.moves := by
  simp [run, hn, Int.not_lt.mpr hp]

namespace Consistent

variable (h : p.Consistent)
include h

theorem nonneg (hn : p.next ≠ .lower) : 0 ≤ p.pos := by
  cases hs : p.next
  case move  => exact (h.move hs).left
  case lower => contradiction
  case upper => exact h.upper hs

theorem up_pos (hn : p.next ≠ .lower) : p.up.pos = p.pos - 30 := by
  have hp := h.nonneg hn
  have hr := h.range
  rw [up, h.speed]
  exact toInt_eq (by omega) (by omega)

theorem down_pos (hn : p.next ≠ .lower) (hp : p.pos + 30 < 2 ^ 31) : p.down.pos = p.pos + 30 := by
  have hle := h.nonneg hn
  rw [down, h.speed]
  exact toInt_eq (by omega) hp

theorem up (hc : p.Clamped .up) : p.up.Consistent := by
  have hpos (hn : p.next ≠ .lower) : p.up.pos = p.pos - 30 ∧ 30 ≤ p.pos :=
    ⟨h.up_pos hn, h.speed ▸ hc.resolve_left hn⟩
  constructor
  case speed    => exact h.speed
  case range    => exact toInt_lt
  case onScreen => exact h.onScreen
  case move     =>
    intro (hn : p.next = .move)
    have hm := h.move hn
    have hp := hpos (hn ▸ nofun)
    omega
  case upper    =>
    intro (hn : p.next = .upper)
    have hp := hpos (hn ▸ nofun)
    omega

theorem down (hc : p.Clamped .down) : p.down.Consistent := by
  have hs := h.speed
  constructor
  case speed    => exact hs
  case range    => exact toInt_lt
  case onScreen => exact h.onScreen
  case move     =>
    intro (hn : p.next = .move)
    have hm := h.move hn
    have hle : p.pos + 30 ≤ 1023 := by simpa [Clamped, hn, hs] using hc
    rw [h.down_pos (hn ▸ nofun) (by omega)]
    omega
  case upper    =>
    intro (hn : p.next = .upper)
    have hp := h.upper hn
    have hlt : p.pos + 30 < 2 ^ 31 := by
      simp only [Clamped, hn, hs, reduceCtorEq, true_and, false_or] at hc
      omega
    rw [h.down_pos (hn ▸ nofun) hlt]
    omega

-- Each clamp establishes what is expected of the position at the statement behind it.
theorem run : p.run.Consistent := by
  have hr := h.range
  cases hn : p.next
  case move  =>
    have hm := h.move hn
    simp only [Paddle.run, hn]
    refine ⟨h.speed, hr, nofun, nofun, fun pos hp => ?_⟩
    cases List.mem_cons.mp hp
    case inl hp => exact hp ▸ hm
    case inr hp => exact h.onScreen pos hp
  case lower =>
    simp only [Paddle.run, hn]
    refine ⟨h.speed, ?_, nofun, fun _ => ?_, h.onScreen⟩ <;> dsimp only <;> split <;> omega
  case upper =>
    have hu := h.upper hn
    simp only [Paddle.run, hn]
    refine ⟨h.speed, ?_, fun _ => ?_, nofun, h.onScreen⟩ <;> dsimp only <;> split <;> omega

theorem step (hc : p.Clamped e) (hs : Step p e p') : p'.Consistent := by
  cases hs
  cases e
  case up   => exact h.up hc
  case down => exact h.down hc
  case run  => exact h.run

-- Without a clamp to come, a position which has left the screen is sent.
theorem not_onScreen_of_up (hc : ¬p.Clamped .up) : ¬p.up.run.run.OnScreen := by
  have ⟨hn, hlt⟩ := not_or.mp hc
  rw [h.speed] at hlt
  have hpos := h.up_pos hn
  intro ho
  cases hs : p.next
  case lower => contradiction
  case move  =>
    have hm := ho _ <| mem_moves_of_move (p := p.up) hs
    omega
  case upper =>
    have hm := ho _ <| mem_moves_of_upper (p := p.up) hs (by omega)
    omega

theorem not_onScreen_of_down (hc : ¬p.Clamped .down) : ¬p.down.run.run.OnScreen := by
  have hr := h.range
  simp only [Clamped, h.speed, not_or, not_and, Int.not_le, Int.not_lt] at hc
  have ⟨hn, hover, hlt⟩ := hc
  intro ho
  cases hs : p.next
  case lower => contradiction
  case move  =>
    have hp := h.move hs
    have hm := ho _ <| mem_moves_of_move (p := p.down) hs
    rw [h.down_pos hn (by omega)] at hm
    omega
  case upper =>
    have hle := hover hs
    have hpos : p.down.pos = p.pos + 30 - 2 ^ 32 := by
      rw [Paddle.down, h.speed]
      exact toInt_of_le hle (by omega)
    have hm := ho _ <| mem_moves_of_upper (p := p.down) hs (by omega)
    omega

omit h in
theorem of_run (hr : Run (Guarded Clamped Step) (start 30) es p) : p.Consistent :=
  hr.invariant start_consistent fun hp ht => hp.step ht.guard ht.step

end Consistent

instance : Decidable (p.Clamped e) :=
  match e with
  | .up   => inferInstanceAs (Decidable (_ ∨ _))
  | .down => inferInstanceAs (Decidable (_ ∨ _))
  | .run  => inferInstanceAs (Decidable True)

instance : Decidable p.OnScreen :=
  inferInstanceAs (Decidable (∀ _ ∈ _, _))

-- Runs are computed by applying the steps one after the other.

theorem run_of_foldl (es : List Event) : Run Step p es (es.foldl step p) := by
  induction es generalizing p
  case nil          => exact .refl
  case cons e es hi => exact .cons .taken hi

theorem clamp_spec (h : (if p.Clamped e then some (p.step e) else none) = some p') :
    Guarded Clamped Step p e p' := by
  split at h
  case isTrue hc => exact Option.some.inj h ▸ ⟨hc, .taken⟩
  case isFalse   => contradiction

-- All positions which are passed to `move` are on the screen in runs in which the position only
-- leaves it while it is still going to be clamped. After any other step, `run` sends a position
-- beyond the end of the screen if it is not interrupted.
theorem onScreen_of_clamped (hr : Run (Guarded Clamped Step) (start 30) es p) :
    p.OnScreen ∧ ∀ e, ¬p.Clamped e → ¬(p.step e).run.run.OnScreen := by
  have h := Consistent.of_run hr
  refine ⟨h.onScreen, fun e hc => ?_⟩
  cases e
  case up   => exact h.not_onScreen_of_up hc
  case down => exact h.not_onScreen_of_down hc
  case run  => exact absurd trivial hc

-- The position leaves the screen behind `move`, and is clamped.
theorem onScreen_of_bounce : ∃ p, Run (Guarded Clamped Step) (start 30)
    [.run, .down, .up, .up, .up, .up, .up, .up, .up, .up, .run, .run, .run] p ∧ p.OnScreen := by
  have hr : Run (Guarded Clamped Step) (start 30)
      [.run, .down, .up, .up, .up, .up, .up, .up, .up, .up, .run, .run, .run] _ :=
    .of_foldlM clamp_spec rfl
  exact ⟨_, hr, (onScreen_of_clamped hr).left⟩

-- The key is held down while `run` has not sent the first position yet.
theorem left_screen : ¬∀ es p, Run Step (start 30) es p → p.OnScreen := by
  intro h
  have ho := h _ _ <| run_of_foldl [.up, .up, .up, .up, .up, .up, .up, .run]
  exact absurd ho (by decide)

end Paddle

namespace Client

variable {c c' : Client} {a : Activity} {as : List Activity} {i j : Player} {e : Event}

theorem apply_paddles : (c.apply i e).paddles j =
    if i = j then (c.paddles j).step e else c.paddles j := by
  by_cases hj : i = j
  case pos => simp [apply, hj]
  case neg => simp [apply, hj, Ne.symm hj]

-- A step of the client is a step of the paddle which it is meant for.
theorem step_paddles :
    (c.step a).paddles i = (a.event i).elim (c.paddles i) (c.paddles i).step := by
  cases a
  case key it =>
    cases ht : target it
    case none   => simp [step, Activity.event, ht]
    case some x =>
      by_cases hj : x.fst = i <;> simp [step, Activity.event, ht, apply_paddles, hj]
  case run j => by_cases hj : j = i <;> simp [step, Activity.event, apply_paddles, hj]

theorem paddles_consistent (hr : Run (Guarded Clamped Step) start as c) :
    (c.paddles i).Consistent := by
  apply hr.invariant Paddle.start_consistent
  intro c a c' h ⟨hc, hs⟩
  cases hs
  rw [step_paddles]
  cases he : a.event i
  case none   => exact h
  case some e => exact h.step (hc i e he) .taken

-- Neither player leaves the screen.
theorem paddles_onScreen (hr : Run (Guarded Clamped Step) start as c) : (c.paddles i).OnScreen :=
  (paddles_consistent hr).onScreen

end Client
end PongClient
