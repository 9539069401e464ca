import Kpr.Keyboard.Server
import Kpr.Lib.Run
import Mathlib.Algebra.Group.Int.Defs
import Mathlib.Algebra.Group.Nat.Defs
import Mathlib.Logic.Function.Basic

open Keyboard

namespace PongClient

-- `int` has 32 bits, and results which leave its range wrap around.
def toInt (n : Int) : Int :=
  n.bmod (2 ^ 32)

-- The statements of the loop body of `run` which access `_pos`: the call of `move`, the lower clamp
-- and the upper clamp.
inductive Statement
  | move
  | lower
  | upper
  deriving DecidableEq, Repr

structure Paddle where
  speed : Int
  pos   : Int
  -- The statement at which `run` has arrived.
  next  : Statement
  -- The positions which have been passed to `move`, latest first.
  moves : List Int

namespace Paddle

-- The paddle when its loop is entered.
def start (speed : Int) : Paddle where
  speed := speed
  pos   := 180
  next  := .move
  moves := []

def up (p : Paddle) : Paddle :=
  { p with pos := toInt (p.pos - p.speed) }

def down (p : Paddle) : Paddle :=
  { p with pos := toInt (p.pos + p.speed) }

-- The next statement of `run`.
def run (p : Paddle) : Paddle :=
  match p.next with
  | .move  => { p with moves := p.pos :: p.moves, next := .lower }
  | .lower => { p with pos := if p.pos < 0 then 0 else p.pos, next := .upper }
  | .upper => { p with pos := if p.pos > 1023 then 1023 else p.pos, next := .move }

end Paddle

-- The steps of the two threads which share a paddle.
inductive Event
  | up
  | down
  | run
  deriving DecidableEq, Repr

namespace Paddle

def step (p : Paddle) : Event → Paddle
  | .up   => p.up
  | .down => p.down
  | .run  => p.run

def OnScreen (p : Paddle) : Prop :=
  ∀ pos ∈ p.moves, 0 ≤ pos ∧ pos ≤ 1023

-- The position may only be moved across an end of the screen as long as the clamp for this end is
-- still to come before the position is passed to `move` again, and it does not leave the range of
-- `int` at the upper clamp.
def Clamped (p : Paddle) : Event → Prop
  | .up   => p.next = .lower ∨ p.speed ≤ p.pos
  | .down => p.next = .lower ∨ p.next = .upper ∧ p.pos + p.speed < 2 ^ 31 ∨ p.pos + p.speed ≤ 1023
  | .run  => True

inductive Step (p : Paddle) (e : Event) : Paddle → Prop
  | taken : Step p e (p.step e)

end Paddle

-- The paddles.
inductive Player
  | p0
  | p1
  deriving DecidableEq

-- What `thread_kb` does with a key code which it has received.
def target (it : Nat) : Option (Player × Event) :=
  if it = Key.UP_1.code then some (.p0, .up)
  else if it = Key.DOWN_1.code then some (.p0, .down)
  else if it = Key.UP_2.code then some (.p1, .up)
  else if it = Key.DOWN_2.code then some (.p1, .down)
  else none

-- The steps of all threads: `thread_kb` goes on to the next key code, or one of the loops goes on.
inductive Activity
  | key (it : Nat)
  | run (i : Player)

-- What the step means for the paddle `i`.
def Activity.event (i : Player) : Activity → Option Event
  | .key it => do
    let (j, e) ← target it
    if j = i then some e else none
  | .run j => if j = i then some .run else none

structure Client where
  paddles : Player → Paddle

namespace Client

-- Both paddles have the same speed.
def start : Client where
  paddles _ := .start 30

def apply (c : Client) (i : Player) (e : Event) : Client where
  paddles := Function.update c.paddles i ((c.paddles i).step e)

def step (c : Client) : Activity → Client
  | .key it =>
    match target it with
    | some (i, e) => c.apply i e
    | none        => c
  | .run i => c.apply i .run

def Clamped (c : Client) (a : Activity) : Prop :=
  ∀ i, ∀ e ∈ a.event i, (c.paddles i).Clamped e

inductive Step (c : Client) (a : Activity) : Client → Prop
  | taken : Step c a (c.step a)

end Client
end PongClient
