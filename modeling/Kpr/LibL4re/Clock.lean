import Kpr.Lib.Run
import Mathlib.Algebra.Group.Int.Defs
import Mathlib.Algebra.Group.Nat.Defs

namespace LibL4re

structure Timespec where
  tv_sec  : Int
  tv_nsec : Int
  deriving DecidableEq

-- The indices of the tables have the type `clockid_t`, which is signed.
def CLOCK_REALTIME : Int := 0
def CLOCK_MONOTONIC : Int := 1
def NCLOCKS : Int := 4

def ENODEV : Int := 19

-- `time_t` and `long` have 32 bits, and results which leave their range wrap around.
def toLong (n : Int) : Int :=
  n.bmod (2 ^ 32)

-- The clock of the kernel info page, which counts microseconds, and the offset of the real-time
-- clock.
structure Clocks where
  clock         : Nat
  rtClockOffset : Nat
  deriving DecidableEq

-- How a clock is written to `tp`.
def Timespec.ofClock (clock : Nat) : Timespec where
  tv_sec  := toLong (clock / 1000000 : Nat)
  tv_nsec := toLong (clock % 1000000 * 1000 : Nat)

namespace Clocks

variable (s : Clocks)

-- The sum has 64 bits.
def rtClockGettime : Timespec :=
  .ofClock ((s.clock + s.rtClockOffset) % 2 ^ 64)

def monoClockGettime : Timespec :=
  .ofClock s.clock

-- The product and the sum have 32 bits before they are extended to 64 bits.
def rtClockSettime (tp : Timespec) : Clocks :=
  let clock := toLong (toLong (tp.tv_sec * 1000000) + tp.tv_nsec.tdiv 1000)
  { s with rtClockOffset := ((clock - s.clock) % 2 ^ 64).toNat }

-- The tables of the clocks which can be read and set.

def libcL4Gettime : List (Option (Clocks → Timespec)) :=
  [some rtClockGettime, some monoClockGettime, none, none]

def libcL4Settime : List (Option (Clocks → Timespec → Clocks)) :=
  [some rtClockSettime, none, none, none]

-- The check which precedes each access to a table. There is no result if the access is outside of
-- the table, and otherwise an entry or an error for `errno`.
def entry {α : Type} (table : List (Option α)) (clk_id : Int) : Option (Except Int α) :=
  if clk_id ≥ NCLOCKS then some (.error ENODEV)
  else
    match clk_id with
    | .negSucc _ => none
    | .ofNat i   =>
      match table[i]? with
      | some (some f) => some (.ok f)
      | some none     => some (.error ENODEV)
      | none          => none

def clockGettime (clk_id : Int) : Option (Except Int Timespec) := do
  return (← entry libcL4Gettime clk_id).map (· s)

def clockSettime (clk_id : Int) (tp : Timespec) : Option (Except Int Clocks) := do
  return (← entry libcL4Settime clk_id).map (· s tp)

end Clocks

inductive ClockEvent
  -- Time passes.
  | pass (micros : Nat)
  | settime (clk_id : Int) (tp : Timespec)

-- A call which fails leaves the clocks as they are.
def Clocks.step (s : Clocks) : ClockEvent → Option Clocks
  | .pass micros       => some { s with clock := s.clock + micros }
  | .settime clk_id tp =>
    match s.clockSettime clk_id tp with
    | none            => none
    | some (.error _) => some s
    | some (.ok s')   => some s'

inductive ClockStep (s : Clocks) (e : ClockEvent) (s' : Clocks) : Prop
  | taken (h : s.step e = some s')

-- The real-time clock is not set.
def Unset (_ : Clocks) (e : ClockEvent) : Prop :=
  ∀ tp, e ≠ .settime CLOCK_REALTIME tp

namespace Timespec

-- A time since the epoch, in a normal form.
structure Normal (tp : Timespec) : Prop where
  sec  : 0 ≤ tp.tv_sec
  nsec : 0 ≤ tp.tv_nsec ∧ tp.tv_nsec < 1000000000

-- The time in microseconds.
def micros (tp : Timespec) : Int :=
  tp.tv_sec * 1000000 + tp.tv_nsec / 1000

-- The time after a number of microseconds.
def after (n : Int) : Timespec where
  tv_sec  := n / 1000000
  tv_nsec := n % 1000000 * 1000

end Timespec
end LibL4re
