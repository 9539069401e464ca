import Kpr.LibSig.Handlers
import Kpr.Lib.Run
import Mathlib.Algebra.Group.Int.Defs
import Mathlib.Algebra.Group.Nat.Defs

namespace LibSig

structure Timeval where
  tv_sec  : Int
  tv_usec : Int
  deriving DecidableEq

structure Itimerval where
  it_interval : Timeval
  it_value    : Timeval
  deriving DecidableEq

def ITIMER_REAL : Nat := 0

namespace Timeval

def zero : Timeval where
  tv_sec  := 0
  tv_usec := 0

-- `tv_sec * 1000000 + tv_usec`, which is computed with 32 bits and converted to `unsigned`.
def micros (t : Timeval) : Nat :=
  ((t.tv_sec * 1000000 + t.tv_usec) % 2 ^ 32).toNat

end Timeval

-- The signal thread, where time is counted in microseconds.
structure Timers where
  clock             : Nat
  alarm_timeout     : Nat
  current_itimerval : Itimerval
  -- Until when the thread waits for the next message.
  deadline          : Option Nat
  -- When an exception has been triggered in the main thread, latest first.
  signals           : List Nat

inductive TimerEvent
  -- Time passes.
  | pass (micros : Nat)
  -- What `alarm` and `setitimer` do before they ping the signal thread. There is nothing that
  -- `getitimer` does.
  | alarm (seconds : Nat)
  | setitimer (which : Nat) (new : Itimerval) (old : Bool)
  -- The signal thread receives a message and waits for the next one. The message is a ping or an
  -- exception.
  | message
  -- The signal thread has waited long enough.
  | expire

namespace Timers

-- How long the kernel waits for a timeout which has been encoded by `l4util_micros2l4to`.
variable (micros2l4to : Nat → Nat) (s : Timers)

def boot (clock : Nat) : Timers where
  clock             := clock
  alarm_timeout     := 0
  current_itimerval := { it_interval := .zero, it_value := .zero }
  deadline          := none
  signals           := []

-- `Loop_hooks::timeout`
def timeout : Timers :=
  if s.alarm_timeout ≠ 0 then { s with deadline := some s.alarm_timeout, alarm_timeout := 0 }
  else if s.current_itimerval.it_value.tv_sec = 0 ∧ s.current_itimerval.it_value.tv_usec = 0 then
    { s with deadline := none }
  else { s with deadline := some (s.clock + micros2l4to s.current_itimerval.it_value.micros) }

-- `Loop_hooks::error`
def error : Timers where
  clock             := s.clock
  alarm_timeout     := s.alarm_timeout
  deadline          := s.deadline
  signals           := s.clock :: s.signals
  -- reload
  current_itimerval := { s.current_itimerval with it_value := s.current_itimerval.it_interval }

-- The product has 32 bits.
def alarm (seconds : Nat) : Timers :=
  { s with alarm_timeout := s.clock + seconds * 1000000 % 2 ^ 32 }

-- The result of `getitimer` together with `errno` and what is written to `value`. It pings the signal
-- thread unless it fails, as the other functions do.
def getitimer (which : Nat) (errno : Int) : Int × Int × Option Itimerval :=
  if which ≠ ITIMER_REAL then (-1, EINVAL, none) else (0, errno, some s.current_itimerval)

-- The member function, which returns its result together with `errno` and what is written to `old`.
-- The latter may be null.
def setitimer' (which : Nat) (new : Itimerval) (old : Bool) (errno : Int) :
    Int × Int × Option Itimerval × Timers :=
  if which ≠ ITIMER_REAL then (-1, EINVAL, none, s)
  else
    let written := if old then some s.current_itimerval else none
    if new.it_value.tv_usec < 0 ∨ new.it_value.tv_usec > 999999 ∨
        new.it_interval.tv_usec < 0 ∨ new.it_interval.tv_usec > 999999 then (-1, EINVAL, written, s)
    else (0, errno, written, { s with current_itimerval := new })

-- The function of the C library.
def setitimer (which : Nat) (new : Itimerval) (old : Bool) (errno : Int) :
    Int × Int × Option Itimerval × Timers :=
  let (err, errno, written, s) := s.setitimer' which new old errno
  if err < 0 then (-1, -err, written, s) else (0, errno, written, s)

def step : TimerEvent → Option Timers
  | .pass micros             => some { s with clock := s.clock + micros }
  | .alarm seconds           => some (s.alarm seconds)
  | .setitimer which new old => some (s.setitimer which new old 0).snd.snd.snd
  | .message                 => some (s.timeout micros2l4to)
  | .expire                  =>
    match s.deadline with
    | some t => if t ≤ s.clock then some (s.error.timeout micros2l4to) else none
    | none   => none

end Timers

inductive TimerStep (micros2l4to : Nat → Nat) (s : Timers) (e : TimerEvent) (s' : Timers) : Prop
  | taken (h : s.step micros2l4to e = some s')

end LibSig
