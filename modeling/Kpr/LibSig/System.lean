import Kpr.LibSig.Thread
import Kpr.LibSig.Timer

namespace LibSig

def TimerEvent.expires : TimerEvent → Bool
  | expire => true
  | _      => false

-- The main thread together with the signal thread.
structure System where
  timers  : Timers
  thread  : Thread
  -- All exceptions of the main thread have been replied to.
  running : Bool
  -- An exception has been triggered which has not been raised yet.
  pending : Bool
  -- For each signal which the main thread is in, when it has been entered if it is an alarm.
  entered : List (Option Nat)
  -- When alarms have been entered so far, latest first.
  alarms  : List Nat

inductive SystemEvent
  | timer (e : TimerEvent)
  | thread (e : Event)

namespace System

def start (clock : Nat) (regs : ExcRegs) (mem : Machine.Memory) : System where
  timers  := .boot clock
  thread  := .start regs mem
  running := true
  pending := false
  entered := []
  alarms  := []

variable (c : Config) (micros2l4to : Nat → Nat) (s : System)

-- The alarms which the main thread is in.
def nested : List Nat :=
  s.entered.filterMap id

-- An exception is a message to the signal thread, which waits for the next one afterwards. Only
-- exceptions which have been triggered are reported as trap `0xff`.
def raise (trapno err pfa : Nat) : Option System :=
  if trapno = 0xff ∧ s.pending = false then none
  else
    let s := { s with
      timers  := s.timers.timeout micros2l4to
      pending := if trapno = 0xff then false else s.pending }
    match s.thread.step c (.exception trapno err pfa) with
    | none        => some { s with running := false }
    | some thread =>
      if s.thread.Returns c trapno then some { s with thread, entered := s.entered.tail }
      else if trapno = 0xff then some { s with
        thread
        entered := some s.timers.clock :: s.entered
        alarms  := s.timers.clock :: s.alarms }
      else some { s with thread, entered := none :: s.entered }

def step : SystemEvent → Option System
  | .timer e  => do
    let timers ← s.timers.step micros2l4to e
    return { s with timers, pending := s.pending || e.expires }
  | .thread e =>
    if s.running = false then none
    else
      match e with
      | .exception trapno err pfa => s.raise c micros2l4to trapno err pfa
      | e                         => do return { s with thread := ← s.thread.step c e }

end System

inductive SystemStep (c : Config) (micros2l4to : Nat → Nat) (s : System) (e : SystemEvent)
    (s' : System) : Prop
  | taken (h : s.step c micros2l4to e = some s')

end LibSig
