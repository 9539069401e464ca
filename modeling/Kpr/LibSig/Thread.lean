import Kpr.LibSig.Frame
import Kpr.Lib.Run

open Machine

namespace LibSig

-- A signal which has been delivered and from which the handler has not returned yet.
structure Frame where
  ucf   : Nat
  saved : ExcRegs
  deriving DecidableEq

-- A thread whose exceptions are handled, with the signals it is in, the innermost one first.
structure Thread where
  regs       : ExcRegs
  mem        : Memory
  sigactions : Sigactions
  frames     : List Frame

inductive Event
  -- The thread raises an exception. The kernel reports an exception which has been triggered by
  -- `ex_regs` as trap `0xff`.
  | exception (trapno err pfa : Nat)
  -- The thread registers a handler.
  | signal (signum : Int) (handler : Nat)
  | sigaction (signum : Int) (act : Option Sigaction) (oldact : Bool)
  -- Any other step of the thread.
  | run (regs : ExcRegs) (mem : Memory)

-- `ret`
def ExcRegs.ret (u : ExcRegs) (mem : Memory) : ExcRegs :=
  { u with ip := mem u.sp, sp := Word.add u.sp 4 }

namespace Thread

def start (regs : ExcRegs) (mem : Memory) : Thread where
  regs       := regs
  mem        := mem
  sigactions := .boot
  frames     := []

variable (c : Config) (t : Thread)

-- The exception is how a handler returns.
def Returns (trapno : Nat) : Prop :=
  trapno ≠ 0xff ∧ t.regs.ip = c.trap

instance {trapno : Nat} : Decidable (t.Returns c trapno) :=
  inferInstanceAs (Decidable (_ ∧ _))

-- The registers which are reported with an exception.
def raised (trapno err pfa : Nat) : ExcRegs :=
  { t.regs with trapno, err, pfa }

def step : Event → Option Thread
  | .run regs mem => some { t with regs, mem }
  | .signal signum handler => do
    let (_, sigactions) ← t.sigactions.signal c.shared signum handler
    return { t with sigactions }
  | .sigaction signum act oldact => do
    let (_, _, _, sigactions) ← t.sigactions.sigaction signum act oldact 0
    return { t with sigactions }
  | .exception trapno err pfa => do
    let u := t.raised trapno err pfa
    let (regs, mem) ← c.handleException u t.mem t.sigactions
    let frames :=
      if t.Returns c trapno then t.frames.tail
      else { ucf := Word.sub u.sp c.layout.size, saved := u } :: t.frames
    return { t with regs, mem, frames }

-- There is room below the stack pointer, which is below the frame of the signal which is handled.
-- Handlers return with the stack pointer they have been entered with, and do not change the saved
-- registers.
def Disciplined : Event → Prop
  | .exception trapno _ _ =>
    if t.Returns c trapno then ∃ f ∈ t.frames.head?, t.regs.sp + 12 = f.ucf
    else c.layout.size + 16 ≤ t.regs.sp ∧ t.regs.sp < 2 ^ 32 ∧
      ∀ f ∈ t.frames.head?, t.regs.sp ≤ f.ucf
  | .signal _ _ | .sigaction _ _ _ => True
  | .run _ mem =>
    ∀ f ∈ t.frames, ∀ a, f.ucf ≤ a → a < f.ucf + c.layout.size → mem a = t.mem a

end Thread

inductive Step (c : Config) (t : Thread) (e : Event) (t' : Thread) : Prop
  | taken (h : t.step c e = some t')

end LibSig
