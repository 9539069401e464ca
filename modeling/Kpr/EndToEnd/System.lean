import Kpr.ConsoleServer.Polling
import Kpr.Keyboard.Session
import Kpr.Lib.Run

open Keyboard ConsoleServer

namespace EndToEnd

-- What happens in the two servers: a scan code is handled, or the keyboard is polled.
inductive Event
  | code (buf : Nat)
  | poll

-- What the scan codes so far say about TAB.
structure Tab where
  down   : Bool
  -- How often TAB has been pressed while it was up.
  holds  : Nat
  -- Whether there has been a poll since TAB was last pressed or released.
  polled : Bool

namespace Tab

def start : Tab where
  down   := false
  holds  := 0
  polled := false

def next (t : Tab) : Event → Tab
  | .code buf =>
    if buf = Key.TAB.makeCode ∧ !t.down then
      { down := true, holds := t.holds + 1, polled := false }
    else if buf = Key.TAB.breakCode ∧ t.down then
      { t with down := false, polled := false }
    else
      t
  | .poll => { t with polled := true }

end Tab

structure System where
  -- The state of the keyboard server.
  currentlyPressed : List Nat
  -- The state of the console server.
  ctrl             : ConsoleCtrl
  lastTab          : Bool
  tab              : Tab

namespace System

def start (ctrl : ConsoleCtrl) : System where
  currentlyPressed := []
  ctrl             := ctrl
  lastTab          := false
  tab              := .start

def step (s : System) : Event → System
  | .code buf => {
    s with
    currentlyPressed := handle buf s.currentlyPressed
    tab              := s.tab.next (.code buf) }
  | .poll =>
    let received := received (dispatch Protocol.Keycode s.currentlyPressed).snd
    let (ctrl, lastTab) := s.ctrl.poll s.lastTab received
    { s with ctrl, lastTab, tab := s.tab.next .poll }

-- When TAB is released, it has been polled since it was pressed. When it is pressed again, it has
-- been polled since it was released.
def Paced (s : System) : Event → Prop
  | .code buf =>
    (buf = Key.TAB.breakCode → s.tab.down = true → s.tab.polled = true) ∧
    (buf = Key.TAB.makeCode → s.tab.down = false → 0 < s.tab.holds → s.tab.polled = true)
  | .poll => True

instance (s : System) : DecidablePred s.Paced
  | .code _ => inferInstanceAs (Decidable (_ ∧ _))
  | .poll   => .isTrue trivial

end System

inductive Step (s : System) (e : Event) : System → Prop
  | taken : Step s e (s.step e)

namespace System

def pacedStep (s : System) (e : Event) : Option System :=
  if s.Paced e then some (s.step e) else none

theorem pacedStep_spec {s s' : System} {e : Event} (h : s.pacedStep e = some s') :
    Guarded Paced Step s e s' := by
  rw [pacedStep] at h
  split at h
  case isTrue hg => exact ⟨hg, Option.some.inj h ▸ .taken⟩
  case isFalse   => contradiction

end System
end EndToEnd
