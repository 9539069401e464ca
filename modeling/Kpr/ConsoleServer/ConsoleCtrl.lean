import Kpr.Kernel
import Kpr.Keyboard.Server

open Machine

namespace ConsoleServer

def NUM_CONSOLES : Nat := 2

structure Console where
  addr   : Nat
  ds     : Nat
  active : Bool

structure ConsoleCtrl where
  fbAddr      : Nat
  fbSize      : Nat
  consoles    : Nat → Console
  -- Whether `consoles` has been accessed at some index beyond its end.
  outOfBounds : Bool
  -- How often the flags of the two consoles have been exchanged.
  swaps       : Nat

namespace ConsoleCtrl

-- The only object of this class is static.
def boot : ConsoleCtrl where
  fbAddr      := NULL
  fbSize      := 0
  consoles _  := { addr := NULL, ds := 0, active := false }
  outOfBounds := false
  swaps       := 0

def setFb (c : ConsoleCtrl) (addr size : Nat) : ConsoleCtrl :=
  { c with fbAddr := addr, fbSize := size }

-- The arguments of `memcpy`.
structure Copy where
  dest : Nat
  src  : Nat
  n    : Nat

-- The console which is shown by one iteration of `refresh_loop`.
def shown (c : ConsoleCtrl) : Nat :=
  if !(c.consoles 0).active then 1 else 0

def refresh (c : ConsoleCtrl) : Copy where
  dest := c.fbAddr
  src  := (c.consoles c.shown).addr
  n    := c.fbSize

def setActive (c : ConsoleCtrl) (id : Nat) (active : Bool) : ConsoleCtrl :=
  { c with consoles := Function.update c.consoles id { c.consoles id with active } }

-- What `switch_loop` does when TAB has been pressed.
def swap (c : ConsoleCtrl) : ConsoleCtrl :=
  if (c.consoles 0).active then
    { (c.setActive 0 false).setActive 1 true with swaps := c.swaps + 1 }
  else if (c.consoles 1).active then
    { (c.setActive 0 true).setActive 1 false with swaps := c.swaps + 1 }
  else
    c

-- The loop in which the consoles are switched.
def switch (c : ConsoleCtrl) (lastTab : Bool) : List Nat → ConsoleCtrl
  | []       => c
  | it :: its => if it = Keyboard.Key.TAB.code ∧ !lastTab then c.swap else switch c lastTab its

-- check if one Key is TAB
def checkTab (lastTab : Bool) : List Nat → Bool
  | []       => lastTab
  | it :: its => if it = Keyboard.Key.TAB.code then true else checkTab false its

-- One iteration of `switch_loop`, in which `received` are the codes in the order of the reply.
def poll (c : ConsoleCtrl) (lastTab : Bool) (received : List Nat) : ConsoleCtrl × Bool :=
  let codes := received.foldl (fun codes code => code :: codes) []
  if received.length = 0 then (c, false)
  else (c.switch lastTab codes, checkTab lastTab codes)

-- The kernel grants the dataspace `ds`, or the process exits.
def getDs (c : ConsoleCtrl) (id ds : Nat) (reply : DataspaceReply) : Option (Nat × ConsoleCtrl) :=
  if !reply.capValid then none
  else if reply.allocErr ≠ 0 then none
  else if reply.attachErr ≠ 0 then none
  else some (ds, {
    c with
    consoles    := Function.update c.consoles id { addr := reply.addr, ds, active := id = 0 }
    outOfBounds := c.outOfBounds || decide (NUM_CONSOLES ≤ id) })

end ConsoleCtrl
end ConsoleServer
