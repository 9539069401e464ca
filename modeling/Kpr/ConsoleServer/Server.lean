import Kpr.ConsoleServer.ConsoleCtrl
import Kpr.Lib.Run

open Machine

namespace ConsoleServer

-- The state of `ConsoleAlt1` objects.
structure ConsoleAlt1 where
  id   : Nat
  fbDs : Nat

structure Server where
  ctrl     : ConsoleCtrl
  -- The state of `switch_loop`.
  lastTab  : Bool
  -- The state of the factory.
  idCtrl   : Nat
  consoles : List ConsoleAlt1

inductive Protocol
  | Meta
  | Factory
  | other
  deriving DecidableEq

inductive Reply
  -- What `handle_meta_request` replies.
  | metaRequest
  | EINVAL
  | EOK (console : ConsoleAlt1)
  -- There is no reply to strange labels, but the status is zero.
  | strange

namespace Server

def boot (fbAddr fbSize : Nat) : Server where
  ctrl     := ConsoleCtrl.boot.setFb fbAddr fbSize
  lastTab  := false
  idCtrl   := 0
  consoles := []

-- create ConsoleAlt1
def create (s : Server) (ds : Nat) (reply : DataspaceReply) : Option (ConsoleAlt1 × Server) := do
  let (fbDs, ctrl) ← s.ctrl.getDs s.idCtrl ds reply
  let console := { id := s.idCtrl, fbDs }
  return (console, {
    s with
    ctrl
    idCtrl   := Word.add s.idCtrl 1
    consoles := console :: s.consoles })

def dispatch (s : Server) (label : Protocol) (op ds : Nat) (reply : DataspaceReply) :
    Option (Reply × Server) :=
  match label with
  | .Meta    => some (.metaRequest, s)
  | .Factory =>
    if op ≠ 0 then some (.EINVAL, s)
    else (s.create ds reply).map fun (console, s) => (.EOK console, s)
  | .other   => some (.strange, s)

-- No two consoles are active, one of them is, and this is the one which is shown.
structure Exclusive (s : Server) : Prop where
  active : (s.ctrl.consoles 0).active = !(s.ctrl.consoles 1).active
  shown  : s.ctrl.shown < NUM_CONSOLES ∧ (s.ctrl.consoles s.ctrl.shown).active = true

-- One of the consoles has to be active as soon as the first of them has been created.
def Switched (s : Server) : Prop :=
  s.idCtrl ≠ 0 → s.Exclusive

end Server

-- What the threads of the server do, step by step.
inductive Event
  | request (label : Protocol) (op ds : Nat) (reply : DataspaceReply)
  | poll (received : List Nat)
  | refresh

namespace Event

-- Whether the event is a request which creates a console.
def Creates : Event → Prop
  | request label op _ _ => label = .Factory ∧ op = 0
  | poll _               => False
  | refresh              => False

end Event

namespace Server

def step (s : Server) : Event → Option Server
  | .request label op ds reply => (s.dispatch label op ds reply).map Prod.snd
  | .poll received =>
    let (ctrl, lastTab) := s.ctrl.poll s.lastTab received
    some { s with ctrl, lastTab }
  | .refresh => some s

-- The second console is not created while it is shown.
def CreatesInactive (s : Server) (e : Event) : Prop :=
  e.Creates → s.idCtrl = 1 → (s.ctrl.consoles 1).active = false

end Server

-- At most `NUM_CONSOLES` consoles are created, and the process does not exit.
structure Transition (s : Server) (e : Event) (s' : Server) : Prop where
  admits : e.Creates → s.idCtrl < NUM_CONSOLES
  result : s.step e = some s'

end ConsoleServer
