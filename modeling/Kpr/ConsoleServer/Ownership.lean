import Kpr.ConsoleServer.Server

namespace ConsoleServer

inductive GoosProtocol
  | Goos
  | other
  deriving DecidableEq

-- The operations which clients request of a console, with their arguments.
inductive GoosRequest
  | View_info (idx : Nat)
  | Info
  | Get_buffer (idx : Nat)
  | View_refresh (idx : Nat) (x y w h : Int)
  | other

inductive GoosReply
  | EBADPROTO
  | ERANGE
  | ENOSYS
  | viewInfo
  | screenInfo
  | buffer (ds : Nat)
  -- What `refresh` of `Goos_svr` returns.
  | refresh (x y w h : Int)

namespace ConsoleAlt1

def dispatch (console : ConsoleAlt1) (label : GoosProtocol) (op : GoosRequest) : GoosReply :=
  if label ≠ .Goos then .EBADPROTO
  else
    match op with
    | .View_info idx            => if idx ≠ 0 then .ERANGE else .viewInfo
    | .Info                     => .screenInfo
    | .Get_buffer idx           => if idx ≠ 0 then .ERANGE else .buffer console.fbDs
    | .View_refresh idx x y w h => if idx ≠ 0 then .ERANGE else .refresh x y w h
    | .other                    => .ENOSYS

-- What clients are given as their buffer.
def buffer (console : ConsoleAlt1) : GoosReply :=
  console.dispatch .Goos (.Get_buffer 0)

end ConsoleAlt1

-- A request to the factory or another event, or a request to one of the consoles.
inductive Request
  | event (e : Event)
  | goos (i : Nat) (label : GoosProtocol) (op : GoosRequest)

namespace Server

-- Requests to consoles have no effect on the server.
def goos (s : Server) (i : Nat) (label : GoosProtocol) (op : GoosRequest) :
    Option (GoosReply × Server) := do
  let console ← s.consoles[i]?
  return (console.dispatch label op, s)

def serve (s : Server) : Request → Option Server
  | .event e          => s.step e
  | .goos i label op => (s.goos i label op).map Prod.snd

-- The kernel does not allocate the dataspace of another console.
def Fresh (s : Server) : Request → Prop
  | .event (.request .Factory 0 ds _) => ∀ console ∈ s.consoles, console.fbDs ≠ ds
  | _                                 => True

-- Each console has a slot of its own, and hands out the dataspace in this slot.
structure Owned (s : Server) : Prop where
  slots    : ∀ console ∈ s.consoles, console.id < NUM_CONSOLES
  distinct : s.consoles.Pairwise (·.id ≠ ·.id)
  inBounds : s.ctrl.outOfBounds = false
  buffer   : ∀ console ∈ s.consoles, console.buffer = .buffer (s.ctrl.consoles console.id).ds
  apart    : s.consoles.Pairwise (·.buffer ≠ ·.buffer)

-- There is a slot for a console which is created.
def HasSlot (s : Server) : Request → Prop
  | .event e   => e.Creates → s.idCtrl < NUM_CONSOLES
  | .goos ..   => True

end Server

structure Serve (s : Server) (r : Request) (s' : Server) : Prop where
  fresh  : s.Fresh r
  result : s.serve r = some s'

end ConsoleServer
