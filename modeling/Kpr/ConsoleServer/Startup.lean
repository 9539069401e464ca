import Kpr.ConsoleServer.Server

open Machine

namespace ConsoleServer

-- What one iteration of `refresh_loop` has copied, together with the addresses which were there for
-- it at this time: the one that `set_fb` has stored, and the one that `get_ds` has attached for the
-- console.
structure Copied where
  copy     : ConsoleCtrl.Copy
  fb       : Option Nat
  attached : Option Nat

-- The server from the construction of `ConsoleCtrl` on.
structure Startup where
  server   : Server
  -- What `set_fb` has stored, if it has been called.
  fb       : Option Nat
  -- What `get_ds` has attached for each console.
  attached : Nat → Option Nat
  -- What has been copied so far.
  copies   : List Copied

inductive Action
  | setFb (addr size : Nat)
  | event (e : Event)

namespace Startup

def boot : Startup where
  server     := { ctrl := .boot, lastTab := false, idCtrl := 0, consoles := [] }
  fb         := none
  attached _ := none
  copies     := []

def attach (s : Startup) : Event → Nat → Option Nat
  | .request .Factory 0 _ reply => Function.update s.attached s.server.idCtrl (some reply.addr)
  | _                           => s.attached

def copied (s : Startup) : Copied where
  copy     := s.server.ctrl.refresh
  fb       := s.fb
  attached := s.attached s.server.ctrl.shown

def copy (s : Startup) : Event → List Copied
  | .refresh => s.copied :: s.copies
  | _        => s.copies

def step (s : Startup) : Action → Option Startup
  | .setFb addr size =>
    some { s with server.ctrl := s.server.ctrl.setFb addr size, fb := some addr }
  | .event e => do
    let server ← s.server.step e
    return { server, fb := s.fb, attached := s.attach e, copies := s.copy e }

-- Each iteration has copied from a console that was attached to a framebuffer that was set.
def CopiesAttached (s : Startup) : Prop :=
  ∀ c ∈ s.copies, c.fb = some c.copy.dest ∧ c.attached = some c.copy.src

-- When the screen is refreshed, the framebuffer has been set and the first console is active, or
-- both consoles have been created.
def Ready (s : Startup) : Action → Prop
  | .event .refresh =>
    s.fb ≠ none ∧ ((s.server.ctrl.consoles 0).active = true ∨ s.server.idCtrl = NUM_CONSOLES)
  | _ => True

-- At most `NUM_CONSOLES` consoles are created, and the process does not exit.
structure Next (s : Startup) (a : Action) (s' : Startup) : Prop where
  admits : ∀ e, a = .event e → e.Creates → s.server.idCtrl < NUM_CONSOLES
  result : s.step a = some s'

end Startup
end ConsoleServer
