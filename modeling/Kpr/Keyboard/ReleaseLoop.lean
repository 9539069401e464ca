import Kpr.Keyboard.Server
import Kpr.Lib.NodeList

namespace Keyboard

-- Ways in which the loop does not get to its end: it uses an iterator whose element has been
-- erased, or it goes on forever.
inductive Fault
  | erased
  | diverges
  deriving DecidableEq

-- `*it` and `it++`
def load (l : NodeList Nat) (it : Iterator) : Except Fault Nat :=
  match l.deref it with
  | some code => return code
  | none      => throw .erased

def next (l : NodeList Nat) (it : Iterator) : Except Fault Iterator :=
  match l.advance it with
  | some it => return it
  | none    => throw .erased

-- erase Key's if they're released
-- The elements over which the loop goes are returned in their order, together with the list. The
-- element is erased through the iterator which is advanced afterwards.
def releaseLoop (buf : Nat) : (fuel : Nat) → NodeList Nat → Iterator →
    Except Fault (NodeList Nat × List Nat)
  | _, l, none            => return (l, [])
  | 0, _, some _          => throw .diverges
  | fuel + 1, l, some elem => do
    let code ← load l (some elem)
    let l := if released buf code then l.erase elem else l
    let it ← next l (some elem)
    let (l, examined) ← releaseLoop buf fuel l it
    return (l, elem :: examined)

-- The loop never uses an iterator whose element has been erased, and it examines each element once.
def IteratorSafe (buf : Nat) (l : NodeList Nat) : Prop :=
  ∃ l', releaseLoop buf l.nodes.length l l.first = .ok (l', l.ids)

end Keyboard
