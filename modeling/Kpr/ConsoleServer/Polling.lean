import Kpr.ConsoleServer.ConsoleCtrl

namespace ConsoleServer

namespace ConsoleCtrl

-- The flags of the two consoles.
def flags (c : ConsoleCtrl) : Bool × Bool :=
  ((c.consoles 0).active, (c.consoles 1).active)

-- Exactly one of the two consoles is active.
def OneActive (c : ConsoleCtrl) : Prop :=
  (c.consoles 0).active = !(c.consoles 1).active

-- How often the flags are swapped in one iteration of `switch_loop`.
def pollSwaps (c : ConsoleCtrl) (lastTab : Bool) (received : List Nat) : Nat :=
  (c.poll lastTab received).fst.swaps - c.swaps

-- `switch_loop` for a given sequence of replies.
def pollAll (c : ConsoleCtrl) (lastTab : Bool) (replies : List (List Nat)) : ConsoleCtrl × Bool :=
  replies.foldl (fun (c, lastTab) received => c.poll lastTab received) (c, lastTab)

end ConsoleCtrl

-- Whether TAB was in the last one of the replies, where `lastTab` stands for the one before the
-- first.
def tabBefore (lastTab : Bool) (replies : List (List Nat)) : Bool :=
  match replies.getLast? with
  | none      => lastTab
  | some last => decide (Keyboard.Key.TAB.code ∈ last)

end ConsoleServer
