import Kpr.Lib.Run
import Mathlib.Data.List.Destutter

namespace Keyboard

-- The label of the only protocol which is served.
def Protocol.Keycode : Nat := 0

inductive Key
  | UP_1
  | DOWN_1
  | UP_2
  | DOWN_2
  | TAB
  deriving DecidableEq, Repr

namespace Key

-- The value by which a key is represented.
def code : Key → Nat
  | UP_1   => 0
  | DOWN_1 => 1
  | UP_2   => 2
  | DOWN_2 => 3
  | TAB    => 4

end Key

-- The first `switch` of `loop`: keys are put in front when they are pressed.
def press (buf : Nat) (currentlyPressed : List Nat) : List Nat :=
  match buf with
  | 15 => Key.TAB.code :: currentlyPressed
  | 30 => Key.DOWN_1.code :: currentlyPressed
  | 31 => Key.UP_1.code :: currentlyPressed
  | 38 => Key.DOWN_2.code :: currentlyPressed
  | 39 => Key.UP_2.code :: currentlyPressed
  | _  => currentlyPressed

-- The conditions under which an element is erased.
def released (buf it : Nat) : Bool :=
  if buf = 143 ∧ it = Key.TAB.code then true
  else if buf = 158 ∧ it = Key.DOWN_1.code then true
  else if buf = 159 ∧ it = Key.UP_1.code then true
  else if buf = 166 ∧ it = Key.DOWN_2.code then true
  else if buf = 167 ∧ it = Key.UP_2.code then true
  else false

-- erase Key's if they're released
-- After an element has been erased, the loop goes on with the one behind it.
def eraseReleased (buf : Nat) : List Nat → List Nat
  | []       => []
  | it :: its => if released buf it then eraseReleased buf its else it :: eraseReleased buf its

-- `std::list::unique`, which removes duplicates that are adjacent.
def unique (currentlyPressed : List Nat) : List Nat :=
  currentlyPressed.destutter (· ≠ ·)

-- What `loop` does with a scan code.
def handle (buf : Nat) (currentlyPressed : List Nat) : List Nat :=
  unique (eraseReleased buf (press buf currentlyPressed))

inductive Status
  | EOK
  | EBADPROTO
  deriving DecidableEq, Repr

-- The status of a request and the values which are written to the stream.
def dispatch (label : Nat) (currentlyPressed : List Nat) : Status × List Nat :=
  if label ≠ Protocol.Keycode then (.EBADPROTO, [])
  else (.EOK, currentlyPressed.length :: currentlyPressed)

-- What clients read from the values of a reply: the number of codes, and then as many codes as
-- that.
def received : List Nat → List Nat
  | []            => []
  | size :: codes => codes.take size

end Keyboard
