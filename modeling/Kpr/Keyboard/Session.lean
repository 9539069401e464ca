import Kpr.Keyboard.Server

namespace Keyboard

namespace Key

-- The scan codes which are sent when a key is pressed and when it is released.
def makeCode : Key → Nat
  | UP_1   => 31
  | DOWN_1 => 30
  | UP_2   => 39
  | DOWN_2 => 38
  | TAB    => 15

def breakCode (k : Key) : Nat :=
  k.makeCode + 128

-- The last scan code of the key, where the latest scan code comes first.
def lastCode (k : Key) (codes : List Nat) : Option Nat :=
  codes.find? fun c => c = k.makeCode ∨ c = k.breakCode

end Key

-- The server's state together with the scan codes which have been handled, latest first.
structure Session where
  currentlyPressed : List Nat
  codes            : List Nat
  deriving DecidableEq

namespace Session

def boot : Session where
  currentlyPressed := []
  codes            := []

-- The list contains the keys which are held, and replies have a bounded size.
structure Tracks (s : Session) : Prop where
  held    : ∀ k : Key, k.code ∈ s.currentlyPressed ↔ k.lastCode s.codes = some k.makeCode
  once    : ∀ k : Key, s.currentlyPressed.count k.code ≤ 1
  bounded : s.currentlyPressed.length ≤ 5
  reply   : ∀ label, (dispatch label s.currentlyPressed).snd.length ≤ 6

-- A key which is pressed is not held already, unless it has been the last one to be pressed.
def PressesFront (s : Session) (buf : Nat) : Prop :=
  ∀ k : Key, buf = k.makeCode → k.code ∈ s.currentlyPressed →
    s.currentlyPressed.head? = some k.code

end Session

-- One iteration of `loop`.
inductive Step (s : Session) (buf : Nat) : Session → Prop
  | handled : Step s buf
    { currentlyPressed := handle buf s.currentlyPressed, codes := buf :: s.codes }

end Keyboard
