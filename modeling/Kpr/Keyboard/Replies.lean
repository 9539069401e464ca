import Kpr.Keyboard.Server
import Kpr.Lib.NodeList
import Kpr.Lib.Run

namespace Keyboard

-- One iteration of `loop`, which is executed at once. Nodes are only removed, or put in front of
-- all others.
def handleNodes (buf : Nat) (l : NodeList Nat) : NodeList Nat :=
  let l := match (press buf []).head? with
    | some key => l.pushFront key
    | none     => l
  (l.filter (!released buf ·)).unique

-- The values which `dispatch` has written.
structure Reply where
  count    : Nat
  codes    : List Nat
  -- What the list has contained since the dispatch began.
  contents : List (List Nat)
  deriving DecidableEq

-- How far `dispatch` has got.
inductive Progress
  | idle
  -- The size has been written.
  | counted (r : Reply)
  | writing (r : Reply) (it : Iterator)

-- The state which the interrupt thread and the server's thread share, with all replies that have
-- been completed.
structure Threads where
  list     : NodeList Nat
  progress : Progress
  replies  : List Reply

-- The steps of `loop` and `dispatch`.
inductive Event
  -- The interrupt thread handles a scan code.
  | interrupt (buf : Nat)
  -- `ios << currently_pressed.size()`
  | size
  -- `it=currently_pressed.begin()`
  | start
  -- `ios << (*it)` and `it++`
  | write
  -- `it == currently_pressed.end()`
  | finish

namespace Reply

-- The list `codes` of a client: each code which is received is put in front.
def rebuilt (r : Reply) : List Nat :=
  (received (r.count :: r.codes)).foldl (fun codes code => code :: codes) []

-- The reply is a snapshot of the list.
structure Consistent (r : Reply) : Prop where
  count    : r.count = r.codes.length
  snapshot : ∃ l ∈ r.contents, r.rebuilt = l.reverse

def observe (r : Reply) (l : List Nat) : Reply :=
  { r with contents := l :: r.contents }

end Reply

namespace Progress

-- What the list contains now is seen by the dispatch which is under way.
def observe (l : List Nat) : Progress → Progress
  | idle         => idle
  | counted r    => counted (r.observe l)
  | writing r it => writing (r.observe l) it

end Progress

namespace Threads

def boot : Threads where
  list     := .empty
  progress := .idle
  replies  := []

-- There is no next step of `dispatch` once the element under its iterator has been erased.
def step (s : Threads) : Event → Option Threads
  | .interrupt buf =>
    let list := handleNodes buf s.list
    some { s with list, progress := s.progress.observe list.values }
  | .size =>
    match s.progress with
    | .idle =>
      let r := { count := s.list.values.length, codes := [], contents := [s.list.values] }
      some { s with progress := .counted r }
    | _ => none
  | .start =>
    match s.progress with
    | .counted r => some { s with progress := .writing r s.list.first }
    | _          => none
  | .write =>
    match s.progress with
    | .writing r (some elem) => do
      let code ← s.list.deref (some elem)
      let it   ← s.list.advance (some elem)
      return { s with progress := .writing { r with codes := r.codes ++ [code] } it }
    | _ => none
  | .finish =>
    match s.progress with
    | .writing r none => some { s with progress := .idle, replies := r :: s.replies }
    | _               => none

-- All replies are snapshots, and the iterator of the dispatch which is under way can be used.
structure Snapshots (s : Threads) : Prop where
  consistent : ∀ r ∈ s.replies, r.Consistent
  valid      : ∀ r it, s.progress = .writing r it → s.list.Valid it

-- The nodes from the iterator on stay in the list: none of them is released, and the first one does
-- not end up behind another one with the same code.
structure Spares (buf : Nat) (l : NodeList Nat) (it : Iterator) : Prop where
  kept   : ∀ n ∈ l.rest it, released buf n.value = false
  single : ∀ n ∈ (l.rest it).head?,
    (eraseReleased buf (press buf ((l.front it).map Node.value))).getLast? ≠ some n.value

-- The list still has the size which has been written when the iteration begins, and from then on it
-- is not changed behind the iterator.
def Undisturbed (s : Threads) : Event → Prop
  | .start         => ∀ r, s.progress = .counted r → s.list.values.length = r.count
  | .interrupt buf => ∀ r it, s.progress = .writing r it → Spares buf s.list it
  | _              => True

end Threads

inductive Advance (s : Threads) (e : Event) (s' : Threads) : Prop
  | advanced (h : s.step e = some s')

end Keyboard
