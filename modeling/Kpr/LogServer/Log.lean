import Kpr.LogServer.Graphics
import Kpr.Lib.Machine

open Machine

namespace LogServer

inductive Protocol
  | LOG
  | other (label : Int)
  deriving DecidableEq

inductive VconOp
  | WRITE
  | SET_ATTR
  | GET_ATTR
  | other (op : Nat)
  deriving DecidableEq

-- A request as `dispatch` finds it in the UTCB, with `n` bytes of message registers from `mr[2]` on.
structure Utcb (n : Nat) where
  label  : Protocol
  -- The registers `mr[0]` and `mr[1]`.
  op     : VconOp
  count  : Nat
  -- The bytes of the other registers.
  text   : List Byte
  length : text.length = n
  -- The memory behind the registers, up to the first page which is not mapped.
  behind : List Byte

inductive Status
  | EOK
  | EBADPROTO
  deriving DecidableEq, Repr

-- `std::string(char*)`, which copies all characters up to the first `NUL`. Without a `NUL`, there is
-- a page fault.
def cString (bytes : List Byte) : Option (List Byte) :=
  if 0 ∈ bytes then some (bytes.takeWhile (· ≠ 0)) else none

-- replace special characters
-- `char` is signed.
def replaceSpecial (str : List Byte) : List Byte :=
  str.map fun c => if !(decide (c.toInt < 127) && decide (c.toInt > 32)) then 32 else c

structure Log where
  fb         : Screen
  view       : View
  fgColor    : Color
  bgColor    : Color
  lastLine   : Nat
  fontHeight : Nat

namespace Log

variable {n : Nat}

def init (g : Graphics) (view : View) : Log where
  fb _ _     := 0
  view       := view
  fgColor    := g.convertColor view 0xff00b3
  bgColor    := g.convertColor view 0x000000
  lastLine   := Word.sub view.height g.fontHeight
  fontHeight := g.fontHeight

-- The part of `print_log` which draws the string.
def render (g : Graphics) (l : Log) (str : List Byte) : Log :=
  -- scroll downwards
  let fb := g.copy l.view l.fb 0 l.fontHeight l.view.width l.view.height 0 0
  -- clear last line
  let fb := g.fill l.view fb 0 l.lastLine l.view.width l.view.height 0
  -- render log msg to last line
  let fb := g.fontText l.view fb str 0 l.lastLine l.fgColor l.bgColor
  { l with fb, fgColor := ~~~l.fgColor }

def printLog (g : Graphics) (l : Log) (u : Utcb n) : Option Log := do
  let str ← cString (u.text ++ u.behind)
  return l.render g (replaceSpecial str)

def dispatch (g : Graphics) (l : Log) (u : Utcb n) : Option (Status × Log) :=
  if u.label ≠ .LOG then
    some (.EBADPROTO, l)
  else
    match u.op with
    | .WRITE => do return (.EOK, ← l.printLog g u)
    | _      => some (.EOK, l)

-- The server loop.
def serve (g : Graphics) (l : Log) (us : List (Utcb n)) : Option Log :=
  us.foldlM (fun l u => (l.dispatch g u).map (·.snd)) l

end Log
end LogServer
