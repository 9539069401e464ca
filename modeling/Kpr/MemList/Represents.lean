import Kpr.MemList.Alloc
import Kpr.MemList.Pool
import Kpr.Lib.LinkRing

open Machine

namespace MemList

namespace Heap

-- The elements from `p` on, until the next one is the head again.
def walk (s : Heap) (l : ListId) : Nat → Nat → List Nat
  | 0, _ => []
  | fuel + 1, p => p :: if s.next p = s.head l then [] else walk s l fuel (s.next p)

-- The elements of a list in their order.
def elements (s : Heap) (l : ListId) : List Nat :=
  if s.head l = NULL then [] else s.walk l loopBound (s.head l)

def blocksOn (s : Heap) (l : ListId) : List Block :=
  (s.elements l).map fun e => { addr := e, size := s.size e }

-- The blocks which are found by following the links of both lists.
def pool (s : Heap) : Pool where
  live  := s.blocksOn .processes
  holes := s.blocksOn .holes

-- What the next call of `extendMem` returns.
def nextRegion (s : Heap) : Nat :=
  (s.kernel s.regions.length).result

end Heap

-- The list `l` is well-formed and has the elements `es`: its head is the first of them, or `NULL`,
-- and they form a ring in this order.
structure Threaded (s : Heap) (l : ListId) (es : List Nat) : Prop where
  head : s.head l = es.headD NULL
  ring : LinkRing s.next s.prev es

structure Represents (s : Heap) (a : Pool) : Prop where
  live  : Threaded s .processes (a.live.map Block.addr)
  holes : Threaded s .holes (a.holes.map Block.addr)
  sizes : ∀ b ∈ a.blocks, s.size b.addr = b.size

end MemList
