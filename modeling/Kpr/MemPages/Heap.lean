import Kpr.Kernel

open Machine

namespace MemPages

def BLOCK_SIZE : Nat := 32768
def PAGE_SIZE : Nat := 4096
def MAP_SIZE : Nat := 1

-- Two pointers and a byte, with padding behind the byte.
def sizeofDmemElem : Nat := 12

structure Heap where
  -- The elements behind `head`, in the order of their `next` pointers.
  blocks     : List Nat
  -- The byte `bitmap[0]` of the element at a given address.
  bitmap     : Nat → BitVec 8
  -- The kernel's answers: the `i`-th call of `extendMem` receives `kernel i`.
  kernel     : Nat → DataspaceReply
  extensions : Nat

namespace Heap

def boot (kernel : Nat → DataspaceReply) : Heap where
  blocks     := []
  bitmap _   := 0
  kernel     := kernel
  extensions := 0

end Heap

def isZero (bitmap : BitVec 8) (idx : Nat) : Bool :=
  bitmap &&& .ofNat 8 (1 <<< idx) == 0

-- There is a page fault if `p` is `NULL`.
def Heap.setBit (s : Heap) (p : Nat) (idx : Nat) : Option Heap :=
  if p = NULL then none
  else some { s with bitmap := Function.update s.bitmap p (s.bitmap p ||| .ofNat 8 (1 <<< idx)) }

end MemPages
