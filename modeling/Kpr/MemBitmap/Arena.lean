import Kpr.Kernel

open Machine

namespace MemBitmap

def MEM_SIZE : Nat := 128000
def PAGE_SIZE : Nat := 4
def BITS : Nat := MEM_SIZE / PAGE_SIZE
def BMP_SIZE : Nat := BITS / PAGE_SIZE

structure Arena where
  mem         : Memory
  -- The address of the array `bitmap`.
  bitmapAddr  : Nat
  startAddr   : Nat
  -- The kernel's answers: the `i`-th call of `init` receives `kernel i`.
  kernel      : Nat → DataspaceReply
  inits       : Nat
  -- Whether the array has been accessed at some index beyond its end.
  outOfBounds : Bool

namespace Arena

def boot (mem : Memory) (bitmapAddr : Nat) (kernel : Nat → DataspaceReply) : Arena where
  mem         := mem
  bitmapAddr  := bitmapAddr
  startAddr   := NULL
  kernel      := kernel
  inits       := 0
  outOfBounds := false

-- Notes an access to `bitmap[i]`.
def access (s : Arena) (i : Nat) : Arena :=
  { s with outOfBounds := s.outOfBounds || decide (BMP_SIZE ≤ i) }

def put (s : Arena) (a v : Nat) : Arena :=
  { s with mem := Function.update s.mem a v }

-- `bitmap[i]`
def load (s : Arena) (i : Nat) : Nat × Arena :=
  (s.mem (Word.index s.bitmapAddr i), s.access i)

-- `bitmap[i] = v`
def store (s : Arena) (i v : Nat) : Arena :=
  (s.access i).put (Word.index s.bitmapAddr i) v

-- `bitmap[bit/32] & (1u<<(bit%32))`
def isSet (s : Arena) (bit : Nat) : Bool × Arena :=
  let (word, s) := s.load (bit / 32)
  (word &&& 1 <<< (bit % 32) ≠ 0, s)

-- `bitmap[bit/32] |= (1u<<(bit%32))`
def setBit (s : Arena) (bit : Nat) : Arena :=
  let (word, s) := s.load (bit / 32)
  s.store (bit / 32) (word ||| 1 <<< (bit % 32))

-- `bitmap[bit/32] &= ~(1u<<(bit%32))`
def clearBit (s : Arena) (bit : Nat) : Arena :=
  let (word, s) := s.load (bit / 32)
  s.store (bit / 32) (word &&& Word.not (1 <<< (bit % 32)))

end Arena
end MemBitmap
