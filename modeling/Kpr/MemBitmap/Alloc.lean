import Kpr.MemBitmap.Arena

open Machine

namespace MemBitmap

-- init bitmap, with `left` words left from `i` on
def initBitmap (s : Arena) : (left : Nat) → (i : Nat) → Arena
  | 0, _        => s
  | left + 1, i => initBitmap (s.store i 0) left (i + 1)

-- allocate MEM
-- Besides the arena, a pointer is returned which is only `NULL` if there is no memory.
def allocMem (s : Arena) : Nat × Arena :=
  let reply := s.kernel s.inits
  let s := { s with inits := s.inits + 1 }
  if !reply.capValid then (NULL, s)
  else if reply.allocErr ≠ 0 then (NULL, s)
  else if reply.attachErr ≠ 0 then (NULL, s)
  else (1, { s with startAddr := reply.addr })

def init (s : Arena) : Nat × Arena :=
  allocMem (initBitmap s BMP_SIZE 0)

-- Sizes are rounded up to the next word, even if they are multiples of a word.
def alignSize (size : Nat) : Nat :=
  if size ≤ PAGE_SIZE then PAGE_SIZE
  else Word.add size (PAGE_SIZE - size % PAGE_SIZE)

-- search for memoryspace, with `left` bits left from `bit` on
-- The result is the bit at which the loop is left, together with the value of `zeros`.
def search (s : Arena) (requiredPages : Nat) :
    (left : Nat) → (bit zeros : Nat) → Option (Nat × Nat) × Arena
  | 0, _, _              => (none, s)
  | left + 1, bit, zeros =>
    let (set, s) := s.isSet bit
    let zeros := if set then 0 else zeros + 1
    if zeros ≥ requiredPages then (some (bit, zeros), s)
    else search s requiredPages left (bit + 1) zeros

-- go backwards and set bits
-- The result contains the value of `bit` behind the loop, which is below zero after the very first
-- bit.
def setBack (s : Arena) : (zeros : Nat) → (bit : Nat) → Nat × Arena
  | 0, bit         => (bit, s)
  | zeros + 1, bit => setBack (s.setBit bit) zeros (Word.sub bit 1)

-- The part of `malloc` behind the initialisation, with an aligned size.
def allocate (s : Arena) (size : Nat) : Nat × Arena :=
  let requiredPages := 1 + size / PAGE_SIZE
  match search s requiredPages BITS 0 0 with
  | (none, s)              => (NULL, s)
  | (some (bit, zeros), s) =>
    let (bit, s) := setBack s zeros bit
    let bit := Word.add bit 1
    let s := s.put (Word.index s.startAddr bit) size
    (Word.index (Word.index s.startAddr bit) 1, s)

def malloc (s : Arena) (size : Nat) : Nat × Arena :=
  let (ready, s) := if s.startAddr = NULL then init s else (1, s)
  if ready = NULL then (NULL, s) else allocate s (alignSize size)

-- Clears `left` bits from `bit` on.
def clearForth (s : Arena) : (left : Nat) → (bit : Nat) → Arena
  | 0, _          => s
  | left + 1, bit => clearForth (s.clearBit bit) left (Word.add bit 1)

-- The test which `free` applies to a pointer before anything else.
def Arena.Accepts (s : Arena) (addr : Nat) : Prop :=
  ¬(addr < s.startAddr ∨ addr > Word.index s.bitmapAddr (BMP_SIZE - 1))

instance {s : Arena} {addr : Nat} : Decidable (s.Accepts addr) :=
  inferInstanceAs (Decidable (¬_))

def free (s : Arena) (addr : Nat) : Arena :=
  if s.Accepts addr then
    let header := Word.sub addr 4
    let size := s.mem header
    let bit := Word.ptrDiff s.startAddr header
    clearForth s (size / 32 + 1) bit
  else
    s

end MemBitmap
