import Kpr.MemPages.Heap

open Machine

namespace MemPages

-- The element is put behind all others.
def extendMem (s : Heap) : Nat × Heap :=
  let newElem := (s.kernel s.extensions).result
  let s := { s with extensions := s.extensions + 1 }
  if newElem = NULL then (NULL, s)
  else (newElem, { s with
    blocks := s.blocks ++ [newElem]
    bitmap := Function.update s.bitmap newElem 0 })

-- These functions step to the neighbours of `runner`, too. As it is passed by value, nothing of this is
-- left behind them.

def incIdx (idx : Nat) : (inc : Nat) → Nat
  | 0       => idx
  | inc + 1 => incIdx (Word.add idx 1 % 8) inc

def decIdx (idx : Nat) : (dec : Nat) → Nat
  | 0       => idx
  | dec + 1 => decIdx (Word.sub idx 1 % 8) dec

-- ensure that size is aligned
-- Above one page, even multiples of a page are increased.
def alignSize (size : Nat) : Nat :=
  if size ≤ PAGE_SIZE then PAGE_SIZE
  else Word.add size (PAGE_SIZE - size % PAGE_SIZE)

def requiredPages (size : Nat) : Nat :=
  2 + alignSize size / PAGE_SIZE

-- The loop over one bitmap, with `left` bits left from `idx` on.
-- The result tells whether memory has been found, together with the values of `idx` and `zeros`.
def searchMap (bitmap : BitVec 8) (requiredPages : Nat) :
    (left : Nat) → (idx zeros : Nat) → Bool × Nat × Nat
  | 0, idx, zeros        => (false, idx, zeros)
  | left + 1, idx, zeros =>
    let zeros := if isZero bitmap idx then zeros + 1 else 0
    if zeros ≥ requiredPages then (true, idx, zeros)
    else searchMap bitmap requiredPages left (idx + 1) zeros

-- search for memory
-- The bits at the end of a block count for the next one.
def search (s : Heap) (requiredPages : Nat) :
    (blocks : List Nat) → (idx zeros : Nat) → Option Nat × Nat × Nat
  | [], idx, zeros             => (none, idx, zeros)
  | runner :: blocks, _, zeros =>
    match searchMap (s.bitmap runner) requiredPages (MAP_SIZE * 8) 0 zeros with
    | (true, idx, zeros)  => (some runner, idx, zeros)
    | (false, idx, zeros) => search s requiredPages blocks idx zeros

-- go backwards and set bits
def setBack (s : Heap) (runner : Nat) : (zeros : Nat) → (idx : Nat) → Option (Nat × Heap)
  | 0, idx         => some (idx, s)
  | zeros + 1, idx => do
    let idx := decIdx idx 1
    setBack (← s.setBit runner idx) runner zeros idx

-- The loop is left with the last of the new elements.
def extend (requiredPages : Nat) (s : Heap) : (fuel : Nat) → (zeros : Nat) → Option (Nat × Heap)
  | 0, _            => none
  | fuel + 1, zeros =>
    let (runner, s) := extendMem s
    let zeros := zeros + 8
    if zeros < requiredPages then extend requiredPages s fuel zeros
    else some (runner, s)

-- `(runner + 1) + (idx*PAGE_SIZE/8)`, which counts in elements.
def address (runner idx : Nat) : Nat :=
  (runner + sizeofDmemElem * (1 + idx * PAGE_SIZE / 8)) % 2 ^ 32

def malloc (s : Heap) (size : Nat) : Option (Nat × Heap) :=
  let required := requiredPages size
  match search s required s.blocks 0 0 with
  | (some runner, idx, zeros) => do
    -- MEM found!
    let (idx, s) ← setBack s runner (zeros - 2) idx
    return (address runner idx, s)
  | (none, idx, zeros) => do
    let idx := decIdx idx zeros
    -- Each round yields eight more pages, so there are never more rounds than pages.
    let (runner, s) ← extend required s required zeros
    -- set correct idx
    let idx := incIdx idx (required - 1)
    let (idx, s) ← setBack s runner (required - 2) idx
    return (address runner idx, s)

end MemPages
