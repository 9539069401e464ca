import Kpr.MemList.Heap
import Kpr.Lib.Insertion

open Machine

namespace MemList

-- A block is a header at `addr` with a payload of `size` bytes behind it.
structure Block where
  addr : Nat
  size : Nat
  deriving DecidableEq, Repr

namespace Block

def payload (b : Block) : Nat :=
  b.addr + sizeofDmemElem

def fin (b : Block) : Nat :=
  b.payload + b.size

-- The pointer by which clients know the block.
def pointer (b : Block) : Nat :=
  Word.add b.addr sizeofDmemElem

def Apart (b c : Block) : Prop :=
  Machine.Apart b.addr b.fin c.addr c.fin

def HeadersApart (b c : Block) : Prop :=
  Machine.Apart b.addr b.payload c.addr c.payload

instance {b c : Block} : Decidable (b.Apart c) :=
  inferInstanceAs (Decidable (Machine.Apart ..))

instance {b c : Block} : Decidable (b.HeadersApart c) :=
  inferInstanceAs (Decidable (Machine.Apart ..))

-- A block is only cut behind the first `r` bytes of its payload if a header and more fit behind
-- them.
def Splits (b : Block) (r : Nat) : Prop :=
  r + sizeofDmemElem < b.size

instance {b : Block} {r : Nat} : Decidable (b.Splits r) :=
  inferInstanceAs (Decidable (_ < _))

-- The bytes between the two parts of a block. Without them, the second payload would not be
-- aligned.
def padding (r : Nat) : Nat :=
  if r % ALIGN = 0 then 4 else 0

def front (b : Block) (r : Nat) : Block :=
  if b.Splits r then { b with size := r } else b

def rest (b : Block) (r : Nat) : Option Block :=
  if b.Splits r then
    some { addr := b.payload + r + padding r, size := b.size - r - sizeofDmemElem }
  else
    none

-- The block together with the space by which its second part sticks out: the padding is not taken
-- off the size of that part.
def padded (b : Block) (r : Nat) : Block :=
  if b.Splits r then { b with size := b.size + padding r } else b

-- The block lies within the region at `ρ`.
def Inside (b : Block) (ρ : Nat) : Prop :=
  ρ ≤ b.addr ∧ b.fin ≤ ρ + regionBytes

end Block

-- The block made from a region at `ρ`.
def regionBlock (ρ : Nat) : Block where
  addr := ρ + 4
  size := EXT_MEM

-- What is asked of a region which `extendMem` returns.
structure RegionOk (ρ : Nat) : Prop where
  ne_null : ρ ≠ NULL
  page    : ρ % 4096 = 0
  below   : ρ + regionBytes ≤ 2 ^ 32

-- The size which is looked for when `n` bytes are requested.
def rounded (n : Nat) : Nat :=
  if n ≤ SIZE_INT then SIZE_INT else (n + (SIZE_INT - 1)) / SIZE_INT * SIZE_INT

-- The allocator's purpose: it keeps track of the blocks which are in use and of those which are
-- not.
structure Pool where
  live  : List Block
  holes : List Block
  deriving DecidableEq, Repr

namespace Pool

def empty : Pool where
  live  := []
  holes := []

def blocks (a : Pool) : List Block :=
  a.live ++ a.holes

-- The live blocks are kept in the order of their addresses.
def insertLive (a : Pool) (b : Block) : List Block :=
  a.live.insertBehind (·.addr < b.addr) b

-- A hole is put behind those which are not larger.
def insertHole (a : Pool) (b : Block) : List Block :=
  a.holes.insertBehind (·.size ≤ b.size) b

-- The first hole of at least `r` bytes.
def fitting (a : Pool) (r : Nat) : Option Block :=
  a.holes.find? (r ≤ ·.size)

-- The block which serves a request of `r` bytes, where `ρ` is the region at hand if no hole fits.
def taken (a : Pool) (r ρ : Nat) : Block :=
  (a.fitting r).getD (regionBlock ρ)

-- The remainder of a hole takes the place of the hole, the remainder of a region is inserted.
def malloc (a : Pool) (r ρ : Nat) : Pool where
  live  := a.insertLive ((a.taken r ρ).front r)
  holes :=
    let rest := (a.taken r ρ).rest r
    match a.holes.dropWhile (·.size < r) with
    | _ :: hs => a.holes.takeWhile (·.size < r) ++ rest.toList ++ hs
    | []      => rest.elim a.holes a.insertHole

def free (a : Pool) (b : Block) : Pool where
  live  := a.live.erase b
  holes := a.insertHole b

-- The blocks whose headers come into being when `r` bytes are allocated.
def added (a : Pool) (r ρ : Nat) : List Block :=
  match a.fitting r with
  | some b => (b.rest r).toList
  | none   => (regionBlock ρ).front r :: ((regionBlock ρ).rest r).toList

-- What always holds of the blocks, as long as no header is placed on top of another one.
structure Shaped (a : Pool) : Prop where
  ascending : a.live.Pairwise (·.addr < ·.addr)
  aligned   : ∀ b ∈ a.blocks, b.payload % ALIGN = 0
  sized     : ∀ b ∈ a.blocks, b.size % SIZE_INT = 0
  below     : ∀ b ∈ a.blocks, b.payload ≤ 2 ^ 32
  headers   : a.blocks.Pairwise Block.HeadersApart

-- No two blocks have an address in common.
structure Separated (a : Pool) : Prop where
  below : ∀ b ∈ a.blocks, b.fin ≤ 2 ^ 32
  apart : a.blocks.Pairwise Block.Apart

-- The headers which come into being find their place.
def HeadersFit (a : Pool) (r ρ : Nat) : Prop :=
  ∀ c ∈ a.added r ρ, c.payload ≤ 2 ^ 32 ∧ ∀ b ∈ a.blocks, b.HeadersApart c

-- The padding finds its place, too, and so does a new region.
def PaddingFits (a : Pool) (r ρ : Nat) : Prop :=
  ((a.taken r ρ).padded r).fin ≤ 2 ^ 32 ∧
    ∀ b ∈ a.blocks, a.fitting r ≠ some b → b.Apart ((a.taken r ρ).padded r)

-- Every block lies within one of the regions `ρs`.
def Within (a : Pool) (ρs : List Nat) : Prop :=
  ∀ b ∈ a.blocks, ∃ ρ ∈ ρs, b.Inside ρ

-- Even with the padding, the hole stays within one of the regions.
def PaddingWithin (a : Pool) (r : Nat) (ρs : List Nat) : Prop :=
  ∀ b ∈ a.fitting r, ∃ ρ ∈ ρs, (b.padded r).Inside ρ

-- Every block can serve some request but is no larger than the block of a region.
def Sized (a : Pool) : Prop :=
  ∀ b ∈ a.blocks, SIZE_INT ≤ b.size ∧ b.size ≤ EXT_MEM

def Sorted (a : Pool) : Prop :=
  a.holes.Pairwise (·.size ≤ ·.size)

-- The remainder of a hole is at least as large as all holes in front of it.
def RestInOrder (a : Pool) (r : Nat) : Prop :=
  ∀ b ∈ a.fitting r, ∀ c ∈ b.rest r, ∀ g ∈ a.holes.takeWhile (·.size < r), g.size ≤ c.size

-- The size of all headers and payloads taken together, where the padding is not counted.
def total (a : Pool) : Nat :=
  a.blocks.foldr (fun b n => sizeofDmemElem + b.size + n) 0

-- All blocks are still there, and none of them has grown.
def Cut (a a' : Pool) : Prop :=
  ∀ b ∈ a.blocks, ∃ c ∈ a'.blocks, c.addr = b.addr ∧ c.size ≤ b.size

end Pool
end MemList
