import Kpr.MemPages.Alloc
import Kpr.Lib.FirstRun
import Kpr.Lib.Run

open Machine

namespace MemPages

-- The size which is requested for each element.
def regionBytes : Nat := sizeofDmemElem + BLOCK_SIZE

-- What is assumed of all regions which have been attached.
structure RegionsOk (bs : List Nat) : Prop where
  ne_null : ∀ b ∈ bs, b ≠ NULL
  le      : ∀ b ∈ bs, b + regionBytes ≤ 2 ^ 32
  apart   : bs.Pairwise fun b c => Apart b (b + regionBytes) c (c + regionBytes)

-- The `k`-th bit of all bitmaps one after the other, where an empty bitmap follows the last one.
def Heap.bit (s : Heap) (k : Nat) : Bool :=
  (s.blocks[k / 8]?).any fun b => (s.bitmap b).getLsbD (k % 8)

-- The bit at which the first run of clear bits begins that is long enough for the pages and a guard on
-- either side.
def Heap.firstFit (s : Heap) (size : Nat) : Option Nat :=
  firstRun s.bit (requiredPages size) (8 * (s.blocks.length + 1))

-- The distance between the pages of a block and its first page.
def offset (idx : Nat) : Nat :=
  sizeofDmemElem * (idx * PAGE_SIZE / 8)

-- What a client has received: a pointer, for the number of bytes which it has requested.
structure Chunk where
  addr : Nat
  size : Nat
  deriving DecidableEq

namespace Chunk

def fin (c : Chunk) : Nat :=
  c.addr + c.size

def ApartFrom (c d : Chunk) : Prop :=
  Apart c.addr c.fin d.addr d.fin

-- The chunk lies in the block of `b`, behind the header.
structure Within (c : Chunk) (b : Nat) : Prop where
  header : b + sizeofDmemElem ≤ c.addr
  fin    : c.fin ≤ b + regionBytes

end Chunk

structure Session where
  heap : Heap
  live : List Chunk

namespace Session

def boot (kernel : Nat → DataspaceReply) : Session where
  heap := .boot kernel
  live := []

-- No page is handed out twice.
structure Exclusive (s : Session) : Prop where
  apart  : s.live.Pairwise Chunk.ApartFrom
  within : ∀ c ∈ s.live, ∃ b ∈ s.heap.blocks, c.Within b

-- Although the pointers to neighbouring pages are too far apart, the chunk does not leave its block.
-- Besides, the run ends in a new block, or its last bit is in the block of its first page.
def Fits (s : Session) (size : Nat) : Prop :=
  ∀ k ∈ s.heap.firstFit size,
    offset ((k + 1) % 8) + size ≤ BLOCK_SIZE ∧
      ((k + requiredPages size - 1) / 8 = s.heap.blocks.length ∨
        (k + requiredPages size - 1) / 8 = (k + 1) / 8)

end Session

def step (s : Session) (size : Nat) : Option Session := do
  let (addr, heap) ← malloc s.heap size
  return { heap, live := { addr, size } :: s.live }

-- A call which returns, in an environment where all regions are as they should be.
structure Transition (s : Session) (size : Nat) (s' : Session) : Prop where
  admits  : size < 6 * PAGE_SIZE
  result  : step s size = some s'
  regions : RegionsOk s'.heap.blocks

section

variable {s : Session} {b size : Nat} {bs : List Nat} {c d : Chunk}

instance : Decidable (RegionsOk bs) :=
  decidable_of_iff ((∀ b ∈ bs, b ≠ NULL) ∧ (∀ b ∈ bs, b + regionBytes ≤ 2 ^ 32) ∧
      bs.Pairwise fun b c => Apart b (b + regionBytes) c (c + regionBytes))
    ⟨fun ⟨h₁, h₂, h₃⟩ => ⟨h₁, h₂, h₃⟩, fun ⟨h₁, h₂, h₃⟩ => ⟨h₁, h₂, h₃⟩⟩

instance : Decidable (c.ApartFrom d) :=
  inferInstanceAs (Decidable (Apart ..))

instance : Decidable (s.Fits size) :=
  inferInstanceAs (Decidable (∀ _ ∈ _, _ ∧ (_ ∨ _)))

end

def transit (G : Session → Nat → Prop) [∀ s n, Decidable (G s n)] (s : Session) (size : Nat) :
    Option Session := do
  let s' ← step s size
  if G s size ∧ size < 6 * PAGE_SIZE ∧ RegionsOk s'.heap.blocks then some s' else none

theorem transit_spec {G : Session → Nat → Prop} [∀ s n, Decidable (G s n)] {s s' : Session}
    {size : Nat} (h : transit G s size = some s') : Guarded G Transition s size s' := by
  obtain ⟨s₁, hs, h⟩ := Option.bind_eq_some_iff.mp h
  split at h
  case isTrue hg => exact Option.some.inj h ▸ ⟨hg.left, hg.right.left, hs, hg.right.right⟩
  case isFalse   => contradiction

end MemPages
