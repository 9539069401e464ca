import Kpr.MemPages.Session

open Machine

namespace MemPages

structure Process extends Session where
  -- The address of `head`.
  head     : Nat
  -- The elements whose regions have been detached.
  unmapped : List Nat

-- What `free` finds: there is a page fault, the address is not a valid one, or it is the address of a
-- page of an element.
inductive Found
  | fault
  | invalid
  | page (runner idx : Nat)
  deriving DecidableEq

def clearBit (bitmap : BitVec 8) (idx : Nat) : BitVec 8 :=
  bitmap &&& ~~~(.ofNat 8 (1 <<< idx))

-- CLEAR BITS
-- There are never more iterations than bits.
def clearBits (bitmap : BitVec 8) : (left idx : Nat) → BitVec 8
  | 0, _          => bitmap
  | left + 1, idx =>
    if isZero bitmap idx then bitmap
    else clearBits (clearBit bitmap idx) left (incIdx idx 1)

-- block found!
def found (addr runner : Nat) : Found :=
  match (List.range 8).find? (addr = address runner ·) with
  | none     => .invalid
  | some idx => .page runner idx

namespace Process

def boot (kernel : Nat → DataspaceReply) (head : Nat) : Process where
  toSession := .boot kernel
  head      := head
  unmapped  := []

variable (p : Process)

-- The pointer `next` of an element, or of `head`.
def nextOf (runner : Nat) : List Nat → Nat
  | a :: b :: bs => if a = runner then b else nextOf runner (b :: bs)
  | _            => p.head

def next (runner : Nat) : Option Nat :=
  if runner ∈ p.unmapped then none else some (p.nextOf runner (p.head :: p.heap.blocks))

-- search for the block
-- No element is visited twice, so there are never more iterations than elements.
def findBlock (addr : Nat) : (fuel : Nat) → (runner : Nat) → Found
  | 0, _           => .fault
  | fuel + 1, runner =>
    if addr < runner then found addr runner
    else
      match p.next runner with
      | none      => .fault
      | some next =>
        if next = p.head ∧ addr < (runner + sizeofDmemElem * (8 * PAGE_SIZE)) % 2 ^ 32 then
          found addr runner
        else
          -- `runner = runner->next` and `while( runner->next != &head )`
          match p.next next with
          | none       => .fault
          | some next' => if next' = p.head then .invalid else findBlock addr fuel next

def find (addr : Nat) : Found :=
  let first := p.nextOf p.head (p.head :: p.heap.blocks)
  if addr < (first + sizeofDmemElem) % 2 ^ 32 then .invalid
  else p.findBlock addr (p.heap.blocks.length + 2) first

-- The client does not use the pointer any longer.
def forget (addr : Nat) : Process :=
  { p with live := p.live.filter (·.addr ≠ addr) }

-- The region which contains the address is detached. `extent` is the size of the regions in the region
-- map, which consist of whole pages.
def free (extent addr : Nat) : Option Process :=
  let p := p.forget addr
  match p.find addr with
  | .fault           => none
  | .invalid         => some p
  | .page runner idx =>
    if runner ∈ p.unmapped then none
    else
      let p := { p with
        heap.bitmap := Function.update p.heap.bitmap runner (clearBits (p.heap.bitmap runner) 8 idx)
        unmapped    := p.unmapped ++ p.heap.blocks.filter fun b => b ≤ addr ∧ addr < b + extent }
      -- The new bitmap is printed.
      if runner ∈ p.unmapped then none else some p

-- The elements which are visited while memory is searched.
def searched (required : Nat) : (blocks : List Nat) → (zeros : Nat) → List Nat
  | [], _                  => []
  | runner :: blocks, zeros =>
    match searchMap (p.heap.bitmap runner) required (MAP_SIZE * 8) 0 zeros with
    | (true, _, _)      => [runner]
    | (false, _, zeros) => runner :: searched required blocks zeros

-- There is a page fault if one of these elements has been unmapped.
def malloc (size : Nat) : Option Process :=
  if ∃ b ∈ p.searched (requiredPages size) p.heap.blocks 0, b ∈ p.unmapped then none
  else do
    let s ← step p.toSession size
    return { p with toSession := s }

end Process

inductive Call
  | malloc (size : Nat)
  | free (addr : Nat)
  deriving DecidableEq

def Process.call (extent : Nat) (p : Process) : Call → Option Process
  | .malloc size => p.malloc size
  | .free addr   => p.free extent addr

-- Requests fit, and only pointers which have been received are freed.
def Process.Proper (p : Process) : Call → Prop
  | .malloc size => p.Fits size
  | .free addr   => ∃ c ∈ p.live, c.addr = addr

-- What is assumed of the addresses of regions, apart from their being apart. Regions are at least as
-- large as requested.
structure Placed (p : Process) (extent : Nat) : Prop where
  regions : RegionsOk p.heap.blocks
  user    : ∀ b ∈ p.heap.blocks, b + sizeofDmemElem * (8 * PAGE_SIZE) < 2 ^ 32
  head    : ∀ b ∈ p.heap.blocks, b ≠ p.head
  extent  : regionBytes ≤ extent

-- A call which returns.
structure Returned (extent : Nat) (p : Process) (c : Call) (p' : Process) : Prop where
  admits : ∀ size, c = .malloc size → size < 6 * PAGE_SIZE
  result : p.call extent c = some p'
  placed : Placed p' extent

end MemPages
