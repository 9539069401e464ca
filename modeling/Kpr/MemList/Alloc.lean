import Kpr.MemList.Heap

open Machine

namespace MemList

def extendMem (s : Heap) : Nat × Heap :=
  let addr := (s.kernel s.regions.length).result
  (addr, { s with regions := addr :: s.regions })

-- The payload address behind the header is aligned, not the header itself.
def align (elem : Nat) : Nat :=
  let ret := Word.add elem sizeofDmemElem
  let ret := if ret % ALIGN ≠ 0 then Word.add ret (ALIGN - ret % ALIGN) else ret
  Word.sub ret sizeofDmemElem

def split (s : Heap) (elem : Nat) (size : Nat) : Except Fault Heap := do
  let newElem := align (Word.add (Word.add elem sizeofDmemElem) size)
  let (rest, s) := s.subSize (← s.load elem .size) size
  let (rest, s) := s.subSize rest sizeofDmemElem
  let s ← s.store newElem .size rest
  let s ← s.store newElem .prev elem
  let s ← s.store newElem .next (← s.load elem .next)
  let s ← s.store (← s.load elem .next) .prev newElem
  let s ← s.store elem .size size
  s.store elem .next newElem

-- `a && b`: the second operand is only evaluated if the first one holds.
def andAlso (a : Bool) (b : Except Fault Bool) : Except Fault Bool :=
  if a then b else return false

-- The memory does not change while a search loop runs, hence the loop either ends within this
-- number of iterations or has visited a runner twice and never ends.
@[irreducible]
def loopBound : Nat := 2 ^ 32

-- The search loop of both insertions.
def advance (l : ListId) (passes : Heap → Nat → Nat → Except Fault Bool) (s : Heap)
    (elem : Nat) : Nat → Nat → Except Fault Nat
  | 0, _ => throw .diverges
  | fuel + 1, runner => do
    let next ← s.load runner .next
    if ← andAlso (next ≠ s.head l) (passes s runner elem) then
      advance l passes s elem fuel next
    else
      return runner

-- insert elem before runner
def linkBefore (s : Heap) (elem runner : Nat) : Except Fault Heap := do
  let s ← s.store elem .next runner
  let s ← s.store elem .prev (← s.load runner .prev)
  let s ← s.store (← s.load runner .prev) .next elem
  s.store runner .prev elem

-- exchange elem and runner
def exchange (s : Heap) (elem runner : Nat) : Except Fault Heap := do
  let s ← s.store elem .next (← s.load runner .next)
  let s ← s.store runner .prev (← s.load elem .prev)
  let s ← s.store (← s.load runner .next) .prev elem
  let s ← s.store runner .next elem
  let s ← s.store (← s.load elem .prev) .next runner
  s.store elem .prev runner

def insertInto (l : ListId) (passes before : Heap → Nat → Nat → Except Fault Bool) (s : Heap)
    (elem : Nat) : Except Fault Heap := do
  let runner ← advance l passes s elem loopBound (s.head l)
  let s ← linkBefore s elem runner
  if ← andAlso (runner = s.head l) (before s runner elem) then
    return s.setHead l elem
  else if ← andAlso ((← s.load runner .next) = s.head l) (passes s runner elem) then
    -- end of list
    exchange s elem runner
  else
    return s

-- The processes are sorted by address.
def insertIntoProcesses : Heap → Nat → Except Fault Heap :=
  insertInto .processes
    (fun _ runner elem => return runner < elem)
    (fun _ runner elem => return runner > elem)

-- The holes are meant to be sorted by size.
def insertIntoHoles : Heap → Nat → Except Fault Heap :=
  insertInto .holes
    (fun s runner elem => return (← s.load runner .size) ≤ (← s.load elem .size))
    (fun s runner elem => return (← s.load runner .size) > (← s.load elem .size))

-- take elem out of its list
def unlink (s : Heap) (elem : Nat) : Except Fault Heap := do
  let s ← s.store (← s.load elem .prev) .next (← s.load elem .next)
  s.store (← s.load elem .next) .prev (← s.load elem .prev)

def removeFrom (l : ListId) (s : Heap) (elem : Nat) : Except Fault Heap := do
  let s ←
    if ← andAlso (elem = s.head l) (do return (← s.load elem .next) = s.head l) then
      pure (s.setHead l NULL)
    else do
      let s ← unlink s elem
      if elem = s.head l then
        pure (s.setHead l (← s.load elem .next))
      else
        pure s
  let s ← s.store elem .next NULL
  s.store elem .prev NULL

def removeFromProcesses : Heap → Nat → Except Fault Heap :=
  removeFrom .processes

def removeFromHoles : Heap → Nat → Except Fault Heap :=
  removeFrom .holes

-- Makes `elem` the only element of the list `l`.
def startList (l : ListId) (s : Heap) (elem : Nat) : Except Fault Heap := do
  let s := s.setHead l elem
  let s ← s.store (s.head l) .next (s.head l)
  s.store (s.head l) .prev (s.head l)

-- ensure that size is aligned
def alignSize (s : Heap) (size : Nat) : Nat × Heap :=
  if size ≤ SIZE_INT then (SIZE_INT, s)
  else if size % SIZE_INT ≠ 0 then s.addSize size (SIZE_INT - size % SIZE_INT)
  else (size, s)

-- The search loop of `malloc`.
def findHole (s : Heap) (size : Nat) : Nat → Nat → Except Fault (Option Nat)
  | 0, _ => throw .diverges
  | fuel + 1, runner => do
    if (← s.load runner .size) ≥ size then
      return some runner
    let runner ← s.load runner .next
    if runner ≠ s.holesHead then
      findHole s size fuel runner
    else
      return none

-- The body of the search loop once a large enough hole is found.
def takeHole (s : Heap) (runner : Nat) (size : Nat) : Except Fault (Nat × Heap) := do
  let (rest, s) := s.subSize (← s.load runner .size) size
  let s ← if rest > sizeofDmemElem then split s runner size else pure s
  let s ← removeFromHoles s runner
  let s ←
    if s.processesHead = NULL then startList .processes s runner
    else insertIntoProcesses s runner
  return (Word.add runner sizeofDmemElem, s)

-- The part of `malloc` behind the search loop.
def takeRegion (s : Heap) (size : Nat) : Except Fault (Nat × Heap) := do
  let (region, s) := extendMem s
  let extMem := align region
  let s ← s.store extMem .size EXT_MEM
  let s ← s.store extMem .next extMem
  let s ← s.store extMem .prev extMem
  let (rest, s) := s.subSize (← s.load extMem .size) size
  let s ←
    if rest > sizeofDmemElem then do
      let s ← split s extMem size
      insertIntoHoles s (← s.load extMem .next)
    else
      pure s
  let s ← insertIntoProcesses s extMem
  return (Word.add extMem sizeofDmemElem, s)

-- The first extension: without any hole, a new region becomes the only one.
def createHoles (s : Heap) : Except Fault Heap := do
  let (region, s) := extendMem s
  let s := s.setHead .holes (align region)
  let s ← s.store s.holesHead .size EXT_MEM
  startList .holes s s.holesHead

def malloc (s : Heap) (size : Nat) : Except Fault (Nat × Heap) := do
  let (size, s) := alignSize s size
  let s ← if s.holesHead = NULL then createHoles s else pure s
  match ← findHole s size loopBound s.holesHead with
  | some runner => takeHole s runner size
  | none        => takeRegion s size

def free (s : Heap) (addr : Nat) : Except Fault Heap := do
  let elem := Word.sub addr sizeofDmemElem
  let s ← removeFromProcesses s elem
  if s.holesHead = NULL then startList .holes s elem else insertIntoHoles s elem

inductive Call
  | malloc (size : Nat)
  | free (addr : Nat)
  deriving DecidableEq

-- The heap with the records of the previous call dropped.
def Heap.clear (s : Heap) : Heap :=
  { s with written := [], wrapped := false }

def step (s : Heap) : Call → Except Fault Heap
  | .malloc size => return (← malloc s.clear size).2
  | .free addr   => free s.clear addr

end MemList
