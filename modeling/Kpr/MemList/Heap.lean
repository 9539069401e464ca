import Kpr.Kernel

open Machine

namespace MemList

def EXT_MEM : Nat := 32768
def SIZE_INT : Nat := 4
def ALIGN : Nat := 8

def sizeofDmemElem : Nat := 12

-- `attach` maps whole pages, so a request for `EXT_MEM + sizeof(Dmem_elem)` bytes yields this many.
def regionBytes : Nat := (EXT_MEM + sizeofDmemElem + 4095) / 4096 * 4096

-- Ways in which a call does not return: a `NULL` pointer is dereferenced, or a loop never exits.
inductive Fault
  | nullDeref
  | diverges
  deriving DecidableEq, Repr

-- The fields of a `Dmem_elem`.
inductive Field
  | size
  | prev
  | next
  deriving DecidableEq

def Field.offset : Field → Nat
  | size => 0
  | prev => 4
  | next => 8

-- The two lists which are threaded through the `prev` and `next` fields.
inductive ListId
  | processes
  | holes
  deriving DecidableEq

structure Heap where
  mem           : Memory
  processesHead : Nat
  holesHead     : Nat
  -- The kernel's answers: the `i`-th call of `extendMem` receives `kernel i`.
  kernel        : Nat → DataspaceReply
  -- The results of all calls of `extendMem` so far, latest first.
  regions       : List Nat
  -- The elements whose header was written since the current call of `malloc` or `free` began.
  written       : List Nat
  -- Whether an addition or subtraction of sizes has wrapped around since then.
  wrapped       : Bool

namespace Heap

def init (kernel : Nat → DataspaceReply) (mem : Memory) : Heap where
  mem           := mem
  processesHead := NULL
  holesHead     := NULL
  kernel        := kernel
  regions       := []
  written       := []
  wrapped       := false

def head (s : Heap) : ListId → Nat
  | .processes => s.processesHead
  | .holes     => s.holesHead

def setHead (s : Heap) (l : ListId) (p : Nat) : Heap :=
  match l with
  | .processes => { s with processesHead := p }
  | .holes     => { s with holesHead := p }

def word (s : Heap) (p : Nat) (f : Field) : Nat :=
  s.mem (Word.add p f.offset)

abbrev size (s : Heap) (p : Nat) : Nat := s.word p .size
abbrev prev (s : Heap) (p : Nat) : Nat := s.word p .prev
abbrev next (s : Heap) (p : Nat) : Nat := s.word p .next

def put (s : Heap) (p : Nat) (f : Field) (v : Nat) : Heap :=
  { s with mem := Function.update s.mem (Word.add p f.offset) v, written := p :: s.written }

-- `p->f`
def load (s : Heap) (p : Nat) (f : Field) : Except Fault Nat :=
  if p = NULL then .error .nullDeref else .ok (s.word p f)

-- `p->f = v`
def store (s : Heap) (p : Nat) (f : Field) (v : Nat) : Except Fault Heap :=
  if p = NULL then .error .nullDeref else .ok (s.put p f v)

-- Sums and differences of sizes, with a note on whether they leave the range of `unsigned`.
def addSize (s : Heap) (a b : Nat) : Nat × Heap :=
  (Word.add a b, { s with wrapped := s.wrapped || decide (2 ^ 32 ≤ a + b) })

def subSize (s : Heap) (a b : Nat) : Nat × Heap :=
  (Word.sub a b, { s with wrapped := s.wrapped || decide (a < b) })

end Heap
end MemList
