import Kpr.Lib.Run
import Mathlib.Algebra.Group.Nat.Defs

namespace LibFile

def AT_FDCWD : Int := -100

def EBADF : Int := 9
def ENOMEM : Int := 12
def ERANGE : Int := 34

-- What is used of `vfs_ops` and of files. The result of `openat` for no flags is a file or an error.
structure Ops (φ : Type) where
  root    : φ
  getFile : Int → Option φ
  openat  : φ → List Char → Except Int φ

-- `_current_working_dir`, with the string behind it if this has been allocated.
inductive WorkingDir
  | null
  | default
  | block (n : Nat) (chars : List Char)
  deriving DecidableEq

namespace WorkingDir

def chars : WorkingDir → Option (List Char)
  | null          => none
  | default       => some ['/']
  | block _ chars => some chars

-- The block of the heap in which the string is.
def number : WorkingDir → Option Nat
  | block n _ => some n
  | _         => none

end WorkingDir

structure Process (φ : Type) where
  -- The working directory of `vfs_ops`.
  cwd      : φ
  dir      : WorkingDir
  errno    : Int
  -- The blocks of the heap which are in use, and the number of the next one.
  blocks   : List Nat
  next     : Nat
  -- The blocks which `getcwd` has returned, and those which it has not.
  returned : List Nat
  lost     : List Nat

variable {φ : Type} (ops : Ops φ)

namespace Process

def boot : Process φ where
  cwd      := ops.root
  dir      := .default
  errno    := 0
  blocks   := []
  next     := 0
  returned := []
  lost     := []

variable (s : Process φ)

def malloc (granted : Bool) : Option Nat × Process φ :=
  if granted then (some s.next, { s with blocks := s.next :: s.blocks, next := s.next + 1 })
  else (none, s)

def free (n : Nat) : Option (Process φ) :=
  if n ∈ s.blocks then some { s with blocks := s.blocks.erase n } else none

-- A path without the slashes at its beginning, and the directory in which it is looked up.
def internalGetDir (dirfd : Int) (path : List Char) : Option φ × List Char :=
  if path.head? = some '/' then (some ops.root, path.dropWhile (· = '/'))
  else if dirfd = AT_FDCWD then (some s.cwd, path)
  else (ops.getFile dirfd, path)

def internalResolve (dirfd : Int) (path : List Char) : Except Int φ :=
  match s.internalGetDir ops dirfd path with
  | (none, _)        => .error EBADF
  | (some dir, path) => ops.openat dir path

def freeCwd : Option (Process φ) :=
  match s.dir with
  | .null | .default => some s
  | .block n _       => s.free n

-- The two branches of `chdir`. There is no result if the process does not survive.

-- `strdup`
def replaceDir (path : List Char) (granted : Bool) : Option (Process φ) := do
  let s ← s.freeCwd
  let (block, s) := s.malloc granted
  return { s with dir := block.elim .null (.block · path) }

-- What is written to `tmp`.
def joined (cwd : List Char) (last : Char) (path : List Char) : List Char :=
  (if last ≠ '/' then cwd ++ ['/'] else cwd) ++ path

-- The size of `tmp` has 32 bits, and must be large enough for all that is written to it.
def extendDir (path : List Char) (granted : Bool) : Option (Process φ) := do
  let cwd  ← s.dir.chars
  let last ← cwd.getLast?
  let (block, s) := s.malloc granted
  let n    ← block
  let tmp  := joined cwd last path
  if (cwd.length + path.length + 2) % 2 ^ 32 < tmp.length + 1 then none
  else
    let s ← s.freeCwd
    return { s with dir := .block n tmp }

-- These functions return their result together with the state.

def chdir (path : List Char) (granted : Bool) : Option (Int × Process φ) :=
  match s.internalResolve ops AT_FDCWD path with
  | .error e => some (-1, { s with errno := e })
  | .ok f    =>
    let s := if path.head? = some '/' then s.replaceDir path granted else s.extendDir path granted
    s.map fun s => (0, { s with cwd := f })

def fchdir (fd : Int) : Int × Process φ :=
  match ops.getFile fd with
  | none   => (-1, { s with errno := EBADF })
  | some f => (-1, { s with cwd := f })

-- `buf` says whether there is a buffer of the given size. The result is the string which is
-- returned, if any.
def getcwd (buf : Bool) (size : Nat) (granted : Bool) : Option (Option (List Char) × Process φ) := do
  let cwd ← s.dir.chars
  let lenCwd := cwd.length + 1
  let size := if !buf ∧ size = 0 then lenCwd else size
  if buf then
    if lenCwd > size then return (none, { s with errno := ERANGE }) else return (some cwd, s)
  else
    match s.malloc granted with
    | (none, s)   => return (none, { s with errno := ENOMEM })
    | (some n, s) =>
      if lenCwd > size then return (none, { s with errno := ERANGE, lost := n :: s.lost })
      else return (some cwd, { s with returned := n :: s.returned })

end Process

-- In each call, memory is allocated at most once.
inductive Call
  | chdir (path : List Char) (granted : Bool)
  | fchdir (fd : Int)
  | getcwd (buf : Bool) (size : Nat) (granted : Bool)

namespace Process

variable (s : Process φ)

def step : Call → Option (Process φ)
  | .chdir path granted      => (s.chdir ops path granted).map Prod.snd
  | .fchdir fd               => some (s.fchdir ops fd).snd
  | .getcwd buf size granted => (s.getcwd buf size granted).map Prod.snd

-- The string leads to the working directory.
def Named : Prop :=
  ∃ chars ∈ s.dir.chars, s.internalResolve ops AT_FDCWD chars = .ok s.cwd

-- There is memory for the string, and `fchdir` goes to the directory in which the process already is.
def Keeps : Call → Prop
  | .chdir path granted => path.head? = some '/' →
    ∀ f, s.internalResolve ops AT_FDCWD path = .ok f → granted = true
  | .fchdir fd          => ∀ f ∈ ops.getFile fd, f = s.cwd
  | .getcwd ..          => True

-- The calls which are not survived.
def Faults : Call → Prop
  | .chdir path granted => path.head? ≠ some '/' ∧
    (∃ f, s.internalResolve ops AT_FDCWD path = .ok f) ∧
    (granted = true → ∀ chars ∈ s.dir.chars, 2 ^ 32 ≤ chars.length + path.length + 2)
  | .fchdir _           => False
  | .getcwd ..          => s.dir = .null

end Process

inductive CallStep (s : Process φ) (c : Call) (s' : Process φ) : Prop
  | taken (h : s.step ops c = some s')

-- Paths are resolved step by step.
structure Ops.Resolves : Prop where
  here : ops.openat ops.root [] = .ok ops.root
  step : ∀ {d e f p q}, ops.openat d p = .ok e → ops.openat e q = .ok f → q.head? ≠ some '/' →
    ops.openat d (p ++ '/' :: q) = .ok f
  trail : ∀ {d e f p q}, ops.openat d (p ++ ['/']) = .ok e → ops.openat e q = .ok f →
    q.head? ≠ some '/' → ops.openat d (p ++ '/' :: q) = .ok f

end LibFile
