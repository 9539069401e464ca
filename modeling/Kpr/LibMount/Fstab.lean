import Kpr.Lib.Machine
import Kpr.Lib.Scan

open Machine

namespace LibMount

-- Each byte is represented by the character with its code. These are the white-space characters of
-- the C locale.
def isspace (c : Char) : Bool :=
  c = ' ' ∨ '\t' ≤ c ∧ c ≤ '\r'

-- The arguments of `mount`.
structure Request where
  special : List Char
  dir     : List Char
  fstype  : List Char
  rwflag  : Nat
  data    : List Char
  deriving DecidableEq

-- What is printed. The texts are fixed otherwise.
inductive Message
  | couldNotOpen (path : List Char) (err : Int)
  | couldNotStat (path : List Char)
  | couldNotMmap (path : List Char)
  | parsing (fn : List Char)
  | invalidLine (fn : List Char) (lineNr : Nat) (line : List Char)
  | mountFailed (fn : List Char) (lineNr : Nat) (r : Request) (errno : Int)
  | mounted (special dir fstype : List Char)
  deriving DecidableEq

-- The state of the file systems with `errno`, and what has been requested and printed so far.
structure World (σ : Type) where
  vfs      : σ
  errno    : Int
  requests : List Request
  printed  : List Message

variable {σ : Type}

def World.print (m : Message) (w : World σ) : World σ :=
  { w with printed := w.printed ++ [m] }

-- `ops` is the function `mount` of `vfs_ops`.
def mount (ops : σ → Request → Int × σ) (r : Request) (w : World σ) : Int × World σ :=
  let (e, vfs) := ops w.vfs r
  let w := { w with vfs, requests := w.requests ++ [r] }
  if e < 0 then (-1, { w with errno := -e }) else (0, w)

-- The file in memory. It ends below the end of the address space.
structure File where
  addr  : Nat
  bytes : List Char
  fits  : addr + bytes.length < 2 ^ 32

namespace File

-- What `mmap` returns if it fails. There is nothing at this address.
def MAP_FAILED : File where
  addr  := 2 ^ 32 - 1
  bytes := []
  fits  := by decide

variable (file : File)

-- Pointers into the file are represented by their distance from its beginning.
def address (p : Nat) : Nat :=
  Word.add file.addr p

-- The loops `while (i < e && !stop(*i)) i++`. There is no result if there is an access outside of
-- the file.
def advance (stop : Char → Bool) (i e : Nat) : Option Nat :=
  scan stop file.bytes (file.address e - file.address i) i

end File

structure String where
  s : Nat
  e : Nat
  p : Nat

namespace String

def init (s e : Nat) : String where
  s := s
  e := e
  p := s

def l (x : String) : Nat :=
  x.e - x.s

def empty (x : String) : Bool :=
  x.e - x.s = 0

variable (file : File) (x : String)

def nextSpace : Option String := do
  return { x with p := ← file.advance isspace x.p x.e }

def eatSpace : Option String := do
  return { x with p := ← file.advance (!isspace ·) x.p x.e }

-- `strndup`, which stops at a `NUL`. There is memory for the copy.
def dupnultermstr : Option (List Char) := do
  return slice file.bytes x.s (← scan (· = '\x00') file.bytes x.l x.s)

end String

-- `*s2 == '/' ? s2 + 1 : s2`
def stripSlash : List Char → List Char
  | '/' :: s2 => s2
  | s2        => s2

variable (verbose : Bool) (fn : List Char) (ops : σ → Request → Int × σ)

-- The call of `mount` at the end of `parse_fstab_line`. The messages contain the path of the mount
-- point as it is in the file.
def mountEntry (lineNr : Nat) (s1 s2 s3 s5 : List Char) (w : World σ) : World σ :=
  let r : Request := { special := s1, dir := stripSlash s2, fstype := s3, rwflag := 0, data := s5 }
  let (res, w) := mount ops r w
  if res < 0 then w.print (.mountFailed fn lineNr { r with dir := s2 } w.errno)
  else if verbose then w.print (.mounted s1 s2 s3)
  else w

-- The line of the file from `s` to `fin`.
def parseFstabLine (file : File) (lineNr s fin : Nat) (w : World σ) : Option (World σ) := do
  let fin ← file.advance (· = '#') s fin
  if s = fin then return w
  let line   := String.init s fin
  let line   ← line.nextSpace file
  let from'  := String.init line.s line.p
  let line   ← line.nextSpace file
  let line   ← line.eatSpace file
  let x      := line.p
  let line   ← line.nextSpace file
  let mountpoint := String.init x line.p
  let line   ← line.nextSpace file
  let line   ← line.eatSpace file
  let x      := line.p
  let line   ← line.nextSpace file
  let fsname := String.init x line.p
  let line   ← line.nextSpace file
  let line   ← line.eatSpace file
  let x      := line.p
  let line   ← line.nextSpace file
  let data   := String.init x line.p
  if from'.empty || mountpoint.empty || fsname.empty then
    -- `printf` stops at a `NUL`, too.
    if verbose then return w.print (.invalidLine fn lineNr (← line.dupnultermstr file)) else return w
  else
    let s1 ← from'.dupnultermstr file
    let s2 ← mountpoint.dupnultermstr file
    let s3 ← fsname.dupnultermstr file
    let s5 ← data.dupnultermstr file
    return mountEntry verbose fn ops lineNr s1 s2 s3 s5 w

-- The loop over the lines, in which `fstab` and `s` are the same at the beginning of each iteration.
-- Each iteration goes beyond the end of a line, so there are never more of them than bytes.
def parseLines (file : File) (fin : Nat) :
    (fuel : Nat) → (fstab lineNr : Nat) → World σ → Option (World σ)
  | 0, _, _, _                 => none
  | fuel + 1, fstab, lineNr, w => do
    if fstab = fin then return w
    let s ← file.advance (· = '\n') fstab fin
    let w ← parseFstabLine verbose fn ops file lineNr fstab s w
    if s = fin then return w
    parseLines file fin fuel (s + 1) (lineNr + 1) w

def parseFstab (file : File) (sz : Nat) (w : World σ) : Option (World σ) :=
  let w := if verbose then w.print (.parsing fn) else w
  parseLines verbose fn ops file sz (sz + 1) 0 1 w

-- What `libmount_init` finds.
structure Environment where
  -- The variables `FSTAB_DEBUG` and `FSTAB_FILE`.
  debug    : Bool
  file     : Option (List Char)
  -- The results of `open`, with `errno` behind it, and of `fstat`.
  fd       : Int
  errno    : Int
  stat     : Int
  stSize   : Nat
  size     : stSize < 2 ^ 32
  -- The result of `mmap2` of `vfs_ops`, and the memory at `resptr`.
  mmap2    : Int
  contents : File

namespace Environment

variable (env : Environment)

def mmap : File :=
  if env.mmap2 < 0 then .MAP_FAILED else env.contents

def path : List Char :=
  env.file.getD "/etc/fstab".toList

end Environment

def libmountInit (env : Environment) (w : World σ) : Option (World σ) :=
  let verbose := env.debug
  if env.fd < 0 then
    let w := { w with errno := env.errno }
    some (if verbose then w.print (.couldNotOpen env.path (-env.errno)) else w)
  else if env.stat < 0 then some (if verbose then w.print (.couldNotStat env.path) else w)
  else if env.mmap.addr = 0 then some (if verbose then w.print (.couldNotMmap env.path) else w)
  else parseFstab verbose env.path ops env.mmap env.stSize w

end LibMount
