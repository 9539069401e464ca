import Kpr.MemBitmap.Alloc
import Kpr.Lib.FirstRun
import Kpr.Lib.Run

open Machine

namespace MemBitmap

namespace Arena

-- The flag which the bitmap contains for the `k`-th word of the region.
def bit (s : Arena) (k : Nat) : Bool :=
  (s.mem (Word.index s.bitmapAddr (k / 32))).testBit (k % 32)

-- The address and the index of the word which contains the size of the block at `p`.
def header (p : Nat) : Nat :=
  Word.sub p 4

def first (s : Arena) (p : Nat) : Nat :=
  Word.sub (header p) s.startAddr / PAGE_SIZE

-- The index of the first word behind the block at `p`.
def fin (s : Arena) (p : Nat) : Nat :=
  s.first p + 1 + s.mem (header p) / PAGE_SIZE

def ApartAt (s : Arena) (p q : Nat) : Prop :=
  Apart (s.first p) (s.fin p) (s.first q) (s.fin q)

-- The region has been mapped, and it does not overlap the bitmap.
structure Placed (s : Arena) : Prop where
  ne_null : s.startAddr ≠ NULL
  region  : s.startAddr + MEM_SIZE ≤ 2 ^ 32
  bitmap  : s.bitmapAddr + 4 * BMP_SIZE ≤ 2 ^ 32
  apart   : Apart s.startAddr (s.startAddr + MEM_SIZE) s.bitmapAddr (s.bitmapAddr + 4 * BMP_SIZE)

end Arena

-- An arena together with the pointers which its clients have not freed yet.
structure Session where
  arena : Arena
  live  : List Nat

namespace Session

def boot (mem : Memory) (bitmapAddr : Nat) (kernel : Nat → DataspaceReply) : Session where
  arena := .boot mem bitmapAddr kernel
  live  := []

-- No word is handed out twice.
structure Exclusive (s : Session) : Prop where
  inBounds : s.arena.outOfBounds = false
  apart    : s.live.Pairwise s.arena.ApartAt
  within   : ∀ p ∈ s.live, s.arena.fin p ≤ BITS
  marked   : ∀ p ∈ s.live, ∀ k, s.arena.first p ≤ k → k < s.arena.fin p → s.arena.bit k = true

end Session

inductive Call
  | malloc (size : Nat)
  | free (addr : Nat)
  deriving DecidableEq

def step (s : Session) : Call → Session
  | .malloc size =>
    let (p, arena) := malloc s.arena size
    { arena, live := if p = NULL then s.live else p :: s.live }
  | .free addr => { arena := free s.arena addr, live := s.live.erase addr }

namespace Session

-- Sizes do not wrap around, and clients only free pointers which are live.
def Admits (s : Session) : Call → Prop
  | .malloc size => size < 2 ^ 32 - 4
  | .free addr   => addr ∈ s.live

-- The very first block is freed, or the pointer is rejected.
def FreesFirst (s : Session) : Call → Prop
  | .malloc _  => True
  | .free addr => s.arena.Accepts addr → s.arena.first addr = 0

end Session

structure Transition (s : Session) (c : Call) (s' : Session) : Prop where
  admits : s.Admits c
  result : s' = step s c
  placed : s'.arena.Placed

section

variable {s : Session} {c : Call} {a : Arena}

instance : Decidable (s.Admits c) :=
  match c with
  | .malloc _ => inferInstanceAs (Decidable (_ < _))
  | .free _   => inferInstanceAs (Decidable (_ ∈ _))

instance : Decidable (s.FreesFirst c) :=
  match c with
  | .malloc _ => inferInstanceAs (Decidable True)
  | .free _   => inferInstanceAs (Decidable (_ → _))

instance : Decidable a.Placed :=
  decidable_of_iff (a.startAddr ≠ NULL ∧ a.startAddr + MEM_SIZE ≤ 2 ^ 32 ∧
      a.bitmapAddr + 4 * BMP_SIZE ≤ 2 ^ 32 ∧
      Apart a.startAddr (a.startAddr + MEM_SIZE) a.bitmapAddr (a.bitmapAddr + 4 * BMP_SIZE))
    ⟨fun ⟨h₁, h₂, h₃, h₄⟩ => ⟨h₁, h₂, h₃, h₄⟩, fun ⟨h₁, h₂, h₃, h₄⟩ => ⟨h₁, h₂, h₃, h₄⟩⟩

end

end MemBitmap
