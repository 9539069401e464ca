import Kpr.MemList.Runs

open Machine

namespace MemList

-- What becomes of the blocks if a hole is freed once more: it is put behind those which are not
-- larger.
def Pool.freeAgain (a : Pool) (b : Block) : Pool where
  live  := a.live
  holes := (a.holes.erase b).insertBehind (·.size ≤ b.size) b

-- What is changed by a write to the word at `a`.
def Heap.poke (s : Heap) (a v : Nat) : Heap :=
  { s with mem := Function.update s.mem a v }

-- A client keeps all pointers which it has ever got from `malloc`.
structure Client where
  heap : Heap
  got  : List Nat

inductive Action
  | malloc (size : Nat)
  | free (addr : Nat)
  | write (addr value : Nat)

namespace Client

def init (kernel : Nat → DataspaceReply) (mem : Memory) : Client where
  heap := .init kernel mem
  got  := []

def PaddingFits (s : Client) : Action → Prop
  | .malloc n => s.heap.PaddingFits (.malloc n)
  | _         => True

-- The block `b` is live, and has a word at `a`.
structure Owns (s : Client) (b : Block) (a : Nat) : Prop where
  live    : b ∈ s.heap.pool.live
  aligned : a % SIZE_INT = 0
  le      : b.payload ≤ a
  lt      : a < b.fin

-- The calls which return, and writes to live blocks. Any of the pointers is freed, even if this has
-- been done before.
inductive Step (limit : Nat) (s : Client) : Action → Client → Prop
  | malloc {n p : Nat} {t : Heap} : n ≤ limit → malloc s.heap.clear n = .ok (p, t) →
    RegionsOk t.regions → Step limit s (.malloc n) { heap := t, got := p :: s.got }
  | free {p : Nat} {t : Heap} : p ∈ s.got → free s.heap.clear p = .ok t →
    Step limit s (.free p) { s with heap := t }
  | write {b : Block} {a v : Nat} : s.Owns b a →
    Step limit s (.write a v) { s with heap := s.heap.poke a v }

section

variable {s s' : Client} {b : Block} {a : Nat} {c : Action}

instance : Decidable (s.PaddingFits c) :=
  match c with
  | .malloc n  => inferInstanceAs (Decidable (s.heap.PaddingFits (.malloc n)))
  | .free _    => .isTrue trivial
  | .write _ _ => .isTrue trivial

instance : Decidable (s.Owns b a) :=
  decidable_of_iff (b ∈ s.heap.pool.live ∧ a % SIZE_INT = 0 ∧ b.payload ≤ a ∧ a < b.fin)
    ⟨fun ⟨h₁, h₂, h₃, h₄⟩ => ⟨h₁, h₂, h₃, h₄⟩, fun ⟨h₁, h₂, h₃, h₄⟩ => ⟨h₁, h₂, h₃, h₄⟩⟩

def transit (s : Client) : Action → Option Client
  | .malloc n =>
    match MemList.malloc s.heap.clear n with
    | .ok (p, t) =>
      if s.PaddingFits (.malloc n) ∧ n ≤ EXT_MEM ∧ RegionsOk t.regions then
        some { heap := t, got := p :: s.got }
      else
        none
    | .error _ => none
  | .free p =>
    match MemList.free s.heap.clear p with
    | .ok t    => if p ∈ s.got then some { s with heap := t } else none
    | .error _ => none
  | .write a v =>
    if ∃ b ∈ s.heap.pool.live, s.Owns b a then some { s with heap := s.heap.poke a v } else none

theorem transit_spec (h : s.transit c = some s') : Guarded PaddingFits (Step EXT_MEM) s c s' := by
  cases c <;> simp only [transit] at h
  case malloc n =>
    split at h
    case h_1 p t he =>
      split at h
      case isTrue hg => exact Option.some.inj h ▸ ⟨hg.left, .malloc hg.right.left he hg.right.right⟩
      case isFalse   => contradiction
    case h_2 => contradiction
  case free p =>
    split at h
    case h_1 t he =>
      split at h
      case isTrue hp => exact Option.some.inj h ▸ ⟨trivial, .free hp he⟩
      case isFalse   => contradiction
    case h_2 => contradiction
  case write a v =>
    split at h
    case isTrue hb =>
      obtain ⟨b, _, hb⟩ := hb
      exact Option.some.inj h ▸ ⟨trivial, .write hb⟩
    case isFalse => contradiction

end

theorem exists_run (s : Client) (cs : List Action) (P : Client → Prop) [DecidablePred P]
    (h : (cs.foldlM transit s).any (P ·) = true) :
    ∃ s', Run (Guarded PaddingFits (Step EXT_MEM)) s cs s' ∧ P s' :=
  Run.exists_of_foldlM transit_spec h

-- A client in the environment of `Heap.boot`.
def boot : Client where
  heap := .boot
  got  := []

end Client
end MemList
