import Kpr.MemList.Represents
import Kpr.Lib.Run

open Machine

namespace MemList

-- What is assumed of all regions which `extendMem` has returned.
structure RegionsOk (ρs : List Nat) : Prop where
  ok    : ∀ ρ ∈ ρs, RegionOk ρ
  apart : ρs.Pairwise fun ρ σ => Apart ρ (ρ + regionBytes) σ (σ + regionBytes)

-- The size which is looked for in a call.
def Call.request : Call → Option Nat
  | .malloc size => some (rounded size)
  | .free _      => none

namespace Heap

-- Clients request at most `limit` bytes, and they only free blocks which are live.
def Admits (limit : Nat) (s : Heap) : Call → Prop
  | .malloc size => size ≤ limit
  | .free addr   => ∃ b ∈ s.pool.live, b.pointer = addr

def HeadersFit (s : Heap) (c : Call) : Prop :=
  ∀ r ∈ c.request, s.pool.HeadersFit r s.nextRegion

def PaddingFits (s : Heap) (c : Call) : Prop :=
  ∀ r ∈ c.request, s.pool.PaddingFits r s.nextRegion

def PaddingWithin (s : Heap) (c : Call) : Prop :=
  s.HeadersFit c ∧ ∀ r ∈ c.request, s.pool.PaddingWithin r s.regions

def RestInOrder (s : Heap) (c : Call) : Prop :=
  s.HeadersFit c ∧ ∀ r ∈ c.request, s.pool.RestInOrder r

-- There is a list of live blocks if a region is needed in spite of the holes.
def LiveAtHand (s : Heap) (c : Call) : Prop :=
  ∀ r ∈ c.request, s.pool.fitting r = none → s.pool.holes ≠ [] → s.pool.live ≠ []

end Heap

-- A call which returns, in an environment where all regions are as they should be.
structure Transition (limit : Nat) (s : Heap) (c : Call) (s' : Heap) : Prop where
  admits  : s.Admits limit c
  returns : step s c = .ok s'
  regions : RegionsOk s'.regions

section

variable {a : Pool} {s : Heap} {c : Call} {r ρ limit : Nat} {ρs : List Nat}

instance : Decidable (RegionOk ρ) :=
  decidable_of_iff (ρ ≠ NULL ∧ ρ % 4096 = 0 ∧ ρ + regionBytes ≤ 2 ^ 32)
    ⟨fun ⟨h₁, h₂, h₃⟩ => ⟨h₁, h₂, h₃⟩, fun ⟨h₁, h₂, h₃⟩ => ⟨h₁, h₂, h₃⟩⟩

instance : Decidable (RegionsOk ρs) :=
  decidable_of_iff ((∀ ρ ∈ ρs, RegionOk ρ) ∧
      ρs.Pairwise fun ρ σ => Apart ρ (ρ + regionBytes) σ (σ + regionBytes))
    ⟨fun ⟨h₁, h₂⟩ => ⟨h₁, h₂⟩, fun ⟨h₁, h₂⟩ => ⟨h₁, h₂⟩⟩

instance : Decidable (s.Admits limit c) :=
  match c with
  | .malloc _ => inferInstanceAs (Decidable (_ ≤ _))
  | .free _   => inferInstanceAs (Decidable (∃ _ ∈ _, _))

instance : Decidable (a.HeadersFit r ρ) :=
  inferInstanceAs (Decidable (∀ _ ∈ _, _ ∧ ∀ _ ∈ _, _))

instance : Decidable (a.PaddingFits r ρ) :=
  inferInstanceAs (Decidable (_ ∧ ∀ _ ∈ _, _ → _))

instance {b : Block} : Decidable (b.Inside ρ) :=
  inferInstanceAs (Decidable (_ ∧ _))

instance : Decidable (a.PaddingWithin r ρs) :=
  inferInstanceAs (Decidable (∀ _ ∈ _, ∃ _ ∈ _, _))

instance : Decidable (a.RestInOrder r) :=
  inferInstanceAs (Decidable (∀ _ ∈ _, ∀ _ ∈ _, ∀ _ ∈ _, _))

instance : Decidable (s.HeadersFit c) :=
  inferInstanceAs (Decidable (∀ _ ∈ _, _))

instance : Decidable (s.PaddingFits c) :=
  inferInstanceAs (Decidable (∀ _ ∈ _, _))

instance : Decidable (s.PaddingWithin c) :=
  inferInstanceAs (Decidable (_ ∧ ∀ _ ∈ _, _))

instance : Decidable (s.RestInOrder c) :=
  inferInstanceAs (Decidable (_ ∧ ∀ _ ∈ _, _))

end

-- Transitions are computable, thus runs of given calls can be tried out.
def transit (limit : Nat) (G : Heap → Call → Prop) [∀ s c, Decidable (G s c)] (s : Heap)
    (c : Call) : Option Heap :=
  match step s c with
  | .ok s'   => if G s c ∧ s.Admits limit c ∧ RegionsOk s'.regions then some s' else none
  | .error _ => none

theorem transit_spec {limit : Nat} {G : Heap → Call → Prop} [∀ s c, Decidable (G s c)]
    {s s' : Heap} {c : Call} (h : transit limit G s c = some s') :
    Guarded G (Transition limit) s c s' := by
  simp only [transit] at h
  split at h
  case h_1 s₁ hs =>
    split at h
    case isTrue hg => exact Option.some.inj h ▸ ⟨hg.left, hg.right.left, hs, hg.right.right⟩
    case isFalse   => contradiction
  case h_2 => contradiction

theorem exists_run (limit : Nat) (G : Heap → Call → Prop) [∀ s c, Decidable (G s c)] (s : Heap)
    (cs : List Call) (P : Heap → Prop) [DecidablePred P]
    (h : (cs.foldlM (transit limit G) s).any (P ·) = true) :
    ∃ s', Run (Guarded G (Transition limit)) s cs s' ∧ P s' :=
  Run.exists_of_foldlM transit_spec h

theorem exists_ok {α : Type} {x : Except Fault α} (P : α → Prop) [DecidablePred P]
    (h : x.toOption.any (P ·) = true) : ∃ a, x = .ok a ∧ P a := by
  cases x
  case error f => exact nomatch h
  case ok a    => exact ⟨a, rfl, by simpa [Except.toOption] using h⟩

def faultOf {α : Type} : Except Fault α → Option Fault
  | .error f => some f
  | .ok _    => none

theorem eq_of_faultOf {α : Type} {x : Except Fault α} {f : Fault} (h : faultOf x = some f) :
    x = .error f := by
  cases x
  case error g => exact congrArg _ (Option.some.inj h)
  case ok a    => contradiction

-- A heap in an environment which grants regions at the multiples of 64 KiB.
def Heap.boot : Heap :=
  .init (fun i => .granted (2 ^ 16 * (i + 1))) fun _ => 0

end MemList
