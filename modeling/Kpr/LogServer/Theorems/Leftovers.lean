import Kpr.LogServer.Log
import Mathlib.Data.List.TakeWhile

namespace LogServer

variable {n : Nat} {u u' : Utcb n} {m : List Byte}

namespace Utcb

-- The request to write the bytes `m`, whatever is left in the other registers.
structure Writes (u : Utcb n) (m : List Byte) : Prop where
  label : u.label = .LOG
  op    : u.op = .WRITE
  count : u.count = m.length
  text  : m <+: u.text

theorem dispatch_eq {g : Graphics} {l : Log} (hl : u.label = .LOG) (ho : u.op = .WRITE) :
    l.dispatch g u =
      (cString (u.text ++ u.behind)).map fun str => (.EOK, l.render g (replaceSpecial str)) := by
  simp only [Log.dispatch, hl, ho, Log.printLog]
  cases cString (u.text ++ u.behind) <;> rfl

-- The number of bytes which are read in order to find the end of the string.
def scanned (u : Utcb n) : Nat :=
  ((u.text ++ u.behind).takeWhile (· ≠ 0)).length + 1

end Utcb

-- The string which is shown only depends on the request, it is not longer than the request says, and
-- only message registers are read for it.
def MessageOnly (n : Nat) (m : List Byte) : Prop :=
  ∀ u u' : Utcb n, u.Writes m → u'.Writes m →
    ∃ str, str.length ≤ m.length ∧ u.scanned ≤ n ∧ u'.scanned ≤ n ∧ ∀ g l,
      Log.dispatch g l u = some (.EOK, l.render g str) ∧
      Log.dispatch g l u' = some (.EOK, l.render g str)

-- The string ends in front of the `NUL`.
theorem length_takeWhile_lt (h₀ : 0 ∈ m) : (m.takeWhile (· ≠ 0)).length < m.length := by
  have hp := List.takeWhile_prefix (l := m) (· ≠ 0)
  apply Nat.lt_of_le_of_ne hp.length_le
  intro hl
  have hm := hp.eq_of_length hl
  exact absurd (List.takeWhile_eq_self_iff.mp hm 0 h₀) (by decide)

namespace Utcb

-- Registers and memory which hold nothing but other text behind the request.
def leftovers (m : List Byte) (h : m.length ≤ n) : Utcb n where
  label  := .LOG
  op     := .WRITE
  count  := m.length
  text   := m ++ List.replicate (n - m.length) 65
  length := by simp [h]
  behind := [0]

theorem leftovers_writes (h : m.length ≤ n) : (leftovers m h).Writes m where
  label := rfl
  op    := rfl
  count := rfl
  text  := List.prefix_append ..

theorem leftovers_scanned (h : m.length ≤ n) (h₀ : 0 ∉ m) : (leftovers m h).scanned = n + 1 := by
  have hne : ∀ c ∈ (leftovers m h).text, decide (c ≠ 0) = true := by
    intro c hc
    apply decide_eq_true
    cases List.mem_append.mp hc
    case inl hc => exact fun hz => h₀ (hz ▸ hc)
    case inr hc => exact List.eq_of_mem_replicate hc ▸ by decide
  rw [scanned, List.takeWhile_append_of_pos hne, List.length_append, (leftovers m h).length]
  rfl

namespace Writes

variable (h : u.Writes m) (h₀ : 0 ∈ m)
include h

theorem mem_text {c : Byte} (hc : c ∈ m) : c ∈ u.text ++ u.behind :=
  List.mem_append_left _ <| h.text.subset hc

include h₀

-- Nothing behind the first `NUL` matters.
theorem takeWhile_eq : (u.text ++ u.behind).takeWhile (· ≠ 0) = m.takeWhile (· ≠ 0) := by
  have ⟨rest, hrest⟩ := h.text
  rw [← hrest, List.append_assoc, List.takeWhile_append, if_neg (length_takeWhile_lt h₀).ne]

theorem cString_eq : cString (u.text ++ u.behind) = some (m.takeWhile (· ≠ 0)) := by
  rw [cString, if_pos (h.mem_text h₀), h.takeWhile_eq h₀]

theorem scanned_le : u.scanned ≤ n := by
  rw [scanned, h.takeWhile_eq h₀]
  exact (length_takeWhile_lt h₀).trans_le <| h.text.length_le.trans_eq u.length

end Writes
end Utcb

-- What is shown only depends on the request in exactly those cases in which the text of the request
-- contains a `NUL`.
theorem messageOnly_iff (hm : m.length ≤ n) : MessageOnly n m ↔ 0 ∈ m := by
  constructor
  case mp =>
    intro h
    have hw := Utcb.leftovers_writes hm
    have ⟨_, _, hs, _⟩ := h _ _ hw hw
    by_contra h₀
    rw [Utcb.leftovers_scanned hm h₀] at hs
    exact absurd hs (Nat.not_succ_le_self n)
  case mpr =>
    intro h₀ u u' h h'
    refine ⟨replaceSpecial (m.takeWhile (· ≠ 0)), ?_, h.scanned_le h₀, h'.scanned_le h₀, ?_⟩
    · rw [replaceSpecial, List.length_map]
      exact (List.takeWhile_prefix _).length_le
    · intro g l
      rw [u.dispatch_eq h.label h.op, u'.dispatch_eq h'.label h'.op, h.cString_eq h₀, h'.cString_eq h₀]
      exact ⟨rfl, rfl⟩

-- A request with a `NUL` in it.
theorem messageOnly_terminated : MessageOnly 244 [65, 0] :=
  (messageOnly_iff (by decide)).mpr (by decide)

-- The same request comes after one which has cleared all registers, and after one with a longer
-- text.

def afterNothing : Utcb 244 where
  label  := .LOG
  op     := .WRITE
  count  := 1
  text   := [65] ++ List.replicate 243 0
  length := rfl
  behind := []

def afterText : Utcb 244 where
  label  := .LOG
  op     := .WRITE
  count  := 1
  text   := [65] ++ 66 :: List.replicate 242 0
  length := rfl
  behind := []

theorem leftovers_shown : ¬∀ n m, m.length ≤ n → MessageOnly n m := by
  intro h
  have h₁ : afterNothing.Writes [65] := ⟨rfl, rfl, rfl, List.prefix_append ..⟩
  have h₂ : afterText.Writes [65] := ⟨rfl, rfl, rfl, List.prefix_append ..⟩
  have hs₁ : cString (afterNothing.text ++ afterNothing.behind) = some [65] := by decide
  have hs₂ : cString (afterText.text ++ afterText.behind) = some [65, 66] := by decide
  have ⟨str, _, _, _, hd⟩ := h 244 [65] (by decide) _ _ h₁ h₂
  have ⟨hd₁, hd₂⟩ := hd .blocks (.init .blocks ⟨64, 40⟩)
  rw [Utcb.dispatch_eq h₁.label h₁.op, hs₁] at hd₁
  rw [Utcb.dispatch_eq h₂.label h₂.op, hs₂] at hd₂
  have hfb := congrArg (Option.map fun x => x.snd.fb 8 24) (hd₁.trans hd₂.symm)
  exact absurd hfb (by decide)

end LogServer
