import Kpr.LibSig.Thread

open Machine

namespace LibSig.Config

variable {c : Config} {u u' : ExcRegs} {ucf signum a : Nat} {mem mem' : Memory} {s s' : Slot}

-- The value which is saved in each slot.
def saved (c : Config) (u : ExcRegs) : Slot → Nat
  | .REG_GS     => u.gs
  | .REG_FS     => u.fs
  | .REG_ES     => c.selectors.es
  | .REG_DS     => c.selectors.ds
  | .REG_EDI    => u.edi
  | .REG_ESI    => u.esi
  | .REG_EBP    => u.ebp
  | .REG_ESP    => u.sp
  | .REG_EBX    => u.ebx
  | .REG_EDX    => u.edx
  | .REG_ECX    => u.ecx
  | .REG_EAX    => u.eax
  | .REG_TRAPNO => u.trapno
  | .REG_ERR    => u.err
  | .REG_EIP    => u.ip
  | .REG_CS     => c.selectors.cs
  | .REG_EFL    => u.flags
  | .REG_UESP   => u.sp
  | .REG_SS     => c.selectors.ss
  | .cr2        => u.pfa

-- All registers are in the frame.
def Stored (c : Config) (u : ExcRegs) (ucf : Nat) (mem : Memory) : Prop :=
  ∀ s, mem (c.slot ucf s) = c.saved u s

theorem slot_eq (h : ucf + c.layout.size ≤ 2 ^ 32) : c.slot ucf s = ucf + c.layout.offset s := by
  have hs := c.layout.within s
  exact Word.add_of_lt (by omega)

theorem slot_inj (h : ucf + c.layout.size ≤ 2 ^ 32) : c.slot ucf s = c.slot ucf s' ↔ s = s' := by
  rw [slot_eq h, slot_eq h, Nat.add_left_cancel_iff]
  exact ⟨c.layout.inj, congrArg _⟩

theorem fillUcontextFrame_stored (h : ucf + c.layout.size ≤ 2 ^ 32) :
    c.Stored u ucf (c.fillUcontextFrame u ucf mem) := by
  intro s
  cases s <;> simp [fillUcontextFrame, assignments, saved, slot_inj h]

-- Nothing else is changed.
theorem fillUcontextFrame_frame (h : ucf + c.layout.size ≤ 2 ^ 32)
    (ha : a < ucf ∨ ucf + c.layout.size ≤ a) : c.fillUcontextFrame u ucf mem a = mem a := by
  have hne (s : Slot) : a ≠ c.slot ucf s := by
    have hs := c.layout.within s
    rw [slot_eq h]
    omega
  simp [fillUcontextFrame, assignments, hne]

-- Reading a frame yields what has been saved, except for the address of a page fault.
theorem fillUtcbExc_stored (h : c.Stored u ucf mem) :
    c.fillUtcbExc u' ucf mem = { u with pfa := u'.pfa } := by
  simp only [fillUtcbExc, h _, saved]

-- What a handler finds when it is entered.
structure Delivered (c : Config) (u : ExcRegs) (mem : Memory) (signum : Nat) (u' : ExcRegs)
    (mem' : Memory) : Prop where
  -- The interrupted registers are saved above the arguments.
  sp       : u'.sp + 16 + c.layout.size = u.sp
  stored   : c.Stored u (u'.sp + 16) mem'
  -- The return address and the arguments.
  trap     : mem' u'.sp = c.trap
  signum   : mem' (u'.sp + 4) = signum
  siginfo  : mem' (u'.sp + 8) = 0
  ucontext : mem' (u'.sp + 12) = u'.sp + 16
  -- The stack of the interrupted code is left as it is.
  above    : ∀ a, u.sp ≤ a → mem' a = mem a

theorem sub_sub {a b m n : Nat} (h : n ≤ a - m) (hb : m + n = b) : Word.sub (a - m) n = a - b := by
  rw [Word.sub_of_le h, Nat.sub_sub, hb]

theorem setupSigFrame_delivered (hs : c.layout.size + 16 ≤ u.sp) (hu : u.sp < 2 ^ 32)
    (h : c.setupSigFrame u mem signum = some (u', mem')) :
    c.Delivered u mem signum u' mem' ∧ u' = { u with sp := u'.sp } := by
  have hucf : Word.sub u.sp c.layout.size = u.sp - c.layout.size := Word.sub_of_le (by omega)
  have hle : 16 ≤ u.sp - c.layout.size := by omega
  have hadd : u.sp - c.layout.size + c.layout.size = u.sp := by omega
  rw [setupSigFrame, hucf] at h
  generalize u.sp - c.layout.size = ucf at h hle hadd
  have hfit : ucf + c.layout.size ≤ 2 ^ 32 := by omega
  have h₄ : Word.sub ucf 4 = ucf - 4 := Word.sub_of_le (by omega)
  have h₈ : Word.sub (ucf - 4) 4 = ucf - 8 := sub_sub (by omega) rfl
  have h₁₂ : Word.sub (ucf - 8) 4 = ucf - 12 := sub_sub (by omega) rfl
  have h₁₆ : Word.sub (ucf - 12) 4 = ucf - 16 := sub_sub (by omega) rfl
  simp only [h₄, h₈, h₁₂, h₁₆] at h
  split at h
  case isTrue  => contradiction
  case isFalse =>
    cases h
    -- The arguments are below the frame.
    have habove {a v₁ v₂ v₃ v₄ : Nat} {m : Memory} (ha : ucf ≤ a) :
        Function.update (Function.update (Function.update (Function.update m (ucf - 4) v₁) (ucf - 8) v₂)
          (ucf - 12) v₃) (ucf - 16) v₄ a = m a := by
      rw [Function.update_of_ne (by omega), Function.update_of_ne (by omega),
        Function.update_of_ne (by omega), Function.update_of_ne (by omega)]
    refine ⟨⟨?_, ?_, ?_, ?_, ?_, ?_, ?_⟩, rfl⟩
    case refine_1 => dsimp only; omega
    case refine_2 =>
      have hb : ucf - 16 + 16 = ucf := by omega
      intro s
      dsimp only
      rw [hb, habove (slot_eq hfit ▸ Nat.le_add_right ..)]
      exact fillUcontextFrame_stored hfit s
    case refine_3 => exact Function.update_self ..
    case refine_4 =>
      have hb : ucf - 16 + 4 = ucf - 12 := by omega
      dsimp only
      rw [hb, Function.update_of_ne (by omega), Function.update_self]
    case refine_5 =>
      have hb : ucf - 16 + 8 = ucf - 8 := by omega
      dsimp only
      rw [hb, Function.update_of_ne (by omega), Function.update_of_ne (by omega), Function.update_self]
    case refine_6 =>
      have hb : ucf - 16 + 12 = ucf - 4 := by omega
      have hb' : ucf - 16 + 16 = ucf := by omega
      dsimp only
      rw [hb, hb', Function.update_of_ne (by omega), Function.update_of_ne (by omega),
        Function.update_of_ne (by omega), Function.update_self]
    case refine_7 =>
      intro a ha
      rw [habove (by omega), fillUcontextFrame_frame hfit (.inr (by omega))]

end LibSig.Config
