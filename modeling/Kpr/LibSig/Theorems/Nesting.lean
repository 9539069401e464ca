import Kpr.LibSig.Theorems.Frames

open Machine

namespace LibSig

variable {c : Config} {u u' regs : ExcRegs} {mem mem' : Memory} {f : Frame} {t t' t₀ t₁ t₂ t₃ : Thread}
  {e : Event} {es es' : List Event} {trapno trapno' err err' pfa pfa' : Nat} {s : Sigactions}

namespace Config

-- The signal for an exception which is not the end of a handler.
def signum (trapno : Nat) : Nat :=
  if trapno = 0xff then SIGALRM else SIGSEGV

theorem handleException_returns (hn : u.trapno ≠ 0xff) (hip : u.ip = c.trap)
    (h : c.handleException u mem s = some (u', mem')) :
    u' = c.fillUtcbExc u (Word.add u.sp 12) mem ∧ mem' = mem := by
  rw [handleException, if_neg hn, if_pos hip] at h
  dsimp only at h
  split at h
  case isTrue  => contradiction
  case isFalse =>
    cases h
    exact ⟨rfl, rfl⟩

-- Only the instruction pointer and the stack pointer are changed when a handler is entered.
structure Entered (c : Config) (s : Sigactions) (u : ExcRegs) (mem : Memory) (u' : ExcRegs)
    (mem' : Memory) : Prop where
  handler   : s.getHandler (signum u.trapno) ≠ 0
  regs      : u' = { u with ip := s.getHandler (signum u.trapno), sp := u'.sp }
  delivered : c.Delivered u mem (signum u.trapno) u' mem'

theorem handleException_eq (hr : ¬(u.trapno ≠ 0xff ∧ u.ip = c.trap)) :
    c.handleException u mem s = if s.getHandler (signum u.trapno) = 0 then none else do
      let (u', mem) ← c.setupSigFrame u mem (signum u.trapno)
      return ({ u' with ip := s.getHandler (signum u.trapno) }, mem) := by
  by_cases ht : u.trapno = 0xff
  case pos => rw [handleException, if_pos ht, signum, if_pos ht]
  case neg => rw [handleException, if_neg ht, if_neg fun hip => hr ⟨ht, hip⟩, signum, if_neg ht]

theorem handleException_enters (hr : ¬(u.trapno ≠ 0xff ∧ u.ip = c.trap))
    (hs : c.layout.size + 16 ≤ u.sp) (hu : u.sp < 2 ^ 32)
    (h : c.handleException u mem s = some (u', mem')) : c.Entered s u mem u' mem' := by
  rw [handleException_eq hr] at h
  split at h
  case isTrue     => contradiction
  case isFalse hh =>
    obtain ⟨⟨v, mem₁⟩, hv, h⟩ := Option.bind_eq_some_iff.mp h
    cases h
    have ⟨hd, hv⟩ := setupSigFrame_delivered hs hu hv
    refine ⟨hh, ?_, hd.1, hd.2, hd.3, hd.4, hd.5, hd.6, hd.7⟩
    rw [hv]

end Config

namespace Thread

theorem step_returns (hr : t.Returns c trapno)
    (h : t.step c (.exception trapno err pfa) = some t') : t' = { t with
      regs   := c.fillUtcbExc (t.raised trapno err pfa) (Word.add t.regs.sp 12) t.mem
      frames := t.frames.tail } := by
  obtain ⟨⟨u, mem⟩, hu, h⟩ := Option.bind_eq_some_iff.mp h
  obtain ⟨hreg, hmem⟩ := Config.handleException_returns (u := t.raised trapno err pfa) hr.left hr.right hu
  rw [if_pos hr] at h
  cases h
  rw [hreg, hmem]
  rfl

theorem step_enters (hr : ¬t.Returns c trapno) (hs : c.layout.size + 16 ≤ t.regs.sp)
    (hu : t.regs.sp < 2 ^ 32) (h : t.step c (.exception trapno err pfa) = some t') :
    c.Entered t.sigactions (t.raised trapno err pfa) t.mem t'.regs t'.mem ∧
      t'.frames = {
        ucf   := t.regs.sp - c.layout.size
        saved := t.raised trapno err pfa } :: t.frames := by
  obtain ⟨⟨u, mem⟩, hu', h⟩ := Option.bind_eq_some_iff.mp h
  have he := Config.handleException_enters (u := t.raised trapno err pfa) hr hs hu hu'
  rw [if_neg hr] at h
  cases h
  have hucf : Word.sub (t.raised trapno err pfa).sp c.layout.size = t.regs.sp - c.layout.size :=
    Word.sub_of_le (Nat.le_trans (Nat.le_add_right ..) hs)
  exact ⟨he, by rw [hucf]⟩

end Thread

namespace Thread

-- Handlers are registered without any other effect.

theorem step_signal {n : Int} {k : Nat} (h : t.step c (.signal n k) = some t') :
    ∃ r, t.sigactions.signal c.shared n k = some (r, t'.sigactions) ∧
      t' = { t with sigactions := t'.sigactions } := by
  obtain ⟨⟨r, s⟩, hs, h⟩ := Option.bind_eq_some_iff.mp h
  cases h
  exact ⟨r, hs, rfl⟩

theorem step_sigaction {n : Int} {a : Option Sigaction} {o : Bool}
    (h : t.step c (.sigaction n a o) = some t') :
    ∃ r e p, t.sigactions.sigaction n a o 0 = some (r, e, p, t'.sigactions) ∧
      t' = { t with sigactions := t'.sigactions } := by
  obtain ⟨⟨r, e, p, s⟩, hs, h⟩ := Option.bind_eq_some_iff.mp h
  cases h
  exact ⟨r, e, p, hs, rfl⟩

end Thread

-- The registers are still where they have been saved.
structure Frame.Intact (c : Config) (mem : Memory) (f : Frame) : Prop where
  fits   : f.ucf + c.layout.size ≤ 2 ^ 32
  stored : c.Stored f.saved f.ucf mem

theorem Frame.Intact.of_eq (h : f.Intact c mem)
    (hm : ∀ a, f.ucf ≤ a → a < f.ucf + c.layout.size → mem' a = mem a) : f.Intact c mem' where
  fits   := h.fits
  stored s := by
    have hs := c.layout.within s
    have ha := Config.slot_eq (s := s) h.fits
    rw [hm _ (by omega) (by omega), h.stored s]

namespace Thread

-- The frames are below each other on the stack.
structure Intact (c : Config) (t : Thread) : Prop where
  intact : ∀ f ∈ t.frames, f.Intact c t.mem
  nested : t.frames.Pairwise fun f g => f.ucf + c.layout.size ≤ g.ucf

theorem start_intact : (start regs mem).Intact c where
  intact := nofun
  nested := .nil

namespace Intact

variable (h : t.Intact c)
include h

-- All frames are above the stack pointer if the innermost one is.
theorem le_ucf {sp : Nat} (hsp : ∀ f ∈ t.frames.head?, sp ≤ f.ucf) : ∀ f ∈ t.frames, sp ≤ f.ucf := by
  have hn := h.nested
  cases hf : t.frames
  case nil         => exact nofun
  case cons f fs =>
    rw [hf] at hn hsp
    have hle := hsp f rfl
    intro g hg
    cases List.mem_cons.mp hg
    case inl hg => exact hg ▸ hle
    case inr hg =>
      have hfg := List.rel_of_pairwise_cons hn hg
      omega

theorem returns (hr : t.Returns c trapno) (hs : t.step c (.exception trapno err pfa) = some t') :
    t'.Intact c := by
  rw [step_returns hr hs]
  exact ⟨fun f hf => h.intact f (List.mem_of_mem_tail hf), h.nested.tail⟩

theorem enters (hr : ¬t.Returns c trapno) (hd : t.Disciplined c (.exception trapno err pfa))
    (hs : t.step c (.exception trapno err pfa) = some t') : t'.Intact c := by
  rw [Disciplined, if_neg hr] at hd
  have ⟨hroom, hword, hbelow⟩ := hd
  have ⟨he, hf⟩ := step_enters hr hroom hword hs
  have hle := h.le_ucf hbelow
  have hucf : t'.regs.sp + 16 = t.regs.sp - c.layout.size := by
    have hsp : t'.regs.sp + 16 + c.layout.size = t.regs.sp := he.delivered.sp
    omega
  constructor <;> rw [hf]
  case nested => exact .cons (fun g hg => by have := hle g hg; dsimp only; omega) h.nested
  case intact =>
    intro g hg
    cases List.mem_cons.mp hg
    case inr hg =>
      apply (h.intact g hg).of_eq
      exact fun a ha _ => he.delivered.above a (Nat.le_trans (hle g hg) ha)
    case inl hg =>
      subst hg
      constructor
      case fits   => dsimp only; omega
      case stored => exact hucf ▸ he.delivered.stored

theorem run (hd : t.Disciplined c (.run regs mem)) : Intact c { t with regs, mem } where
  intact f hf := (h.intact f hf).of_eq (hd f hf)
  nested      := h.nested

theorem registers (ht : t' = { t with sigactions := s }) : t'.Intact c := by
  subst ht
  exact ⟨h.intact, h.nested⟩

theorem step (hd : t.Disciplined c e) (hs : Step c t e t') : t'.Intact c := by
  obtain ⟨hs⟩ := hs
  cases e
  case run regs mem => exact Option.some.inj hs ▸ h.run hd
  case signal       => exact h.registers (step_signal hs).choose_spec.right
  case sigaction    =>
    have ⟨_, _, _, _, ht⟩ := step_sigaction hs
    exact h.registers ht
  case exception trapno err pfa =>
    by_cases hr : t.Returns c trapno
    case pos => exact h.returns hr hs
    case neg => exact h.enters hr hd hs

omit h in
theorem of_run (hr : Run (Guarded (Disciplined c) (Step c)) (start regs mem) es t) : t.Intact c :=
  hr.invariant start_intact fun hi ht => hi.step ht.guard ht.step

-- The end of a handler brings back what has been saved for the innermost signal.
theorem restored (hr : t.Returns c trapno) (hd : t.Disciplined c (.exception trapno err pfa))
    (hs : t.step c (.exception trapno err pfa) = some t') :
    ∃ f, t.frames = f :: t'.frames ∧ t'.regs = { f.saved with pfa } := by
  rw [Disciplined, if_pos hr] at hd
  have ⟨f, hf, hsp⟩ := hd
  obtain ⟨fs, hfs⟩ := List.head?_eq_some_iff.mp hf
  have hi := h.intact f (hfs ▸ List.mem_cons_self)
  have hfit := hi.fits
  refine ⟨f, ?_, ?_⟩ <;> rw [step_returns hr hs]
  case refine_1 => rw [hfs]; rfl
  case refine_2 =>
    have hsize := c.layout.within .cr2
    have hucf : Word.add t.regs.sp 12 = f.ucf := hsp ▸ Word.add_of_lt (by omega)
    rw [hucf]
    exact Config.fillUtcbExc_stored hi.stored

end Intact

-- If a handler just returns to its caller, then this is the end of the signal.
theorem disciplined_ret (trapno' err' pfa' : Nat) (hr : ¬t.Returns c trapno)
    (hd : t.Disciplined c (.exception trapno err pfa))
    (hs : t.step c (.exception trapno err pfa) = some t') (ht : trapno' ≠ 0xff) :
    Returns c { t' with regs := t'.regs.ret t'.mem } trapno' ∧
      Disciplined c { t' with regs := t'.regs.ret t'.mem } (.exception trapno' err' pfa') := by
  rw [Disciplined, if_neg hr] at hd
  have ⟨hroom, hword, _⟩ := hd
  have ⟨he, hf⟩ := step_enters hr hroom hword hs
  have hsp : t'.regs.sp + 16 + c.layout.size = t.regs.sp := he.delivered.sp
  have hret : Returns c { t' with regs := t'.regs.ret t'.mem } trapno' := ⟨ht, he.delivered.trap⟩
  refine ⟨hret, ?_⟩
  rw [Disciplined, if_pos hret]
  refine ⟨_, congrArg List.head? hf, ?_⟩
  have hadd : Word.add t'.regs.sp 4 = t'.regs.sp + 4 := Word.add_of_lt (by omega)
  change Word.add t'.regs.sp 4 + 12 = t.regs.sp - c.layout.size
  omega

theorem run_ret : Run (Guarded (Disciplined c) (Step c)) t [.run (t.regs.ret t.mem) t.mem]
    { t with regs := t.regs.ret t.mem } :=
  Run.refl.snoc ⟨fun _ _ _ _ _ => rfl, ⟨rfl⟩⟩

theorem signal_guarded {n : Int} {k : Nat} (h : t.step c (.signal n k) = some t') :
    Guarded (Disciplined c) (Step c) t (.signal n k) t' :=
  ⟨trivial, ⟨h⟩⟩

-- However signals are nested, and whatever handlers are registered meanwhile, the end of a handler
-- brings back the registers with which the thread has been interrupted. When the handler was entered,
-- the stack of the interrupted code has been left as it was, and it would have been enough to return at
-- once.
theorem sigreturn_restores
    (hr : Run (Guarded (Disciplined c) (Step c)) (start regs mem) es t₀)
    (hd : Guarded (Disciplined c) (Step c) t₀ (.exception trapno err pfa) t₁)
    (hn : ¬t₀.Returns c trapno)
    (hr' : Run (Guarded (Disciplined c) (Step c)) t₁ es' t₂) (hf : t₂.frames = t₁.frames)
    (ht : Guarded (Disciplined c) (Step c) t₂ (.exception trapno' err' pfa') t₃)
    (hret : t₂.Returns c trapno') :
    (t₃.regs = { t₀.regs with trapno, err, pfa := pfa' } ∧ t₃.frames = t₀.frames ∧
      t₃.sigactions = t₂.sigactions) ∧
    (t₁.regs.ip = t₀.sigactions.getHandler (Config.signum trapno) ∧
      ∀ a, t₀.regs.sp ≤ a → t₁.mem a = t₀.mem a) ∧
    Disciplined c { t₁ with regs := t₁.regs.ret t₁.mem } (.exception trapno' err' pfa') := by
  have ⟨hd, ⟨hs⟩⟩ := hd
  have ⟨hd', ⟨hs'⟩⟩ := ht
  have h₁ := ((Intact.of_run hr).enters hn hd hs)
  have h₂ := hr'.invariant h₁ fun hi ht => hi.step ht.guard ht.step
  have hd₀ := hd
  rw [Disciplined, if_neg hn] at hd₀
  have ⟨he, hf₁⟩ := step_enters hn hd₀.left hd₀.right.left hs
  obtain ⟨f, hf₂, hregs⟩ := h₂.restored hret hd' hs'
  rw [hf, hf₁] at hf₂
  obtain ⟨rfl, hfs⟩ := List.cons.inj hf₂
  have hs₃ : t₃.sigactions = t₂.sigactions := by rw [step_returns hret hs']
  have hip : t₁.regs.ip = t₀.sigactions.getHandler (Config.signum trapno) :=
    congrArg ExcRegs.ip he.regs
  exact ⟨⟨hregs, hfs.symm, hs₃⟩, ⟨hip, he.delivered.above⟩,
    (disciplined_ret _ _ _ hn hd hs hret.left).right⟩

-- The layout for 32-bit x86.
def i386 : Layout where
  size    := 348
  offset  := fun
    | .REG_GS => 20 | .REG_FS => 24 | .REG_ES => 28 | .REG_DS => 32 | .REG_EDI => 36
    | .REG_ESI => 40 | .REG_EBP => 44 | .REG_ESP => 48 | .REG_EBX => 52 | .REG_EDX => 56
    | .REG_ECX => 60 | .REG_EAX => 64 | .REG_TRAPNO => 68 | .REG_ERR => 72 | .REG_EIP => 76
    | .REG_CS => 80 | .REG_EFL => 84 | .REG_UESP => 88 | .REG_SS => 92 | .cr2 => 104
  inj     := by intro a b; cases a <;> cases b <;> simp
  aligned := by intro a; cases a <;> rfl
  within  := by intro a; cases a <;> decide

def oneHandler : Config where
  layout      := i386
  selectors   := ⟨0x2b, 0x2b, 0x23, 0x2b⟩
  rangeOk _ _ := true
  trap        := 0x2000
  shared      := true

def interrupted : ExcRegs :=
  ⟨0, 0, 1, 2, 3, 0, 4, 5, 6, 7, 0, 0, 0x500, 0, 0x10000⟩

-- A handler has been registered for alarms.
def alarmed : Thread :=
  { start interrupted fun _ => 0 with
    sigactions := Function.update Sigactions.boot SIGALRM ⟨0x1000, 0x1000, false⟩ }

-- There is an alarm, and the handler returns at once.
theorem sigreturn_restores_alarm : ∃ t₁ t₂ t₃ : Thread,
    alarmed.step oneHandler (.exception 0xff 0 0) = some t₁ ∧
      t₁.step oneHandler (.run (t₁.regs.ret t₁.mem) t₁.mem) = some t₂ ∧
      t₂.step oneHandler (.exception 6 0 0) = some t₃ ∧
      t₃.regs = { interrupted with trapno := 0xff } := by
  have h₀ : (start interrupted fun _ => 0).step oneHandler (.signal SIGALRM 0x1000) = some alarmed := rfl
  have hn : ¬alarmed.Returns oneHandler 0xff := fun h => h.left rfl
  have hd : alarmed.Disciplined oneHandler (.exception 0xff 0 0) := ⟨by decide, by decide, nofun⟩
  have hs : alarmed.step oneHandler (.exception 0xff 0 0) = some _ := rfl
  have ⟨hret, hd'⟩ := disciplined_ret 6 0 0 hn hd hs (by decide)
  refine ⟨_, _, _, hs, rfl, rfl, ?_⟩
  have hr := Run.refl.snoc (signal_guarded h₀)
  exact (sigreturn_restores hr ⟨hd, ⟨hs⟩⟩ hn run_ret rfl ⟨hd', ⟨rfl⟩⟩ hret).left.left

end Thread
end LibSig
