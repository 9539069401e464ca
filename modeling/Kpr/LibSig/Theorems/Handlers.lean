import Kpr.LibSig.Theorems.Nesting
import Mathlib.Data.List.Basic

open Machine

namespace LibSig

variable {c : Config} {regs : ExcRegs} {mem : Memory} {t t' : Thread} {e : Event} {es : List Event}
  {s s' : Sigactions} {a : Sigaction} {n sp trapno err pfa : Nat} {shared : Bool}

-- Shared storage contains a single value.
def Sigaction.Valid (shared : Bool) (a : Sigaction) : Prop :=
  shared = true → a.sa_sigaction = a.sa_handler

-- The handler which is meant.
def Sigaction.handler (a : Sigaction) : Nat :=
  if a.SA_SIGINFO then a.sa_sigaction else a.sa_handler

-- The handler which an event registers for a signal, if there is such a signal and its handler can be
-- changed that way.
def Event.registers (n : Nat) : Event → Option Nat
  | .signal signum handler      => if signum = n ∧ n < NSIG then some handler else none
  | .sigaction signum (some a) _ =>
    if signum = n ∧ n < NSIG ∧ n ≠ SIGKILL ∧ n ≠ SIGSTOP then some a.handler else none
  | _ => none

-- The handler which has been registered last.
def latest (n : Nat) (es : List Event) : Nat :=
  es.foldl (fun h e => (e.registers n).getD h) 0

theorem latest_snoc : latest n (es ++ [e]) = (e.registers n).getD (latest n es) := by
  rw [latest, List.foldl_append]
  rfl

-- The structures which are passed to `sigaction` are those of the C library.
def Thread.Admits (c : Config) (_ : Thread) : Event → Prop
  | .sigaction _ act _ => ∀ a ∈ act, a.Valid c.shared
  | _                  => True

namespace Sigactions

theorem getHandler_eq (hn : n < NSIG) :
    s.getHandler n = if (s n).SA_SIGINFO ∧ (s n).sa_sigaction ≠ 0 then (s n).sa_sigaction
      else (s n).sa_handler := by
  rw [getHandler, if_neg (Nat.not_le.mpr hn)]
  dsimp only
  split
  case isTrue  => rfl
  case isFalse =>
    split
    case isTrue    => rfl
    case isFalse h => exact (not_not.mp h).symm

theorem getHandler_of_not_lt (hn : ¬n < NSIG) : s.getHandler n = 0 :=
  if_pos (Nat.le_of_not_lt hn)

-- With shared storage, it does not matter which kind of handler it is.
theorem getHandler_valid (hv : (s n).Valid true) (hn : n < NSIG) :
    s.getHandler n = (s n).sa_handler := by
  rw [getHandler_eq hn, hv rfl, ite_self]

theorem handler_valid (hv : a.Valid true) : a.handler = a.sa_handler := by
  rw [Sigaction.handler, hv rfl, ite_self]

theorem signal_cases {k : Int} {h r : Nat} (hs : s.signal shared k h = some (r, s')) :
    (∃ m : Nat, k = m ∧ m < NSIG ∧ s' = Function.update s m ((s m).setHandler shared h)) ∨
    NSIG ≤ k ∧ s' = s := by
  rw [signal.eq_def] at hs
  split at hs
  case isFalse hk =>
    cases hs
    exact .inr ⟨Int.not_lt.mp hk, rfl⟩
  case isTrue hk =>
    cases k
    case negSucc => contradiction
    case ofNat m =>
      cases hs
      exact .inl ⟨m, rfl, Int.ofNat_lt.mp hk, rfl⟩

theorem sigaction'_cases {k err : Int} {act old : Option Sigaction} {o : Bool}
    (hs : s.sigaction' k act o = some (err, old, s')) :
    (∃ m : Nat, k = m ∧ m < NSIG ∧ m ≠ SIGKILL ∧ m ≠ SIGSTOP ∧
      s' = act.elim s (Function.update s m)) ∨
    (k = SIGKILL ∨ k = SIGSTOP ∨ NSIG ≤ k) ∧ s' = s := by
  rw [sigaction'.eq_def] at hs
  split at hs
  case isTrue hk =>
    cases hs
    exact .inr ⟨hk.imp_right .inl, rfl⟩
  case isFalse hk =>
    split at hs
    case isFalse hn =>
      cases hs
      exact .inr ⟨.inr (.inr (Int.not_lt.mp hn)), rfl⟩
    case isTrue hn =>
      cases k
      case negSucc => contradiction
      case ofNat m =>
        refine .inl ⟨m, rfl, Int.ofNat_lt.mp hn, fun h => hk (.inl (h ▸ rfl)),
          fun h => hk (.inr (h ▸ rfl)), ?_⟩
        cases act <;> cases hs <;> rfl

theorem sigaction_cases {k err errno e : Int} {act old : Option Sigaction} {o : Bool}
    (hs : s.sigaction k act o errno = some (err, e, old, s')) :
    (∃ m : Nat, k = m ∧ m < NSIG ∧ m ≠ SIGKILL ∧ m ≠ SIGSTOP ∧
      s' = act.elim s (Function.update s m)) ∨
    (k = SIGKILL ∨ k = SIGSTOP ∨ NSIG ≤ k) ∧ s' = s := by
  obtain ⟨⟨r, p, s₁⟩, h, hs⟩ := Option.bind_eq_some_iff.mp hs
  dsimp only at hs
  split at hs <;> cases hs <;> exact sigaction'_cases h

end Sigactions

namespace Thread

theorem step_sigaction_cases {k : Int} {act : Option Sigaction} {o : Bool}
    (hs : t.step c (.sigaction k act o) = some t') :
    (∃ m : Nat, k = m ∧ m < NSIG ∧ m ≠ SIGKILL ∧ m ≠ SIGSTOP ∧
      t'.sigactions = act.elim t.sigactions (Function.update t.sigactions m)) ∨
    (k = SIGKILL ∨ k = SIGSTOP ∨ NSIG ≤ k) ∧ t'.sigactions = t.sigactions := by
  obtain ⟨_, _, _, hs, _⟩ := step_sigaction hs
  exact Sigactions.sigaction_cases hs

-- Each event has the effect on the handlers which it is meant to have.
theorem step_registers (hs : t.step c e = some t') (hn : n < NSIG) :
    e.registers n = none ∧ t'.sigactions n = t.sigactions n ∨
    ∃ h, e.registers n = some h ∧ (t'.sigactions n = (t.sigactions n).setHandler c.shared h ∨
      ∃ a o, e = .sigaction n (some a) o ∧ a.handler = h ∧ t'.sigactions n = a) := by
  cases e
  case run => exact .inl ⟨rfl, Option.some.inj hs ▸ rfl⟩
  case exception =>
    obtain ⟨⟨u, mem⟩, _, h⟩ := Option.bind_eq_some_iff.mp hs
    cases h
    exact .inl ⟨rfl, rfl⟩
  case signal k h =>
    obtain ⟨_, hs, _⟩ := step_signal hs
    rw [Event.registers]
    cases Sigactions.signal_cases hs
    case inl hm =>
      obtain ⟨m, rfl, hm, hs⟩ := hm
      by_cases hmn : n = m
      case pos =>
        subst hmn
        rw [hs, if_pos ⟨rfl, hn⟩, Function.update_self]
        exact .inr ⟨h, rfl, .inl rfl⟩
      case neg =>
        rw [hs, if_neg fun h => hmn (Int.ofNat.inj h.left).symm, Function.update_of_ne hmn]
        exact .inl ⟨rfl, rfl⟩
    case inr hm =>
      rw [if_neg fun h => by omega, hm.right]
      exact .inl ⟨rfl, rfl⟩
  case sigaction k act o =>
    have hr := step_sigaction_cases hs
    cases act
    case none   =>
      refine .inl ⟨rfl, ?_⟩
      cases hr
      case inl hr =>
        obtain ⟨_, _, _, _, _, hs⟩ := hr
        rw [hs]; rfl
      case inr hr => rw [hr.right]
    case some a =>
      rw [Event.registers]
      cases hr
      case inl hr =>
        obtain ⟨m, rfl, hm, hk, hp, hs⟩ := hr
        rw [hs]
        by_cases hmn : n = m
        case pos =>
          subst hmn
          rw [if_pos ⟨rfl, hn, hk, hp⟩, Option.elim_some, Function.update_self]
          exact .inr ⟨_, rfl, .inr ⟨a, o, rfl, rfl, rfl⟩⟩
        case neg =>
          rw [if_neg fun h => hmn (Int.ofNat.inj h.left).symm, Option.elim_some,
            Function.update_of_ne hmn]
          exact .inl ⟨rfl, rfl⟩
      case inr hr =>
        have hne : ¬(k = n ∧ n < NSIG ∧ n ≠ SIGKILL ∧ n ≠ SIGSTOP) := by omega
        rw [if_neg hne, hr.right]
        exact .inl ⟨rfl, rfl⟩

-- Each exception which is a signal enters the handler which has been registered last for it. Without a
-- handler, the thread is stopped.
structure Answers (c : Config) (t : Thread) (es : List Event) : Prop where
  ip : ∀ trapno err pfa, ¬t.Returns c trapno →
    c.rangeOk (Word.sub t.regs.sp c.layout.size) c.layout.size = true →
      (t.step c (.exception trapno err pfa)).map (·.regs.ip) =
        if latest (Config.signum trapno) es = 0 then none else some (latest (Config.signum trapno) es)

theorem step_ip (hr : ¬t.Returns c trapno)
    (hok : c.rangeOk (Word.sub t.regs.sp c.layout.size) c.layout.size = true) :
    (t.step c (.exception trapno err pfa)).map (·.regs.ip) =
      if t.sigactions.getHandler (Config.signum trapno) = 0 then none
      else some (t.sigactions.getHandler (Config.signum trapno)) := by
  have hok : (!c.rangeOk (Word.sub t.regs.sp c.layout.size) c.layout.size) ≠ true := by rw [hok]; decide
  have ⟨v, hv⟩ : ∃ v, c.setupSigFrame (t.raised trapno err pfa) t.mem (Config.signum trapno) = some v :=
    ⟨_, if_neg hok⟩
  have he : c.handleException (t.raised trapno err pfa) t.mem t.sigactions = _ :=
    Config.handleException_eq hr
  have htr : (t.raised trapno err pfa).trapno = trapno := rfl
  rw [htr, hv] at he
  rw [step, he]
  split <;> rfl

-- What is known of the handlers if they have shared storage.
structure Follows (t : Thread) (es : List Event) : Prop where
  valid  : ∀ n < NSIG, (t.sigactions n).Valid true
  latest : ∀ n < NSIG, (t.sigactions n).sa_handler = latest n es

theorem start_follows : (start regs mem).Follows [] where
  valid _ _ _ := rfl
  latest _ _  := rfl

theorem Follows.step (h : t.Follows es) (hc : c.shared = true) (ha : t.Admits c e)
    (hs : t.step c e = some t') : t'.Follows (es ++ [e]) := by
  have hn {n} (hn : n < NSIG) : (t'.sigactions n).Valid true ∧
      (t'.sigactions n).sa_handler = LibSig.latest n (es ++ [e]) := by
    rw [latest_snoc]
    cases step_registers hs hn
    case inl hr => rw [hr.left, hr.right]; exact ⟨h.valid n hn, h.latest n hn⟩
    case inr hr =>
      obtain ⟨k, hk, hr⟩ := hr
      rw [hk]
      cases hr
      case inl hr => rw [hr, hc]; exact ⟨fun _ => rfl, rfl⟩
      case inr hr =>
        obtain ⟨a, o, rfl, hak, hr⟩ := hr
        have hv : a.Valid true := hc ▸ ha a rfl
        rw [hr, ← hak]
        exact ⟨hv, (Sigactions.handler_valid hv).symm⟩
  exact ⟨fun n h => (hn h).left, fun n h => (hn h).right⟩

theorem latest_of_not_lt (hn : ¬n < NSIG) : LibSig.latest n es = 0 := by
  refine List.foldl_fixed' (fun e => ?_) es
  rw [Event.registers.eq_def]
  split
  case h_1 => rw [if_neg fun h => hn h.right]; rfl
  case h_2 => rw [if_neg fun h => hn h.right.left]; rfl
  case h_3 => rfl

theorem Follows.getHandler (h : t.Follows es) : t.sigactions.getHandler n = LibSig.latest n es := by
  by_cases hn : n < NSIG
  case pos => rw [Sigactions.getHandler_valid (h.valid n hn) hn, h.latest n hn]
  case neg => rw [Sigactions.getHandler_of_not_lt hn, latest_of_not_lt hn]

theorem Follows.of_run (hc : c.shared = true)
    (hr : Run (Guarded (Admits c) (Step c)) (start regs mem) es t) : t.Follows es := by
  induction hr
  case refl => exact start_follows
  case snoc hs ih =>
    obtain ⟨ha, ⟨hs⟩⟩ := hs
    exact ih.step hc ha hs

theorem admitted_sigaction (ha : a.Valid c.shared) :
    Guarded (Admits c) (Step c) t (.sigaction SIGALRM (some a) false) { t with
      sigactions := Function.update t.sigactions SIGALRM a } where
  guard _ h := Option.some.inj h ▸ ha
  step      := ⟨rfl⟩

theorem admitted_signal (k : Nat) : Guarded (Admits c) (Step c) t (.signal SIGALRM k) { t with
    sigactions := Function.update t.sigactions SIGALRM
      ((t.sigactions SIGALRM).setHandler c.shared k) } where
  guard := trivial
  step  := ⟨rfl⟩

def twofold : Sigaction where
  sa_handler   := 0
  sa_sigaction := 1
  SA_SIGINFO   := true

-- Two handlers are registered, one after the other. The latter is lost if there is room for both.
theorem shared_of_answers (hsp : c.rangeOk (Word.sub sp c.layout.size) c.layout.size = true)
    (h : ∀ regs mem es t, Run (Guarded (Admits c) (Step c)) (start regs mem) es t → t.Answers c es) :
    c.shared = true := by
  by_contra hc
  have hr := (Run.refl (s := start { interrupted with sp } fun _ => 0)).snoc
    (admitted_sigaction (a := twofold) fun hs => absurd hs hc)
  have hip := (h _ _ _ _ (hr.snoc (admitted_signal 2))).ip 0xff 0 0 (fun h => h.left rfl) hsp
  rw [step_ip (fun h => h.left rfl) hsp, Bool.eq_false_iff.mpr hc] at hip
  have hne : (1 : Nat) = 2 := Option.some.inj hip
  contradiction

-- The handler of a signal is always the one which has been registered last if and only if `sa_handler`
-- and `sa_sigaction` share their storage.
theorem latest_wins_iff (hsp : c.rangeOk (Word.sub sp c.layout.size) c.layout.size = true) :
    (∀ regs mem es t, Run (Guarded (Admits c) (Step c)) (start regs mem) es t → t.Answers c es) ↔
      c.shared = true := by
  constructor
  case mp  => exact shared_of_answers hsp
  case mpr =>
    intro hc regs mem es t hr
    have hf := Follows.of_run hc hr
    exact ⟨fun _ _ _ hn hok => hf.getHandler ▸ step_ip hn hok⟩

theorem latest_wins_alarmed : alarmed.Answers oneHandler [.signal SIGALRM 0x1000] := by
  have hok : oneHandler.rangeOk (Word.sub interrupted.sp i386.size) i386.size = true := rfl
  exact (latest_wins_iff hok).mpr rfl _ _ _ _ (Run.refl.snoc (admitted_signal 0x1000))

end Thread
end LibSig
